import Lootcoin.Node.Restart
import Lootcoin.Startup.Anchor

/-! The tickets of a started node.  The last step of a start takes them from the table of tickets,
whatever the chain was restored from.  The table follows a chain that runs, so it agrees with a
replay of what that chain has stored, but a snapshot does not write it. -/

namespace Lootcoin

namespace Db

/-- A table of tickets lists them by their heights. -/
theorem loadTickets_ticketTable {db : Db} {tickets : List LootTicket}
    (h : (tickets.map fun t => t.createdHeight).Pairwise (· < ·))
    (htable : db.tickets = ticketTable tickets) : db.loadTickets = tickets := by
  have hentries : (ticketTable tickets).entries = tickets.map fun t => (t.createdHeight, t.miner) :=
    OrderedTable.entries_foldl_insert (List.pairwise_map.mp h) (by simp [OrderedTable.empty])
  rw [loadTickets, htable, hentries, List.map_map]
  exact List.map_id _

@[simp] theorem savePayouts_tickets (core : Core) (db : Db) (i : ℕ) (ps : List Payout) :
    (savePayouts core db i ps).tickets = db.tickets := by
  unfold savePayouts
  split <;> rfl

end Db

namespace Node

open Blockchain (SeenAlikeFrom)

variable {core : Core} {n n' : Node} {env : Option ℚ}

/-- The table of tickets holds the pending tickets of the chain. -/
def StoresTickets (n : Node) : Prop := n.db.tickets = ticketTable n.chain.pendingTickets

theorem persistApplied_storesTickets (core : Core) (n : Node) (b : Block) :
    (persistApplied core n b).StoresTickets := by
  have hsaved : ∀ (chain : Blockchain) (payouts : List Payout),
      (n.db.saveAppliedBlock core b chain.pendingTickets payouts).tickets =
        ticketTable chain.pendingTickets :=
    fun _ _ => Db.savePayouts_tickets core _ _ _
  simp only [StoresTickets, persistApplied, Blockchain.pruneToWindow_toDerivedState]
  split <;> exact hsaved _ _

theorem persistReorged_storesTickets (core : Core) (n : Node) (old new : List Block) :
    (persistReorged core n old new).StoresTickets := by
  cases old with
  | nil =>
    simp only [StoresTickets, persistReorged, Blockchain.pruneToWindow_toDerivedState]
    rfl
  | cons =>
    simp only [StoresTickets, persistReorged, Blockchain.pruneToWindow_toDerivedState]
    rfl

theorem StoresTickets.delivers {d : Delivery} (hs : n.StoresTickets) (h : n.Delivers core d n') :
    n'.StoresTickets := by
  obtain ⟨-, outcome, happ⟩ := h
  obtain ⟨chain, hmem, hcase⟩ := applyBlock_eq_ok.mp happ
  rcases hcase with ⟨-, last, -, rfl⟩ | ⟨old, new, -, rfl⟩ | ⟨ho, rfl⟩
  · exact persistApplied_storesTickets core _ last
  · exact persistReorged_storesTickets core _ old new
  · have hsame : chain.pendingTickets = n.chain.pendingTickets := by
      cases effect_of_applyBlock happ with
      | applied => rcases ho with ho | ho <;> cases ho
      | reorged => rcases ho with ho | ho <;> cases ho
      | rejected _ _ heq => exact congrArg (fun n => n.chain.pendingTickets) heq
      | orphaned _ _ heq => exact congrArg (fun n => n.chain.pendingTickets) heq
    rw [StoresTickets, hsame]
    exact hs

/-- The table of tickets of a node that ran holds those of its whole chain. -/
theorem loadTickets_of_run {root : Bytes} {ds : List Delivery} {start : ℕ} {s : Timed}
    {full : Blockchain} (run : Runs.Run (DeliversBetween core)
      ⟨fresh env genesisPotAmount (mainnetGenesis root), start⟩ ds s)
    (ht : Tracks core env genesisPotAmount (mainnetGenesis root) s.node full) :
    s.node.db.loadTickets = full.pendingTickets := by
  obtain ⟨rest, -, hgrow⟩ := ht.blocks
  have hpending : s.node.chain.pendingTickets = full.pendingTickets := by rw [ht.pruned.derived]
  have hdue : full.pendingTickets = Blockchain.ticketsDue full.blocks :=
    hgrow.pendingTickets rfl (ticketsDue_mainnetGenesis root).symm
  have htable : s.node.StoresTickets :=
    run.invariant (P := fun s => s.node.StoresTickets) (fun h hs => hs.delivers h.1.1) rfl
  refine (Db.loadTickets_ticketTable ?_ htable).trans hpending
  rw [hpending, hdue]
  exact (Blockchain.sorted_createdHeights fun i x hx => ht.index rfl hx).sublist
    (List.filter_sublist.map _)

/-- What a run from the main network's genesis block leaves in the database, whose forks replay
completely and which stores its canonical chain and no other blocks: `db`, at a time that the clocks
of a start do not precede.  Above its latest checkpoint the blocks are seen alike. -/
structure LeftByRun (core : Core) (env : Environment) (db : Db) : Prop where
  run : ∃ root ds start s, Runs.Run (DeliversBetween core)
    ⟨fresh env.difficulty genesisPotAmount (mainnetGenesis root), start⟩ ds s ∧ s.node.db = db ∧
    db.loadCanonicalChain = s.node.canonicalChain ∧
    (∀ height state, db.loadLatestCheckpoint = some (height, state) →
      SeenAlikeFrom core height s.node.canonicalChain) ∧
    ∀ j k, s.time ≤ (env.ambients j).clock k

end Node

namespace Startup

open Started

variable {core : Core} {trusted : List TrustedCheckpoint} {env : Environment} {db : Db}

/-- A start whose tickets at the end are those of the restored chain. -/
def KeepsTickets (core : Core) (trusted : List TrustedCheckpoint) (env : Environment) (db : Db) :
    Prop :=
  ∀ s, startChain core trusted env db = .ok s →
    (s.finish core).chain.pendingTickets = s.chain.pendingTickets

theorem finish_pendingTickets (core : Core) (s : Started) :
    (s.finish core).chain.pendingTickets = s.db.loadTickets := by
  unfold finish
  simp only [Blockchain.restoreTickets]
  split
  · rfl
  · obtain ⟨txIndex, lotteryPayouts, h⟩ := rebuildTxIndex_eq core s.db
      s.chain.takeAllSettledPayouts.2.blocks s.chain.takeAllSettledPayouts.1
    rw [h]
    rfl

theorem keepsTickets_iff_loadTickets : KeepsTickets core trusted env db ↔
    ∀ s, startChain core trusted env db = .ok s → s.db.loadTickets = s.chain.pendingTickets := by
  unfold KeepsTickets
  simp only [finish_pendingTickets]

/-- On a fresh database the tickets are kept exactly when the snapshot has none. -/
theorem keepsTickets_fresh_iff (hblocks : db.loadCanonicalChain = [])
    (htickets : db.loadTickets = []) : KeepsTickets core trusted env db ↔
      ∀ height k p cpBlock, env.archive = false →
        OffersFirst trusted env.peers env.answers k height p cpBlock → p.tickets = [] := by
  rw [keepsTickets_iff_loadTickets, startChain_of_empty hblocks]
  constructor
  · intro h height k p cpBlock harchive hoffers
    exact (h _ (startEmpty_of_offersFirst harchive hoffers)).symm.trans htickets
  · intro h s hs
    rcases startEmpty_cases hs with ⟨height, k, p, cpBlock, harchive, hoffers, rfl⟩ | ⟨root, -, rfl⟩
    · exact htickets.trans (h height k p cpBlock harchive hoffers).symm
    · exact htickets

/-! ### With the database of a node that ran -/

/-- What a run leaves starts a node with the tickets of the chain that was running, whether it
begins at a checkpoint or with a replay. -/
theorem keepsTickets_of_run (h : Node.LeftByRun core env db) :
    KeepsTickets core trusted env db := by
  obtain ⟨root, ds, start, s, hrun, rfl, hstored, hseen, hclock⟩ := h.run
  have hi : (Node.mainnetGenesis root).index = 0 := rfl
  obtain ⟨full, ht, htimes⟩ := Node.tracks_of_timed_run hi (by decide) hrun
  obtain ⟨rest, hrest, hgrow⟩ := ht.blocks
  have hload : s.node.db.loadCanonicalChain = Node.mainnetGenesis root :: rest :=
    hstored.trans (ht.canonicalChain.trans hrest)
  have htickets := Node.loadTickets_of_run hrun ht
  have hreplay : ∃ outcomes, Node.bootByReplay core env.ambients env.difficulty s.node.db =
      .ok (outcomes, full) := by
    refine ⟨_, Node.bootByReplay_eq hload hgrow fun b hb j k => ?_⟩
    have := htimes b (by rw [hrest]; exact hb)
    have := hclock j k
    omega
  rw [keepsTickets_iff_loadTickets]
  intro started hs
  have hne : s.node.db.loadCanonicalChain ≠ [] := by rw [hload]; exact List.cons_ne_nil _ _
  cases restores_of_startChain hne hs with
  | replay hboot hdb =>
    obtain ⟨outcomes, hfull⟩ := hreplay
    cases hboot.symm.trans hfull
    rcases hdb with rfl | rfl <;> exact htickets
  | @checkpoint height state _ _ _ c hlatest _ _ hboot =>
    have hget : s.node.db.checkpoints.get height = some state :=
      OrderedTable.mem_entries.mp (List.mem_of_getLast? hlatest)
    obtain ⟨path, post, whole, grown, rfl, rfl, hchain, hcut, hblocks, hbound, hwhole, hpost,
      hbelow⟩ := Node.exists_cut_of_run hrun hget hstored
    have hseen' := hseen path.length _ hlatest
    rw [hchain] at hseen'
    obtain ⟨full', c', hreplay', hboot', -, hsame, -⟩ := Node.startsAlike_of_stored hcut hblocks
      hbound ⟨rfl, (Node.ticketsDue_mainnetGenesis root).symm⟩ hwhole hpost hseen' hbelow hclock
      hclock
    obtain ⟨outcomes, hfull⟩ := hreplay
    cases hreplay'.symm.trans hfull
    cases hboot.symm.trans hboot'
    show s.node.db.loadTickets = c.pendingTickets
    rw [hsame, htickets]

/-- A start keeps the tickets exactly when the table of tickets holds those of the restored chain.
With an empty database that is so exactly when the snapshot, if there is one, has no tickets.  With
the database of a node that ran it is so. -/
theorem keepsTickets_iff (core : Core) (trusted : List TrustedCheckpoint) (env : Environment)
    (db : Db) :
    (KeepsTickets core trusted env db ↔
      ∀ s, startChain core trusted env db = .ok s → s.db.loadTickets = s.chain.pendingTickets) ∧
    (db.loadCanonicalChain = [] → db.loadTickets = [] → (KeepsTickets core trusted env db ↔
      ∀ height k p cpBlock, env.archive = false →
        OffersFirst trusted env.peers env.answers k height p cpBlock → p.tickets = [])) ∧
    (Node.LeftByRun core env db → KeepsTickets core trusted env db) :=
  ⟨keepsTickets_iff_loadTickets, keepsTickets_fresh_iff, keepsTickets_of_run⟩

end Startup

namespace Sample

open Startup Started

/-- A start that is offered a snapshot at the trusted checkpoint. -/
def offeredSnapshot (payload : SnapshotPayload) : Environment where
  difficulty := none
  archive := false
  peers := ["peer"]
  answers := forged 1000 (hexEncode trustedHash) payload claimedBlock
  ambients _ := around 1748060000

/-- A snapshot with one pending ticket. -/
def ticketPayload : SnapshotPayload :=
  { payloadWithPot 1 with tickets := [⟨"miner", 990⟩] }

theorem offersFirst_offeredSnapshot (payload : SnapshotPayload) :
    OffersFirst trustedAt1000 (offeredSnapshot payload).peers (offeredSnapshot payload).answers 0
      1000 { payload with blockHashHex := hexEncode trustedHash } claimedBlock := by
  have hcandidates : snapshotCandidates trustedAt1000 (offeredSnapshot payload).peers
      (offeredSnapshot payload).answers = [⟨"peer", 1000, hexEncode trustedHash⟩] := by
    show snapshotCandidates trustedAt1000 ["peer"] ⟨fun _ => some [⟨1000, hexEncode trustedHash⟩],
      fun _ => none, fun _ => none⟩ = _
    rfl
  refine ⟨⟨⟨⟨"peer", 1000, hexEncode trustedHash⟩, ?_, rfl, rfl, by decide +kernel⟩, rfl, [], rfl⟩,
    fun j hj => absurd hj (Nat.not_lt_zero j)⟩
  rw [hcandidates]
  rfl

/-- The ticket of the snapshot is in the restored chain, and lost at the end of the start. -/
theorem ticketPayload_loses_ticket : ∃ s,
    startChain plainCore trustedAt1000 (offeredSnapshot ticketPayload) Db.empty = .ok s ∧
    s.chain.pendingTickets = [⟨"miner", 990⟩] ∧ (s.finish plainCore).chain.pendingTickets = [] ∧
    ¬ KeepsTickets plainCore trustedAt1000 (offeredSnapshot ticketPayload) Db.empty := by
  have hstart : startChain plainCore trustedAt1000 (offeredSnapshot ticketPayload) Db.empty = _ :=
    (startChain_of_empty rfl).trans
      (startEmpty_of_offersFirst rfl (offersFirst_offeredSnapshot ticketPayload))
  refine ⟨_, hstart, rfl, rfl, fun h => ?_⟩
  exact absurd (h _ hstart) (by decide)

def earningBlock : Block := blockOf earning 1 [] 1748000060 32

/-- A snapshot without tickets loses none, and a node that earned one starts again with it. -/
theorem payloadWithPot_keepsTickets :
    KeepsTickets plainCore trustedAt1000 (offeredSnapshot (payloadWithPot 1)) Db.empty ∧
    ∃ (n : Node) (s : Started),
      startChain plainCore trustedAt1000 (offeredSnapshot (payloadWithPot 1)) n.db = .ok s ∧
      s.chain.pendingTickets = [⟨"miner", 1⟩] ∧
      KeepsTickets plainCore trustedAt1000 (offeredSnapshot (payloadWithPot 1)) n.db := by
  constructor
  · refine ((keepsTickets_iff _ _ _ _).2.1 rfl rfl).mpr fun height k p cpBlock _ h => ?_
    have hp : some p = some _ := h.offers.payload.symm.trans rfl
    cases hp
    rfl
  · have hrun : (runCompletely node [⟨earningBlock, around 1748000160⟩]).map (fun n =>
        (decide (n.db.loadCanonicalChain = n.canonicalChain),
          n.db.loadLatestCheckpoint.map Prod.fst,
          (startChain plainCore trustedAt1000 (offeredSnapshot (payloadWithPot 1))
            n.db).toOption.map fun s => s.chain.pendingTickets)) =
        some (true, none, some [⟨"miner", 1⟩]) := by
      decide +kernel
    obtain ⟨n, hn, hobs⟩ := Option.map_eq_some_iff.mp hrun
    simp only [Prod.mk.injEq, decide_eq_true_eq, Option.map_eq_none_iff] at hobs
    obtain ⟨hstored, hcheckpoint, hstart⟩ := hobs
    obtain ⟨s, hs, htickets⟩ := Fallible.exists_of_toOption_map hstart
    refine ⟨n, s, hs, htickets, (keepsTickets_iff _ _ _ _).2.2 ⟨littleEndian 8 1, _, 1748000160, _,
      Node.run_between (by simp [around]) (run_of_runCompletely hn), rfl, hstored,
      fun height state h => ?_, fun j k => show 1748000160 ≤ 1748060000 by decide⟩⟩
    cases hcheckpoint.symm.trans h

end Sample

end Lootcoin
