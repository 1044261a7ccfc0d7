import Lootcoin.Node.Stale
import Lootcoin.Startup.Tickets

/-! A crash while a block is applied.  The application makes its writes in a few transactions, and a
crash keeps those that were committed.  Where a reorganization displaces blocks of the window, the
transaction that replaces them writes every table at once, and the only one before it deletes
checkpoints.  So the node starts again with the chain before the block or the chain after it. -/

namespace Lootcoin

namespace Db

/-- What a list of committed transactions makes of a database. -/
def commitAll (db : Db) (writes : List (Db → Db)) : Db := writes.foldl (fun db write => write db) db

/-- One database holds what the other does, but perhaps fewer checkpoints. -/
structure KeepsTables (db db' : Db) : Prop where
  blocks : db.blocks = db'.blocks
  txIndex : db.txIndex = db'.txIndex
  tickets : db.tickets = db'.tickets
  lotteryPayouts : db.lotteryPayouts = db'.lotteryPayouts
  checkpoints : ∀ height state, db.checkpoints.get height = some state →
    db'.checkpoints.get height = some state

theorem KeepsTables.refl (db : Db) : KeepsTables db db := ⟨rfl, rfl, rfl, rfl, fun _ _ h => h⟩

theorem keepsTables_deleteCheckpointsFrom (db : Db) (height : ℕ) :
    KeepsTables (db.deleteCheckpointsFrom height) db where
  blocks := rfl
  txIndex := rfl
  tickets := rfl
  lotteryPayouts := rfl
  checkpoints k state h := by
    rw [deleteCheckpointsFrom, OrderedTable.get_removeFrom] at h
    split at h
    · exact h
    · cases h

theorem keepsTables_saveCheckpoint {db : Db} {height : ℕ} (state : CheckpointState)
    (h : db.checkpoints.get height = none) : KeepsTables db (db.saveCheckpoint height state) where
  blocks := rfl
  txIndex := rfl
  tickets := rfl
  lotteryPayouts := rfl
  checkpoints k state' hk := by
    have hne : k ≠ height := by
      rintro rfl
      cases h.symm.trans hk
    exact (OrderedTable.get_insert_ne _ _ hne).trans hk

end Db

namespace Node

variable {core : Core} {ambient : Ambient} {n n' : Node} {b : Block} {d : Delivery} {db : Db}
  {outcome : BlockOutcome} {env : Option ℚ} {genesis : Block} {full : Blockchain}

/-! ### Transactions -/

/-- The transactions in which an appended block is stored. -/
def appliedWrites (core : Core) (chain : Blockchain) (b : Block) : List (Db → Db) :=
  let (payouts, chain) := chain.drainPayoutsForBlock b.index
  (fun db => db.saveAppliedBlock core b chain.pendingTickets payouts) ::
    if 0 < b.index ∧ b.index % checkpointInterval = 0 then
      [fun db => db.saveCheckpoint b.index chain.snapshot]
    else []

/-- The transactions in which a reorganization is stored. -/
def reorgedWrites (core : Core) (chain : Blockchain) (oldBlocks newBlocks : List Block) :
    List (Db → Db) :=
  match oldBlocks with
  | first :: _ =>
    let (newPayouts, chain) := chain.drainPayouts newBlocks
    [fun db => db.deleteCheckpointsFrom first.index,
      fun db => db.applyReorgIncremental core oldBlocks newBlocks chain.pendingTickets newPayouts]
  | [] =>
    let (allPayouts, chain) := chain.takeAllSettledPayouts
    (fun db => db.deleteCheckpointsFrom 0) :: (newBlocks.map fun b db => db.saveBlockIndexed b) ++
      [fun db => db.rebuildIndicesWithTickets core chain.pendingTickets allPayouts]

/-- The transactions of the application of a block, in order. -/
def writes (core : Core) (ambient : Ambient) (n : Node) (b : Block) :
    Except Fault (List (Db → Db)) := do
  let (outcome, chain) ← n.chain.applyInMemory core ambient b (some n.db.reader)
  match outcome with
  | .applied =>
    match chain.blocks.getLast? with
    | none => throw .panic
    | some last => return appliedWrites core chain last
  | .reorged oldBlocks newBlocks => return reorgedWrites core chain oldBlocks newBlocks
  | .orphaned | .rejected => return []

theorem commitAll_appliedWrites (core : Core) (n : Node) (b : Block) :
    n.db.commitAll (appliedWrites core n.chain b) = (persistApplied core n b).db := by
  simp only [appliedWrites, persistApplied, Db.commitAll]
  split <;> rfl

theorem commitAll_reorgedWrites (core : Core) (n : Node) (old new : List Block) :
    n.db.commitAll (reorgedWrites core n.chain old new) = (persistReorged core n old new).db := by
  cases old with
  | nil =>
    simp only [reorgedWrites, persistReorged, Db.commitAll, List.foldl_append, List.foldl_cons,
      List.foldl_nil, List.foldl_map]
  | cons => rfl

/-- The transactions of a call, all committed, leave the database of the node after the call. -/
theorem commitAll_writes (h : n.applyBlock core ambient b = .ok (outcome, n')) :
    ∃ ws, n.writes core ambient b = .ok ws ∧ n'.db = n.db.commitAll ws := by
  obtain ⟨chain, happ, hcase⟩ := applyBlock_eq_ok.mp h
  unfold writes
  rw [happ]
  rcases hcase with ⟨rfl, last, hlast, rfl⟩ | ⟨old, new, rfl, rfl⟩ | ⟨hout, rfl⟩
  · simp only [bind, Except.bind, hlast]
    exact ⟨_, rfl, (commitAll_appliedWrites core ⟨chain, n.db⟩ last).symm⟩
  · exact ⟨_, rfl, (commitAll_reorgedWrites core ⟨chain, n.db⟩ old new).symm⟩
  · rcases hout with rfl | rfl <;> exact ⟨[], rfl, rfl⟩

/-! ### Crashes -/

/-- A database that a crash during the application of a block can leave. -/
def CrashLeaves (core : Core) (n : Node) (d : Delivery) (db : Db) : Prop :=
  ∃ ws k, n.writes core d.ambient d.block = .ok ws ∧ db = n.db.commitAll (ws.take k)

/-- The block is not one that makes the chain switch to a fork without displacing a block of the
window. -/
def Displaces (core : Core) (n : Node) (d : Delivery) : Prop :=
  ∀ new n', n.applyBlock core d.ambient d.block ≠ .ok (.reorged [] new, n')

/-- An appended block is stored in all tables from the first transaction on. -/
theorem keepsTables_appliedWrites {chain : Blockchain} (k : ℕ)
    (hfree : db.checkpoints.get b.index = none) :
    (db.commitAll ((appliedWrites core chain b).take (k + 1))).KeepsTables
      (db.commitAll (appliedWrites core chain b)) := by
  simp only [appliedWrites, List.take_succ_cons]
  split
  · cases k with
    | zero =>
      refine Db.keepsTables_saveCheckpoint _ ?_
      rw [← hfree]
      exact congrArg (fun t => t.get b.index) (Db.saveAppliedBlock_checkpoints core _ _ _ _)
    | succ k =>
      rw [List.take_of_length_le (by simp)]
      exact .refl _
  · rw [List.take_nil]
    exact .refl _

/-- Before displaced blocks are replaced, only checkpoints are deleted. -/
theorem keepsTables_reorgedWrites {chain : Blockchain} {old new : List Block} (k : ℕ)
    (hold : old ≠ []) :
    (db.commitAll ((reorgedWrites core chain old new).take k)).KeepsTables db ∨
      (db.commitAll ((reorgedWrites core chain old new).take k)).KeepsTables
        (db.commitAll (reorgedWrites core chain old new)) := by
  obtain ⟨first, old, rfl⟩ := List.exists_cons_of_ne_nil hold
  cases k with
  | zero => exact .inl (.refl _)
  | succ k =>
    cases k with
    | zero => exact .inl (Db.keepsTables_deleteCheckpointsFrom _ _)
    | succ k =>
      rw [List.take_of_length_le (by simp [reorgedWrites])]
      exact .inr (.refl _)

/-- What a crash leaves has the tables of before the block or those of after it. -/
theorem keepsTables_of_crash (hn : ∀ k state, n.db.checkpoints.get k = some state →
      k < n.chain.getHeight) (h : n.applyBlock core d.ambient d.block = .ok (outcome, n'))
    (hdisplaces : Displaces core n d) (hcrash : CrashLeaves core n d db) :
    db.KeepsTables n.db ∨ db.KeepsTables n'.db := by
  obtain ⟨ws, k, hws, rfl⟩ := hcrash
  obtain ⟨ws', hws', hall⟩ := commitAll_writes h
  cases hws.symm.trans hws'
  rw [hall]
  obtain ⟨chain, happ, hcase⟩ := applyBlock_eq_ok.mp h
  rw [writes, happ] at hws
  rcases hcase with ⟨rfl, last, hlast, -⟩ | ⟨old, new, rfl, -⟩ | ⟨hout, -⟩
  · simp only [bind, Except.bind, hlast] at hws
    cases hws
    have hup : n.chain.updateState core (d.ambient.clock 0) d.block = .ok (some chain) := by
      simpa using Blockchain.applyInMemory_eq_ok.mp happ
    have ha := Blockchain.appended_of_updateState hup
    obtain rfl : d.block = last := by simpa [ha.blocks] using hlast
    cases k with
    | zero => exact .inl (.refl _)
    | succ k =>
      refine .inr (keepsTables_appliedWrites k ?_)
      by_contra hsome
      obtain ⟨state, hstate⟩ := Option.ne_none_iff_exists'.mp hsome
      exact absurd (ha.index ▸ hn _ state hstate) (Nat.lt_irrefl _)
  · cases hws
    refine keepsTables_reorgedWrites k ?_
    rintro rfl
    exact hdisplaces new _ h
  · rcases hout with rfl | rfl
    all_goals
      cases hws
      rw [List.take_nil]
      exact .inl (.refl _)

/-! ### Starts -/

/-- A database holds a whole chain: its blocks and no others, the tickets that are pending after
it, and checkpoints of its beginnings alone. -/
structure HoldsChain (core : Core) (env : Option ℚ) (genesis : Block) (full : Blockchain)
    (db : Db) : Prop where
  blocks : ∀ i, db.blocks.get i = full.blocks[i]?
  tickets : db.tickets = ticketTable full.pendingTickets
  checkpoints : ∀ height state, db.checkpoints.get height = some state →
    IsSnapshot core env genesisPotAmount genesis full.blocks height state

theorem HoldsChain.keeps {db' : Db} (h : HoldsChain core env genesis full db')
    (hk : db.KeepsTables db') : HoldsChain core env genesis full db where
  blocks i := by rw [hk.blocks, h.blocks]
  tickets := hk.tickets.trans h.tickets
  checkpoints height state hget := h.checkpoints height state (hk.checkpoints height state hget)

theorem HoldsChain.loadCanonicalChain (h : HoldsChain core env genesis full db) :
    db.loadCanonicalChain = full.blocks :=
  Mirrors.loadCanonicalChain (n := ⟨full, db⟩) h.blocks

/-- What a start needs of a chain whose database it finds: the blocks lie in the past, and above a
checkpoint they are seen alike without those below. -/
structure StartsFrom (core : Core) (env : Environment) (db : Db) (full : Blockchain) (time : ℕ) :
    Prop where
  times : ∀ x ∈ full.blocks.tail, x.timestamp ≤ time + 120
  clock : ∀ j k, time ≤ (env.ambients j).clock k
  seen : ∀ height state, db.checkpoints.get height = some state →
    Blockchain.SeenAlikeFrom core height full.blocks

section

variable {env : Environment} {time : ℕ} {path : List Block}

/-- A checkpoint of the chain is not stale, and leads to the end of the chain. -/
theorem HoldsChain.bootsFromCheckpoint (h : HoldsChain core env.difficulty genesis full db)
    (hgrow : Blockchain.Grows core (freshChain env.difficulty genesisPotAmount genesis) path full)
    (hw : Blockchain.Whole (freshChain env.difficulty genesisPotAmount genesis))
    (hle : full.blocks.length ≤ 2 ^ 64) (hseen : ∀ height state,
      db.checkpoints.get height = some state → Blockchain.SeenAlikeFrom core height full.blocks)
    (htimes : ∀ x ∈ path, ∀ j k, x.timestamp ≤ (env.ambients j).clock k + 120) {height : ℕ}
    {state : CheckpointState} (hget : db.checkpoints.get height = some state) :
    ∃ x c, db.getBlocksRange height 1 = [x] ∧ state.blockHash = x.hash ∧
      (∃ outcomes, bootFromCheckpoint core env.ambients env.difficulty db height state =
        .ok (outcomes, c)) ∧ full.EndOf c := by
  have hblocks : full.blocks = genesis :: path := hgrow.blocks
  obtain ⟨hdue, lower, whole, htake, rfl, hlower, rfl⟩ := h.checkpoints height state hget
  -- the block of the checkpoint and those above it
  obtain ⟨post, rfl⟩ : ∃ post, path = lower ++ post := by
    rw [hblocks, List.take_succ_cons, List.cons.injEq] at htake
    have hsplit := List.take_append_drop lower.length path
    rw [htake.2] at hsplit
    exact ⟨path.drop lower.length, hsplit.symm⟩
  obtain ⟨whole', hlower', hpost⟩ := hgrow.split
  obtain rfl := Blockchain.Grows.unique hlower' hlower
  have hwhole : whole'.blocks = genesis :: lower := Blockchain.Grows.blocks hlower'
  obtain ⟨x, hx⟩ : ∃ x, whole'.blocks[lower.length]? = some x :=
    ⟨_, List.getElem?_eq_getElem (by simp [hwhole])⟩
  have hxfull : (genesis :: (lower ++ post))[lower.length]? = some x := by
    rw [← List.cons_append, List.getElem?_append_left (by simp), ← hwhole, hx]
  have hbound : lower.length + 1 < 2 ^ 64 := by
    have hlength := congrArg List.length hblocks
    rw [List.length_cons, List.length_append] at hlength
    unfold checkpointInterval at hdue
    omega
  have hget' : ∀ i, db.blocks.get i = (genesis :: (lower ++ post))[i]? := fun i => by
    rw [h.blocks, hblocks]
  obtain ⟨c, hc, hend⟩ := (endOf_restored hlower hx).grows (hw.grows hlower) hpost
    (hseen lower.length _ hget)
  refine ⟨x, c, ?_, ?_, ⟨List.replicate post.length .applied, ?_⟩, hend⟩
  · rw [Db.getBlocksRange, Word.saturatingAdd_of_lt hbound, OrderedTable.range_eq_filterMap,
      List.range'_one, List.filterMap_cons, hget', hxfull, List.filterMap_nil]
  · have hlast : whole'.blocks.getLast? = some x := by
      rw [List.getLast?_eq_getElem?, hwhole, List.length_cons, Nat.add_sub_cancel, ← hwhole, hx]
    unfold Blockchain.snapshot Blockchain.getLatestHash
    rw [hlast]
    rfl
  · rw [bootFromCheckpoint_eq (h.loadCanonicalChain.trans hblocks) hget' hbound hxfull]
    exact applyStored_of_grows hc fun b hb => htimes b (List.mem_append_right _ hb)

/-- A start that finds a chain restores it, from the latest checkpoint or by a replay. -/
theorem HoldsChain.restores (trusted : List TrustedCheckpoint)
    (h : HoldsChain core env.difficulty genesis full db)
    (hgrow : Blockchain.Grows core (freshChain env.difficulty genesisPotAmount genesis) path full)
    (hw : Blockchain.Whole (freshChain env.difficulty genesisPotAmount genesis))
    (hle : full.blocks.length ≤ 2 ^ 64) (hstarts : StartsFrom core env db full time) :
    ∃ s, Started.startChain core trusted env db = .ok s ∧ full.EndOf s.chain ∧ s.db = db := by
  have hblocks : full.blocks = genesis :: path := hgrow.blocks
  have hload : db.loadCanonicalChain = genesis :: path := h.loadCanonicalChain.trans hblocks
  have htimes : ∀ x ∈ path, ∀ j k, x.timestamp ≤ (env.ambients j).clock k + 120 := by
    intro x hx j k
    have := hstarts.times x (by rw [hblocks]; exact hx)
    have := hstarts.clock j k
    omega
  have hempty : db.loadCanonicalChain.isEmpty = false := by
    rw [hload]
    rfl
  simp only [Started.startChain, hempty, Bool.false_eq_true, if_false]
  cases hlatest : db.loadLatestCheckpoint with
  | none =>
    refine ⟨⟨full, db, false, 0⟩, ?_, .refl ?_ (hgrow.blocksOffset.trans rfl), rfl⟩
    · simp only [Started.startReplay, bootByReplay_eq hload hgrow htimes]
      rfl
    · rw [hblocks]
      exact List.cons_ne_nil _ _
  | some checkpoint =>
    obtain ⟨height, state⟩ := checkpoint
    have hget : db.checkpoints.get height = some state :=
      OrderedTable.mem_entries.mp (List.mem_of_getLast? hlatest)
    obtain ⟨x, c, hx, hhash, ⟨outcomes, hboot⟩, hend⟩ :=
      h.bootsFromCheckpoint hgrow hw hle hstarts.seen htimes hget
    refine ⟨⟨c, db, true, 0⟩, ?_, hend, rfl⟩
    simp only [hx, hhash, if_true, hboot]
    rfl

/-- The last step of a start keeps the tip, and the state where the tickets are those pending. -/
theorem sameTip_restoreTickets {c : Blockchain} (h : full.EndOf c) {tickets : List LootTicket}
    (htickets : tickets = full.pendingTickets) :
    Blockchain.SameTip (c.pruneToWindow.restoreTickets tickets) full := by
  have hne : c.blocks ≠ [] := by
    rw [h.blocks, Ne, List.drop_eq_nil_iff, Nat.not_le]
    exact h.offset_lt
  have hderived : c.pruneToWindow.toDerivedState = full.toDerivedState :=
    (Blockchain.pruneToWindow_toDerivedState c).trans h.derived
  refine ⟨?_, (Blockchain.pruneToWindow_getHeight hne).trans h.sameTip.getHeight, ?_⟩
  · show { c.pruneToWindow.toDerivedState with pendingTickets := tickets } = _
    rw [hderived, htickets]
  · rw [← h.sameTip.getLatestHash]
    simp only [Blockchain.restoreTickets, Blockchain.getLatestHash,
      Blockchain.pruneToWindow_blocks, List.getLast?_drop,
      if_neg (Nat.not_le.mpr (Blockchain.excess_lt hne))]

/-- The chain of a started node has the state and the tip of the chain that its database held. -/
theorem HoldsChain.starts (trusted : List TrustedCheckpoint)
    (h : HoldsChain core env.difficulty genesis full db)
    (hgrow : Blockchain.Grows core (freshChain env.difficulty genesisPotAmount genesis) path full)
    (hi : genesis.index = 0)
    (hw : Blockchain.Whole (freshChain env.difficulty genesisPotAmount genesis))
    (hle : full.blocks.length ≤ 2 ^ 64) (hstarts : StartsFrom core env db full time) :
    ∃ s, startNode core trusted env db = .ok s ∧ Blockchain.SameTip s.chain full := by
  obtain ⟨s, hs, hend, rfl⟩ := h.restores trusted hgrow hw hle hstarts
  refine ⟨s.finish core, ?_, ?_⟩
  · simp only [startNode, hs]
    rfl
  -- the tickets of the database are those that are pending
  have hdue : full.pendingTickets = Blockchain.ticketsDue full.blocks :=
    (hw.grows hgrow).tickets
  have hindex := (windowSound_freshChain hi).grows hgrow
  have htickets : s.db.loadTickets = full.pendingTickets := by
    refine Db.loadTickets_ticketTable ?_ h.tickets
    rw [hdue]
    refine (Blockchain.sorted_createdHeights fun i x hx => ?_).sublist
      (List.filter_sublist.map _)
    rw [hindex.index i x hx, hgrow.blocksOffset]
    exact Nat.zero_add i
  have hpending := (Startup.finish_pendingTickets core s).trans htickets
  obtain ⟨tickets, _, _, hfinish⟩ := Started.finish_eq core s
  rw [hfinish] at hpending ⊢
  have hend' : full.EndOf { s.chain with settledPayoutsByBlock := ∅ } :=
    ⟨hend.derived, hend.whole, hend.offset_lt, hend.blocks, hend.genesisPot,
      hend.initialDifficulty⟩
  exact sameTip_restoreTickets hend' hpending

end

/-! ### Starts after a crash -/

section

variable {env : Environment} {trusted : List TrustedCheckpoint} {root : Bytes} {ds : List Delivery}
  {start : ℕ} {s s' : Timed}

/-- A start with the tables of a node that stores its canonical chain and nothing else leads to the
state and the tip of that node. -/
theorem starts_of_keepsTables (run : Runs.Run (DeliversBetween core)
      ⟨fresh env.difficulty genesisPotAmount (mainnetGenesis root), start⟩ ds s)
    (hstored : s.node.StoresCanonical) (hkeeps : db.KeepsTables s.node.db)
    (hclock : ∀ j k, s.time ≤ (env.ambients j).clock k)
    (hseen : ∀ height state, db.checkpoints.get height = some state →
      Blockchain.SeenAlikeFrom core height s.node.canonicalChain) :
    ∃ st, startNode core trusted env db = .ok st ∧ Blockchain.SameTip st.chain s.node.chain := by
  have hi : (mainnetGenesis root).index = 0 := rfl
  obtain ⟨full, ht, htimes⟩ := tracks_of_timed_run hi (by decide) run
  obtain ⟨path, hpath, hgrow⟩ := ht.blocks
  have hchain := ht.canonicalChain
  have htable : s.node.StoresTickets :=
    run.invariant (P := fun s => s.node.StoresTickets) (fun h hs => hs.delivers h.1.1) rfl
  have hholds : HoldsChain core env.difficulty (mainnetGenesis root) full s.node.db :=
    { blocks := (ht.mirrors_iff hi).mpr hstored
      tickets := by rw [htable, ht.pruned.derived]
      checkpoints := by
        rw [← hchain]
        exact snapshots_of_run hi (by decide) (run_untimed run) }
  obtain ⟨st, hst, htip⟩ := (hholds.keeps hkeeps).starts trusted hgrow hi
    ⟨rfl, (ticketsDue_mainnetGenesis root).symm⟩ ht.length_le ⟨htimes, hclock, hchain ▸ hseen⟩
  have htip' := ht.pruned.sameTip.symm
  exact ⟨st, hst, htip.derived.trans htip'.derived, htip.getHeight.trans htip'.getHeight,
    htip.getLatestHash.trans htip'.getLatestHash⟩

/-- Where the forks so far and that of the block replay completely, the stored chain was the
canonical one, and a fork from below the window reaches the height, a crash at any point of the
application of the block leaves the tables of before it or those of after it, perhaps with fewer
checkpoints, except in a switch to a fork that displaces no block of the window. Where the clock
does not go back and the blocks above each checkpoint are seen alike without those below, the node
starts again with the state and the tip of that time. -/
theorem starts_after_crash (env : Environment) (trusted : List TrustedCheckpoint)
    (run : Runs.Run (DeliversBetween core)
      ⟨fresh env.difficulty genesisPotAmount (mainnetGenesis root), start⟩ ds s)
    (hstored : s.node.StoresCanonical) (hd : DeliversBetween core s d s')
    (hreach : s.node.ReachesHeight core d) (hdisplaces : Displaces core s.node d)
    (hcrash : CrashLeaves core s.node d db) :
    ∃ m, (m = s.node ∨ m = s'.node) ∧ db.KeepsTables m.db ∧
      ((∀ j k, s'.time ≤ (env.ambients j).clock k) →
        (∀ height state, db.checkpoints.get height = some state →
          Blockchain.SeenAlikeFrom core height m.canonicalChain) →
        ∃ st, startNode core trusted env db = .ok st ∧
          Blockchain.SameTip st.chain m.chain) := by
  have hi : (mainnetGenesis root).index = 0 := rfl
  obtain ⟨⟨⟨hfits, outcome, happ⟩, hrep⟩, hbetween⟩ := hd
  obtain ⟨hn, full, ht⟩ := consistent_of_run hi (by decide) (run_untimed run)
  have hsnapshots := snapshots_of_run hi (by decide) (run_untimed run)
  have hbelow : ∀ k state, s.node.db.checkpoints.get k = some state →
      k < s.node.chain.getHeight := by
    intro k state hk
    rw [ht.getHeight, ← ht.canonicalChain]
    exact (hsnapshots k state hk).lt
  rcases keepsTables_of_crash hbelow happ hdisplaces hcrash with hkeeps | hkeeps
  · refine ⟨s.node, .inl rfl, hkeeps, fun hclock hseen =>
      starts_of_keepsTables run hstored hkeeps (fun j k => ?_) hseen⟩
    have := hbetween 0
    have := hclock j k
    omega
  · have hstored' : s'.node.StoresCanonical := by
      obtain ⟨full', ht', hiff⟩ := Mirrors.step ((ht.mirrors_iff hi).mpr hstored) ht hn hi
        (by decide) hfits (effect_of_applyBlock happ) hrep
      exact (ht'.mirrors_iff hi).mp (hiff.mpr hreach)
    exact ⟨s'.node, .inr rfl, hkeeps, starts_of_keepsTables
      (run.snoc ⟨⟨⟨hfits, outcome, happ⟩, hrep⟩, hbetween⟩) hstored' hkeeps⟩

end

end Node

namespace Sample

/-! ### A crash in a reorganization -/

/-- A delivery after the timestamps of the main and the rival block. -/
def deliveredAt (b : Block) : Node.Delivery := ⟨b, around 1748000160⟩

/-- The node crashes after it has deleted checkpoints and before it replaces the main block, and
starts again with the main block. -/
theorem rivalBlock_crash : ∃ n n' db,
    Runs.Run (Node.DeliversBetween plainCore) ⟨node, 1748000160⟩
      ([mainBlock].map deliveredAt) ⟨n, 1748000160⟩ ∧
    n.applyBlock plainCore (around 1748000160) rivalBlock =
      .ok (.reorged [mainBlock] [rivalBlock], n') ∧
    db = n.db.deleteCheckpointsFrom 1 ∧
    ∃ m, (m = n ∨ m = n') ∧ db.KeepsTables m.db ∧
      ∃ st, startNode plainCore trustedAt1000 (offeredSnapshot ticketPayload) db = .ok st ∧
        Blockchain.SameTip st.chain m.chain := by
  have hrun : ((runCompletely node ([mainBlock].map deliveredAt)).bind fun n =>
      (n.applyBlock plainCore (around 1748000160) rivalBlock).toOption.map fun r =>
        (r.1, n.db.checkpoints.entries.length,
          decide (n.db.loadCanonicalChain = n.canonicalChain ∧
            (n.db.loadCanonicalChain.map fun b => b.index) = List.range n.chain.getHeight),
          decide (rivalBlock.Fits ∧ n.chain.ForkReplays plainCore (around 1748000160) rivalBlock
            (some n.db.reader) ∧ n.ReachesHeight plainCore (deliveredAt rivalBlock)))) =
      some (.reorged [mainBlock] [rivalBlock], 0, true, true) := by
    decide +kernel
  obtain ⟨n, hn, hnext⟩ := Option.bind_eq_some_iff.mp hrun
  obtain ⟨⟨outcome, n'⟩, happ, hseen⟩ := Option.map_eq_some_iff.mp hnext
  simp only [Prod.mk.injEq, decide_eq_true_eq] at hseen
  obtain ⟨rfl, hcheckpoints, ⟨hload, hindices⟩, hfits, hrep, hreach⟩ := hseen
  have happ := Fallible.toOption_eq_some.mp happ
  have htimed : Runs.Run (Node.DeliversBetween plainCore) ⟨node, 1748000160⟩
      ([mainBlock].map deliveredAt) ⟨n, 1748000160⟩ := by
    refine Node.run_between (fun d hd k => ?_) (run_of_runCompletely hn)
    obtain ⟨b, -, rfl⟩ := List.mem_map.mp hd
    rfl
  have hdelivers : Node.DeliversBetween plainCore ⟨n, 1748000160⟩ (deliveredAt rivalBlock)
      ⟨n', 1748000160⟩ := ⟨⟨⟨hfits, _, happ⟩, hrep⟩, fun k => ⟨Nat.le_refl _, Nat.le_refl _⟩⟩
  have hcrash : Node.CrashLeaves plainCore n (deliveredAt rivalBlock)
      (n.db.deleteCheckpointsFrom 1) := by
    obtain ⟨chain, hmem, hcase⟩ := Node.applyBlock_eq_ok.mp happ
    have hws : n.writes plainCore (around 1748000160) rivalBlock =
        .ok (Node.reorgedWrites plainCore chain [mainBlock] [rivalBlock]) := by
      rw [Node.writes, hmem]
      rfl
    exact ⟨_, 1, hws, rfl⟩
  have hnone : ∀ height state,
      (n.db.deleteCheckpointsFrom 1).checkpoints.get height ≠ some state := by
    intro height state h
    have hget := (Db.keepsTables_deleteCheckpointsFrom n.db 1).checkpoints height state h
    have hmem := OrderedTable.mem_entries.mpr hget
    rw [List.length_eq_zero_iff.mp hcheckpoints] at hmem
    cases hmem
  refine ⟨n, n', _, htimed, happ, rfl, ?_⟩
  obtain ⟨m, hm, hkeeps, hstarts⟩ := Node.starts_after_crash (offeredSnapshot ticketPayload)
    trustedAt1000 htimed ⟨hload, hindices⟩ hdelivers hreach
    (fun new m h => by cases happ.symm.trans h) hcrash
  exact ⟨m, hm, hkeeps, hstarts (fun j k => show 1748000160 ≤ 1748060000 by decide)
    fun height state h => absurd h (hnone height state)⟩

end Sample

end Lootcoin
