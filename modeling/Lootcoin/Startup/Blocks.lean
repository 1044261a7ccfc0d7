import Lootcoin.Startup.History

/-! Where the blocks of a node come from.  Through all starts and deliveries, every block that a
node has in memory or has stored is the genesis block, or was delivered with its hash, or carries
the hash of a trusted checkpoint. -/

namespace Lootcoin

namespace Blockchain

variable {core : Core} {c c' : Blockchain}

/-- A replay without a database adds no blocks but those that are replayed. -/
theorem holds_of_applyStored {ambients : ℕ → Ambient} {bs : List Block}
    {outcomes : List BlockOutcome} {x : Block}
    (h : Node.applyStored core ambients c bs = .ok (outcomes, c')) (hx : c'.Holds x) :
    x ∈ bs ∨ c.Holds x := by
  induction bs generalizing c ambients outcomes with
  | nil =>
    cases h
    exact .inr hx
  | cons b bs ih =>
    obtain ⟨⟨outcome, d⟩, hstep, h⟩ := Fallible.bind_eq_ok.mp h
    obtain ⟨⟨outcomes', d'⟩, hrest, h⟩ := Fallible.bind_eq_ok.mp h
    cases Fallible.pure_eq_ok.mp h
    rcases ih hrest with hx | hx
    · exact .inl (List.mem_cons_of_mem _ hx)
    · rcases holds_of_applyInMemory hstep hx with ⟨rfl, -⟩ | hx | ⟨read, _, _, _, hread, -⟩
      · exact .inl List.mem_cons_self
      · exact .inr hx
      · cases hread

/-- A chain of one block and no orphans has only that block. -/
theorem eq_of_holds_single {b x : Block} (hblocks : c.blocks = [b]) (hpool : c.orphanPool = ∅)
    (hx : c.Holds x) : x = b := by
  rcases hx with hx | ⟨k, hk⟩
  · exact List.mem_singleton.mp (hblocks ▸ hx)
  · simp [hpool] at hk

end Blockchain

/-- A node keeps blocks in its window. -/
theorem Node.applyBlock_blocks_ne_nil {core : Core} {ambient : Ambient} {n n' : Node} {b : Block}
    {outcome : BlockOutcome} (hn : n.chain.blocks ≠ [])
    (h : n.applyBlock core ambient b = .ok (outcome, n')) : n'.chain.blocks ≠ [] := by
  obtain ⟨chain, happ, hpersist⟩ := applyBlock_eq_ok.mp h
  have hne := Blockchain.applyInMemory_blocks_ne_nil hn happ
  rcases hpersist with ⟨-, last, -, rfl⟩ | ⟨old, new, -, rfl⟩ | ⟨-, rfl⟩
  · obtain ⟨payouts, hchain⟩ := persistApplied_chain core ⟨chain, n.db⟩ last
    rw [hchain]
    exact Blockchain.pruneToWindow_blocks_ne_nil hne
  · obtain ⟨payouts, hchain⟩ := persistReorged_chain core ⟨chain, n.db⟩ old new
    rw [hchain]
    exact Blockchain.pruneToWindow_blocks_ne_nil hne
  · exact hne

namespace Startup

open Started

variable {core : Core} {trusted : List TrustedCheckpoint} {env : Environment} {db : Db}
  {s : Started}

/-- The genesis block, a block with the hash of its header, or one with the hash of a trusted
checkpoint. -/
inductive Origin (core : Core) (trusted : List TrustedCheckpoint) (b : Block) : Prop
  | genesis (root : Bytes) : b = Node.mainnetGenesis root → Origin core trusted b
  | hashed : core.calculateHash b.toHeader = some b.hash → Origin core trusted b
  | anchored (checkpoint : TrustedCheckpoint) : checkpoint ∈ trusted →
      (hexEncode b.hash).toList = hashDigits checkpoint.2 → Origin core trusted b

/-- A candidate is listed with the hash of a trusted checkpoint. -/
theorem exists_trusted_of_candidate {peers : List String} {answers : SnapshotAnswers}
    {candidate : SnapshotCandidate} (h : candidate ∈ snapshotCandidates trusted peers answers) :
    ∃ checkpoint ∈ trusted, hashDigits candidate.blockHashHex = hashDigits checkpoint.2 := by
  rw [snapshotCandidates, List.mem_insertionSort, List.mem_flatMap] at h
  obtain ⟨⟨peer, i⟩, -, h⟩ := h
  obtain ⟨info, -, h⟩ := List.mem_filterMap.mp h
  split at h
  · rename_i height hash hfind
    split at h
    · rename_i hdigits
      cases h
      exact ⟨(height, hash), List.mem_of_find?_eq_some hfind, hdigits⟩
    · cases h
  · cases h

/-- The block of a snapshot that is offered. -/
theorem Offers.origin {peers : List String} {answers : SnapshotAnswers} {k height : ℕ}
    {payload : SnapshotPayload} {cpBlock : Block}
    (h : Offers trusted peers answers k height payload cpBlock) : Origin core trusted cpBlock := by
  obtain ⟨candidate, hcandidate, -, -, hdigits⟩ := h.candidate
  obtain ⟨checkpoint, hmem, htrusted⟩ :=
    exists_trusted_of_candidate (List.mem_of_getElem? hcandidate)
  exact .anchored checkpoint hmem (hdigits.trans htrusted)

/-- A node that has blocks in its window, all of them and all others that it has of known origin. -/
structure Derives (core : Core) (trusted : List TrustedCheckpoint) (n : Node) : Prop where
  nonempty : n.chain.blocks ≠ []
  origin : ∀ x, n.Holds x → Origin core trusted x

/-- The last step of a start adds no block. -/
theorem derives_finish (hne : s.chain.blocks ≠ [])
    (hchain : ∀ x, s.chain.Holds x → Origin core trusted x)
    (hstored : ∀ i x, s.db.blocks.get i = some x → Origin core trusted x) :
    Derives core trusted (s.finish core).node := by
  obtain ⟨tickets, txIndex, lotteryPayouts, hfinish⟩ := finish_eq core s
  rw [hfinish]
  constructor
  · exact Blockchain.pruneToWindow_blocks_ne_nil hne
  · intro x hx
    rcases Node.holds_iff.mp hx with hx | ⟨i, hi⟩
    · exact hchain x (Blockchain.holds_of_pruneToWindow hx)
    · exact hstored i x hi

/-- What is read from a database is stored in it. -/
theorem stored_of_mem_loadCanonicalChain {x : Block} (h : x ∈ db.loadCanonicalChain) :
    ∃ i, db.blocks.get i = some x := by
  obtain ⟨⟨i, y⟩, hy, rfl⟩ := List.mem_map.mp h
  exact ⟨i, OrderedTable.mem_entries.mp hy⟩

theorem stored_of_mem_loadBlocksFrom {start : ℕ} {x : Block} (h : x ∈ db.loadBlocksFrom start) :
    ∃ i, db.blocks.get i = some x := by
  obtain ⟨⟨i, y⟩, hy, rfl⟩ := List.mem_map.mp h
  exact ⟨i, OrderedTable.mem_entries.mp (List.mem_filter.mp hy).1⟩

/-- A start with stored blocks of known origin. -/
theorem derives_of_restores (hdb : ∀ i x, db.blocks.get i = some x → Origin core trusted x)
    (h : Restores core env db s) : Derives core trusted (s.finish core).node := by
  cases h with
  | @replay outcomes chain db' hboot hdb' =>
    have hblocks : db'.blocks = db.blocks := by
      rcases hdb' with rfl | rfl <;> rfl
    rw [Node.bootByReplay] at hboot
    split at hboot
    · cases hboot
    rename_i g rest hload
    have hloaded : ∀ x ∈ g :: rest, Origin core trusted x := by
      intro x hx
      obtain ⟨i, hi⟩ := stored_of_mem_loadCanonicalChain (hload ▸ hx)
      exact hdb i x hi
    refine derives_finish ?_ (fun x hx => ?_) fun i x hi => hdb i x (hblocks ▸ hi)
    · exact Blockchain.applyStored_blocks_ne_nil (List.cons_ne_nil _ _) hboot
    · rcases Blockchain.holds_of_applyStored hboot hx with hx | hx
      · exact hloaded x (List.mem_cons_of_mem _ hx)
      · obtain rfl := Blockchain.eq_of_holds_single (b := g) rfl rfl hx
        exact hloaded x List.mem_cons_self
  | @checkpoint height state cpBlock stored outcomes chain _ _ _ hboot =>
    rw [Node.bootFromCheckpoint] at hboot
    split at hboot
    · rename_i cpBlock' _ _ hget
      refine derives_finish ?_ (fun x hx => ?_) hdb
      · exact Blockchain.applyStored_blocks_ne_nil (List.cons_ne_nil _ _) hboot
      · rcases Blockchain.holds_of_applyStored hboot hx with hx | hx
        · obtain ⟨i, hi⟩ := stored_of_mem_loadBlocksFrom hx
          exact hdb i x hi
        · obtain rfl := Blockchain.eq_of_holds_single (b := cpBlock') rfl rfl hx
          obtain ⟨i, -, -, hi⟩ := Db.mem_getBlocksRange (hget ▸ List.mem_cons_self)
          exact hdb i x hi
    · cases hboot

/-- A start with blocks of known origin, or with none. -/
theorem derives_of_startNode (hdb : ∀ i x, db.blocks.get i = some x → Origin core trusted x)
    (h : startNode core trusted env db = .ok s) : Derives core trusted s.node := by
  obtain ⟨s₀, hstart, h⟩ := Fallible.bind_eq_ok.mp h
  cases Fallible.pure_eq_ok.mp h
  have hinsert : ∀ {b : Block} {i : ℕ} {x : Block}, Origin core trusted b →
      (db.blocks.insert b.index b).get i = some x → Origin core trusted x := by
    intro b i x hb hx
    by_cases hi : i = b.index
    · rw [hi, OrderedTable.get_insert, Option.some.injEq] at hx
      exact hx ▸ hb
    · rw [OrderedTable.get_insert_ne _ _ hi] at hx
      exact hdb i x hx
  by_cases hempty : db.loadCanonicalChain = []
  · rw [startChain_of_empty hempty] at hstart
    rcases startEmpty_cases hstart with ⟨height, k, p, cpBlock, -, hoffers, rfl⟩ | ⟨root, -, rfl⟩
    · have hcp : Origin core trusted cpBlock := hoffers.offers.origin
      refine derives_finish (List.cons_ne_nil _ _) (fun x hx => ?_) fun i x => hinsert hcp
      exact Blockchain.eq_of_holds_single (b := cpBlock) rfl rfl hx ▸ hcp
    · have hg : Origin core trusted (Node.mainnetGenesis root) := .genesis root rfl
      refine derives_finish (List.cons_ne_nil _ _) (fun x hx => ?_) fun i x => hinsert hg
      exact Blockchain.eq_of_holds_single (b := Node.mainnetGenesis root) rfl rfl hx ▸ hg
  · exact derives_of_restores hdb (restores_of_startChain hempty hstart)

/-- In every life, each block that the node has is of known origin. -/
theorem derives_of_run {es : List LifeEvent}
    (run : Runs.Run (Lives core trusted) none es (some s)) : Derives core trusted s.node := by
  have hlife : ∀ s' ∈ some s, Derives core trusted s'.node := by
    refine run.invariant (P := fun life => ∀ s ∈ life, Derives core trusted s.node) ?_ (by simp)
    intro life e life' h hlife
    cases h with
    | @boot _ env s' hs =>
      rintro _ ⟨⟩
      refine derives_of_startNode (fun i x hx => ?_) hs
      cases life with
      | none => cases hx
      | some s₀ => exact (hlife s₀ rfl).origin x (.inr (.inr ⟨i, hx⟩))
    | @apply s₀ d n hdelivers =>
      rintro _ ⟨⟩
      obtain ⟨-, outcome, happ⟩ := hdelivers
      have hs₀ := hlife s₀ rfl
      refine ⟨?_, fun x hx => ?_⟩
      · exact Node.applyBlock_blocks_ne_nil hs₀.nonempty happ
      · rcases Node.holds_of_applyBlock happ hx with ⟨-, hhash⟩ | hx
        · exact .hashed hhash
        · exact hs₀.origin x hx
  exact hlife s rfl

end Startup

end Lootcoin
