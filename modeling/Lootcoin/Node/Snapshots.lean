import Lootcoin.Node.Canonical

/-! The checkpoints that a node stores.  Every stored checkpoint is the snapshot of the canonical
chain up to its height: one is taken when a block is appended, and a reorganization deletes those
that it displaces. -/

namespace Lootcoin

namespace Node

variable {core : Core} {ambient : Ambient} {n n' : Node} {b : Block} {outcome : BlockOutcome}
  {env : Option ℚ} {pot : ℕ} {genesis : Block} {full : Blockchain}

/-! ### What a delivery does to the checkpoints -/

theorem persistApplied_checkpoints (core : Core) (n : Node) (b : Block) :
    (persistApplied core n b).db.checkpoints =
      if 0 < b.index ∧ b.index % checkpointInterval = 0 then
        n.db.checkpoints.insert b.index n.chain.snapshot
      else n.db.checkpoints := by
  simp only [persistApplied]
  split
  · simp only [Db.saveCheckpoint, Db.saveAppliedBlock_checkpoints]
    rfl
  · exact Db.saveAppliedBlock_checkpoints core _ _ _ _

/-- The index from which a reorganization deletes the checkpoints. -/
def deletedFrom : List Block → ℕ
  | first :: _ => first.index
  | [] => 0

theorem persistReorged_checkpoints (core : Core) (n : Node) (old new : List Block) :
    (persistReorged core n old new).db.checkpoints =
      n.db.checkpoints.removeFrom (deletedFrom old) := by
  cases old with
  | nil =>
    have h : ∀ (db : Db) (b : Block), (db.saveBlockIndexed b).checkpoints = db.checkpoints :=
      fun _ _ => rfl
    simp only [persistReorged, Db.rebuildIndicesWithTickets_checkpoints]
    exact Db.foldl_checkpoints h new _
  | cons first old =>
    simp only [persistReorged, Db.applyReorgIncremental_checkpoints]
    rfl

/-- A checkpoint that is stored after a delivery was stored before, below what a reorganization
displaces, or is the snapshot of the chain that the block was appended to. -/
theorem get_checkpoints (h : n.applyBlock core ambient b = .ok (outcome, n')) {k : ℕ}
    {state : CheckpointState} (hk : n'.db.checkpoints.get k = some state) :
    (n.db.checkpoints.get k = some state ∧
      ∀ old new, outcome = .reorged old new → k < deletedFrom old) ∨
    ∃ chain, n.chain.updateState core (ambient.clock 0) b = .ok (some chain) ∧
      k = b.index ∧ k % checkpointInterval = 0 ∧ state = chain.snapshot := by
  obtain ⟨chain, happ, ⟨rfl, last, hlast, rfl⟩ | ⟨old, new, rfl, rfl⟩ | ⟨hout, rfl⟩⟩ :=
    applyBlock_eq_ok.mp h
  · have hup : n.chain.updateState core (ambient.clock 0) b = .ok (some chain) := by
      simpa using Blockchain.applyInMemory_eq_ok.mp happ
    obtain rfl : b = last := by
      simpa [(Blockchain.appended_of_updateState hup).blocks] using hlast
    rw [persistApplied_checkpoints] at hk
    split at hk
    · rename_i hdue
      by_cases hkb : k = b.index
      · rw [hkb, OrderedTable.get_insert, Option.some.injEq] at hk
        exact .inr ⟨chain, hup, hkb, hkb ▸ hdue.2, hk.symm⟩
      · rw [OrderedTable.get_insert_ne _ _ hkb] at hk
        exact .inl ⟨hk, by simp⟩
    · exact .inl ⟨hk, by simp⟩
  · rw [persistReorged_checkpoints, OrderedTable.get_removeFrom] at hk
    split at hk
    · rename_i hlt
      refine .inl ⟨hk, fun old' new' heq => ?_⟩
      cases heq
      exact hlt
    · cases hk
  · refine .inl ⟨hk, fun old new heq => ?_⟩
    rcases hout with rfl | rfl <;> cases heq

/-! ### Runs -/

/-- A checkpoint is the snapshot of the chain that a fresh chain grows into by the blocks up to a
height, at which a checkpoint is due. -/
structure IsSnapshot (core : Core) (env : Option ℚ) (pot : ℕ) (genesis : Block) (chain : List Block)
    (height : ℕ) (state : CheckpointState) : Prop where
  due : height % checkpointInterval = 0
  grown : ∃ path whole, chain.take (height + 1) = genesis :: path ∧ path.length = height ∧
    Blockchain.Grows core (freshChain env pot genesis) path whole ∧ state = whole.snapshot

/-- Every stored checkpoint is the snapshot of the canonical chain up to its height. -/
def Snapshots (core : Core) (env : Option ℚ) (pot : ℕ) (genesis : Block) (n : Node) : Prop :=
  ∀ height state, n.db.checkpoints.get height = some state →
    IsSnapshot core env pot genesis n.canonicalChain height state

theorem IsSnapshot.of_take {chain chain' : List Block} {height : ℕ} {state : CheckpointState}
    (h : IsSnapshot core env pot genesis chain height state)
    (htake : chain'.take (height + 1) = chain.take (height + 1)) :
    IsSnapshot core env pot genesis chain' height state :=
  ⟨h.due, by rw [htake]; exact h.grown⟩

theorem IsSnapshot.lt {chain : List Block} {height : ℕ} {state : CheckpointState}
    (h : IsSnapshot core env pot genesis chain height state) : height < chain.length := by
  obtain ⟨path, whole, htake, hlen, -⟩ := h.grown
  have := congrArg List.length htake
  rw [List.length_take, List.length_cons, hlen] at this
  omega

/-- A reorganization deletes the checkpoints above the ancestor. -/
theorem deletedFrom_le (hc : n.chain.Contiguous) {old fork new : List Block} {ancestor : ℕ}
    (h : n.chain.splice fork ancestor = .ok (new, old)) : deletedFrom old ≤ ancestor + 1 := by
  cases hold : old with
  | nil => exact Nat.zero_le _
  | cons first rest =>
    rcases Blockchain.splice_eq_ok.mp h with ⟨ho, -, -, hdrop⟩ | ⟨-, -, hnil⟩
    · have hfirst : n.chain.blocks[ancestor - n.chain.blocksOffset + 1]? = some first := by
        have hhead := congrArg List.head? (hdrop.symm.trans hold)
        rwa [List.head?_drop] at hhead
      have := hc.index _ first hfirst
      show first.index ≤ ancestor + 1
      omega
    · cases hnil.symm.trans hold

/-- A delivery whose fork replays completely keeps every checkpoint a snapshot. -/
theorem Snapshots.step (hs : Snapshots core env pot genesis n)
    (ht : Tracks core env pot genesis n full) (hn : Sound core n) (hi : genesis.index = 0)
    (hpot : pot < 2 ^ 64) (hfits : b.Fits) (h : n.applyBlock core ambient b = .ok (outcome, n'))
    (hrep : n.chain.ForkReplays core ambient b (some n.db.reader)) :
    Snapshots core env pot genesis n' := by
  intro k state hk
  rcases get_checkpoints h hk with ⟨hk, hkept⟩ | ⟨chain, hup, hkb, hdue, rfl⟩
  · have hold := hs k state hk
    have hlt := hold.lt
    rw [ht.canonicalChain] at hold hlt
    cases effect_of_applyBlock h with
    | applied hup hchain hblocks =>
      obtain ⟨full', hfull, -, ht'⟩ := ht.applied hfits hup hchain hblocks
      rw [ht'.canonicalChain, hfull]
      exact hold.of_take (List.take_append_of_le_length hlt)
    | rejected _ _ heq =>
      rw [heq, ht.canonicalChain]
      exact hold
    | orphaned hadm hfind heq =>
      rw [heq, (ht.orphaned hfits (.orphaned hadm hfind rfl)).canonicalChain]
      exact hold
    | @reorged old fork new ancestor chain payouts hre hchain hblocks =>
      obtain ⟨full', hfull, ht'⟩ := ht.reorged hn hi hpot hfits hre hchain hblocks hrep
      have hbelow := (hkept old fork rfl).trans_le (deletedFrom_le hn.window.contiguous hre.splice)
      have hancestor := ht.ancestor_lt hre.splice
      rw [ht'.canonicalChain, hfull.blocks]
      apply hold.of_take
      rw [List.take_append_of_le_length (by rw [List.length_take]; omega), List.take_take,
        Nat.min_eq_left (by omega)]
  · -- the snapshot is that of the chain after the append
    cases effect_of_applyBlock h with
    | @applied chain' payouts hup' hchain hblocks =>
      cases hup.symm.trans hup'
      obtain ⟨full', hfull, hpruned, ht'⟩ := ht.applied hfits hup hchain hblocks
      obtain ⟨path, hpath, hgrow⟩ := ht'.blocks
      have hindex : b.index = full.blocks.length := by
        rw [(Blockchain.appended_of_updateState hup).index, ht.pruned.sameTip.getHeight,
          Blockchain.getHeight, ht.pruned.whole, Nat.zero_add]
      have hlen : full'.blocks.length = k + 1 := by
        rw [hfull, List.length_append, List.length_singleton, hkb, hindex]
      refine ⟨hdue, path, full', ?_, ?_, hgrow, ?_⟩
      · rw [ht'.canonicalChain, List.take_of_length_le hlen.le, hpath]
      · rw [hpath, List.length_cons] at hlen
        omega
      · unfold Blockchain.snapshot
        rw [hpruned.derived, hpruned.sameTip.getLatestHash]
    | rejected hno => cases hup.symm.trans hno
    | orphaned hadm => cases hup.symm.trans (Blockchain.admits_eq_some.mp hadm).1
    | reorged hre => cases hup.symm.trans (Blockchain.admits_eq_some.mp hre.admits).1

/-- In a run whose forks replay completely, the stored checkpoints are snapshots. -/
theorem snapshots_of_run (hi : genesis.index = 0) (hpot : pot < 2 ^ 64) {ds : List Delivery}
    (run : Runs.Run (DeliversCompletely core) (fresh env pot genesis) ds n) :
    Snapshots core env pot genesis n := by
  have hall := run.invariant
    (P := fun m => Consistent core env pot genesis m ∧ Snapshots core env pot genesis m) ?_
    ⟨consistent_fresh hi, fun k state hk => by simp [fresh, Db.saveBlockIndexed, Db.empty] at hk⟩
  · exact hall.2
  rintro m d m' ⟨⟨hfits, outcome, happ⟩, hrep⟩ ⟨hw, hs⟩
  obtain ⟨full, ht⟩ := hw.tracks
  exact ⟨hw.step hi hpot hfits (effect_of_applyBlock happ) hrep,
    hs.step ht hw.sound hi hpot hfits happ hrep⟩

end Node

end Lootcoin
