import Lootcoin.Node.Restart

/-! The stored checkpoints and the canonical chain.  In a run whose forks replay completely, what a
checkpoint holds is what a replay of the canonical chain up to it rebuilds, whichever appends and
reorganizations came between. -/

namespace Lootcoin

namespace Node

variable {core : Core} {env : Option ℚ} {pot : ℕ} {genesis : Block} {n : Node}

/-- A checkpoint carries the hash of the block at its height. -/
theorem IsSnapshot.blockHash {chain : List Block} {height : ℕ} {state : CheckpointState}
    (h : IsSnapshot core env pot genesis chain height state) :
    chain[height]?.map (fun b => b.hash) = some state.blockHash := by
  obtain ⟨path, whole, htake, hlen, hgrow, rfl⟩ := h.grown
  have hlast : chain[height]? = (genesis :: path).getLast? := by
    rw [← List.getElem?_take_of_lt (Nat.lt_succ_self height), htake, List.getLast?_eq_getElem?,
      List.length_cons, hlen, Nat.add_sub_cancel]
  have hb := List.getLast?_eq_some_getLast (List.cons_ne_nil genesis path)
  have hlatest : whole.getLatestHash = ((genesis :: path).getLast (by simp)).hash := by
    rw [Blockchain.getLatestHash, grown_blocks hgrow, hb]
    rfl
  rw [hlast, hb]
  exact congrArg some hlatest.symm

/-- Every stored checkpoint lies below the height, carries the hash of the canonical block there,
and is the snapshot of the chain that the canonical blocks up to it rebuild, at any time when none
of them lies in the future. -/
theorem checkpoint_of_run (hi : genesis.index = 0) (hpot : pot < 2 ^ 64) {ds : List Delivery}
    (run : Runs.Run (DeliversCompletely core) (fresh env pot genesis) ds n) {height : ℕ}
    {state : CheckpointState} (hstate : n.db.checkpoints.get height = some state) :
    height < n.chain.getHeight ∧
    n.canonicalChain[height]?.map (fun b => b.hash) = some state.blockHash ∧
    ∃ path whole, n.canonicalChain.take (height + 1) = genesis :: path ∧
      (∀ clock : ℕ → ℕ, (∀ b ∈ path, ∀ k, b.timestamp ≤ clock k + 120) →
        Blockchain.applyAll core clock (freshChain env pot genesis) path = .ok (some whole)) ∧
      state = whole.snapshot := by
  have hsnap := snapshots_of_run hi hpot run height state hstate
  obtain ⟨full, ht⟩ := (consistent_of_run hi hpot run).tracks
  obtain ⟨path, whole, htake, -, hgrow, hwhole⟩ := hsnap.grown
  refine ⟨?_, hsnap.blockHash, path, whole, htake, fun clock htime => hgrow.applyAll htime, hwhole⟩
  have hlt := hsnap.lt
  rw [ht.canonicalChain] at hlt
  rwa [ht.pruned.sameTip.getHeight, Blockchain.getHeight, ht.pruned.whole, Nat.zero_add]

end Node

namespace Sample

/-- The checkpoint that a node stores at block 1000. -/
theorem even_checkpoint : ∃ (n : Node) (state : CheckpointState) (whole : Blockchain),
    n.db.checkpoints.get 1000 = some state ∧ 1000 < n.chain.getHeight ∧
    state.blockHash = (evenBlock 1000).hash ∧
    Blockchain.applyAll plainCore (fun _ => afterEven)
      (Node.freshChain none Node.genesisPotAmount genesis) (evenBlocks 1000) = .ok (some whole) ∧
    state = whole.snapshot := by
  obtain ⟨full, hgrow, heven⟩ := even_grows 1001 (by omega)
  have htimely := evenBlocks_timely (show 1001 ≤ 10000 by omega)
  obtain ⟨n, hrun, ha, -⟩ := Node.archives_of_grows rfl hgrow (fun b hb => (htimely b hb).1)
    (show ∀ b ∈ evenBlocks 1001, b.timestamp ≤ (around afterEven).clock 0 + 120 from
      fun b hb => (htimely b hb).2)
  obtain ⟨state, hstate⟩ := ha.checkpoints 1000
    (by rw [heven.blocks, List.length_cons, length_evenBlocks]; omega) (by omega) (by decide)
  have hchain : n.canonicalChain = genesis :: evenBlocks 1001 :=
    ha.tracks.canonicalChain.trans heven.blocks
  obtain ⟨hlt, hhash, path, whole, htake, hreplay, hwhole⟩ :=
    Node.checkpoint_of_run rfl (by decide) hrun hstate
  have hpath : path = evenBlocks 1000 := by
    rw [hchain, evenBlocks_succ, List.take_succ_cons, List.take_left' (length_evenBlocks 1000),
      List.cons.injEq] at htake
    exact htake.2.symm
  rw [hchain, getElem?_even (by omega), Option.map_some, Option.some.injEq] at hhash
  rw [hpath] at hreplay
  have htimely' := evenBlocks_timely (show 1000 ≤ 10000 by omega)
  exact ⟨n, state, whole, hstate, hlt, hhash.symm,
    hreplay _ fun b hb _ => (htimely' b hb).2, hwhole⟩

end Sample

end Lootcoin
