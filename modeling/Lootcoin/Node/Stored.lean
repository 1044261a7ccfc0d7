import Lootcoin.Node.Canonical

/-! What a delivery writes to the table of blocks.  An append stores the block that `updateState`
has accepted, but a reorganization stores the fork as it was announced, whatever its replay did.
Where every fork replays completely, only accepted blocks are stored, and the genesis block is
never overwritten. -/

namespace Lootcoin

namespace Blockchain

/-- The blocks that `updateState` accepts in a call, in order: the block itself, or those that the
replay of a chosen fork appends. -/
def acceptedBlocks (core : Core) (ambient : Ambient) (c : Blockchain) (b : Block)
    (db : Option BlockReader) : List Block :=
  match c.updateState core (ambient.clock 0) b with
  | .ok (some _) => [b]
  | _ =>
    match c.chosenFork core ambient b db with
    | none => []
    | some (fork, ancestor) =>
      match (c.chainUpTo db ancestor).map fun stem => stem ++ fork with
      | some (g :: rest) => acceptedBy core (laterReadings ambient.clock) (c.reset g) rest
      | _ => []

end Blockchain

namespace Node

variable {core : Core} {ambient : Ambient} {n n' : Node} {b : Block} {outcome : BlockOutcome}
  {env : Option ℚ} {pot : ℕ} {genesis : Block} {full : Blockchain}

/-- What a delivery writes it has accepted as the canonical block at that index, what it does not
write was stored before, and the genesis block stays. -/
structure StoresAccepted (core : Core) (genesis : Block) (n : Node) (d : Delivery) (n' : Node) :
    Prop where
  written : ∃ outcome, n.applyBlock core d.ambient d.block = .ok (outcome, n') ∧
    (∀ x ∈ writtenBlocks d.block outcome, x.index ≠ 0 ∧
      x ∈ n.chain.acceptedBlocks core d.ambient d.block (some n.db.reader) ∧
      n'.canonicalChain[x.index]? = some x) ∧
    ∀ i x, n'.db.blocks.get i = some x →
      n.db.blocks.get i = some x ∨ (x ∈ writtenBlocks d.block outcome ∧ x.index = i)
  genesis : n'.db.blocks.get 0 = some genesis

/-- A block that the table holds after a delivery was there before or was written. -/
theorem get_of_effect (h : Effect core ambient n b n' outcome) {i : ℕ} {x : Block}
    (hx : n'.db.blocks.get i = some x) :
    n.db.blocks.get i = some x ∨ (x ∈ writtenBlocks b outcome ∧ x.index = i) := by
  cases h with
  | applied _ _ hblocks =>
    rw [hblocks] at hx
    by_cases hi : i = b.index
    · rw [hi, OrderedTable.get_insert, Option.some.injEq] at hx
      exact .inr ⟨by simp [writtenBlocks, hx], by rw [← hx, hi]⟩
    · rw [OrderedTable.get_insert_ne _ _ hi] at hx
      exact .inl hx
  | rejected _ _ heq => exact .inl (heq ▸ hx)
  | orphaned _ _ heq => exact .inl (by rw [heq] at hx; exact hx)
  | @reorged old fork new ancestor chain payouts _ _ hblocks =>
    rw [hblocks] at hx
    rcases get_foldl_insert fork (old.foldl (fun t b => t.remove b.index) n.db.blocks) i with
      ⟨y, hy, hyi, hget⟩ | ⟨-, hget⟩
    · cases hx.symm.trans hget
      exact .inr ⟨hy, hyi⟩
    · rw [hget, get_foldl_remove] at hx
      split at hx
      · cases hx
      · exact .inl hx

/-- A delivery that leaves the canonical chain as it is has accepted nothing. -/
theorem acceptedBlocks_eq_nil (h : Effect core ambient n b n' outcome)
    (ho : outcome = .orphaned ∨ outcome = .rejected) :
    n.chain.acceptedBlocks core ambient b (some n.db.reader) = [] := by
  have hnone : ∀ {db : Option BlockReader},
      n.chain.updateState core (ambient.clock 0) b = .ok none →
      n.chain.chosenFork core ambient b db = none → n.chain.acceptedBlocks core ambient b db = [] :=
    fun hup hfork => by simp [Blockchain.acceptedBlocks, hup, hfork]
  cases h with
  | applied => rcases ho with ho | ho <;> cases ho
  | reorged => rcases ho with ho | ho <;> cases ho
  | rejected hup hcause _ => exact hnone hup (Blockchain.chosenFork_of_rejected hup hcause)
  | orphaned hadm hfind _ =>
    exact hnone (Blockchain.admits_eq_some.mp hadm).1 (Blockchain.chosenFork_of_orphaned hadm hfind)

/-- In a replay that is complete, the blocks of the stem are accepted again, and then the fork. -/
theorem Tracks.acceptedBlocks_eq (ht : Tracks core env pot genesis n full)
    {old fork new : List Block} {ancestor : ℕ} {chain : Blockchain}
    (hre : n.chain.Reorganizes core ambient b (some n.db.reader) old fork chain ancestor new)
    (hrep : n.chain.ForkReplays core ambient b (some n.db.reader)) :
    n.chain.acceptedBlocks core ambient b (some n.db.reader) =
      full.blocks.tail.take ancestor ++ fork := by
  obtain ⟨hno, -, -, -⟩ := Blockchain.admits_eq_some.mp hre.admits
  obtain ⟨stem, hstem, g, rest, d, htarget, happ⟩ := hrep fork ancestor hre.chosenFork
  obtain ⟨hreplay, hblocks⟩ := Blockchain.replay_complete_iff.mp happ
  have haccepted : n.chain.acceptedBlocks core ambient b (some n.db.reader) = rest := by
    simp only [Blockchain.acceptedBlocks, hno, hre.chosenFork, hstem, Option.map_some, htarget]
    exact List.append_cancel_left ((Blockchain.replay_blocks hreplay).symm.trans hblocks)
  -- the fork follows the ancestor, so its blocks come after the first block of the chain
  rw [ht.chainUpTo (ht.ancestor_lt hre.splice), Option.some.injEq] at hstem
  obtain ⟨before, hbefore, -⟩ := ht.blocks
  rw [← hstem, hbefore, List.take_succ_cons, List.cons_append, List.cons.injEq] at htarget
  rw [haccepted, ← htarget.2, hbefore, List.tail_cons]

/-- In a run whose forks replay completely, every delivery stores only blocks that it has accepted,
at the indices where they are canonical, and keeps the genesis block. -/
theorem storesAccepted_of_run (hi : genesis.index = 0) (hpot : pot < 2 ^ 64) {ds : List Delivery}
    {d : Delivery} (run : Runs.Run (DeliversCompletely core) (fresh env pot genesis) ds n)
    (step : DeliversCompletely core n d n') : StoresAccepted core genesis n d n' := by
  obtain ⟨hn, full, ht⟩ := consistent_of_run hi hpot run
  obtain ⟨⟨hfits, outcome, happ⟩, hrep⟩ := step
  have heff := effect_of_applyBlock happ
  obtain ⟨full', ht', -, hwritten⟩ := ht.step hn hi hpot hfits heff hrep
  obtain ⟨rest, hrest, -⟩ := ht'.blocks
  refine ⟨⟨outcome, happ, fun x hx => ?_, fun i x hx => get_of_effect heff hx⟩, ?_⟩
  · obtain ⟨i, hx'⟩ := List.mem_iff_getElem?.mp (hwritten x hx)
    rw [List.getElem?_tail] at hx'
    have hxi := ht'.index hi hx'
    refine ⟨by omega, ?_, by rw [ht'.canonicalChain, hxi, hx']⟩
    cases heff with
    | applied hup _ _ =>
      simp only [writtenBlocks, List.mem_singleton] at hx
      simp [Blockchain.acceptedBlocks, hup, hx]
    | rejected => simp [writtenBlocks] at hx
    | orphaned => simp [writtenBlocks] at hx
    | reorged hre _ _ =>
      rw [ht.acceptedBlocks_eq hre hrep]
      exact List.mem_append_right _ hx
  · rw [ht'.stored 0 (by rw [hrest]; exact Nat.succ_pos _), hrest]
    rfl

end Node

namespace Sample

theorem rival_storesAccepted : ∃ n n' : Node, n'.canonicalChain = [genesis, rivalBlock, rivalChild] ∧
    Node.StoresAccepted plainCore genesis n ⟨rivalChild, around 1748000160⟩ n' := by
  have hrun : (runCompletely node [⟨mainBlock, around 1748000160⟩,
      ⟨rivalBlock, around 1748000160⟩]).map (fun n =>
        (runCompletely n [⟨rivalChild, around 1748000160⟩]).map Node.canonicalChain) =
      some (some [genesis, rivalBlock, rivalChild]) := by
    decide +kernel
  obtain ⟨n, hn, hobs⟩ := Option.map_eq_some_iff.mp hrun
  obtain ⟨n', hn', hchain⟩ := Option.map_eq_some_iff.mp hobs
  obtain _ | ⟨hstep, hrest⟩ := run_of_runCompletely hn'
  cases hrest
  have hrun : Runs.Run (Node.DeliversCompletely plainCore)
      (Node.fresh none Node.genesisPotAmount genesis) _ n := run_of_runCompletely hn
  exact ⟨n, n', hchain, Node.storesAccepted_of_run rfl (by decide) hrun hstep⟩

/-- A block that claims index zero and names the genesis block as its predecessor. -/
def zeroBlock : Block := block 0 [] 1748000060 32

theorem zeroBlock_overwrites_genesis : ∃ n', Node.Delivers plainCore node
      ⟨zeroBlock, around 1748000060⟩ n' ∧
    node.chain.acceptedBlocks plainCore (around 1748000060) zeroBlock (some node.db.reader) = [] ∧
    n'.db.blocks.get 0 = some zeroBlock ∧
    ¬ Node.StoresAccepted plainCore genesis node ⟨zeroBlock, around 1748000060⟩ n' := by
  have hcall : (node.applyBlock plainCore (around 1748000060) zeroBlock).toOption.map
      (fun r => r.2.db.blocks.get 0) = some (some zeroBlock) := by
    decide +kernel
  obtain ⟨⟨outcome, n'⟩, happ, hget⟩ := Fallible.exists_of_toOption_map hcall
  refine ⟨n', ⟨by decide, outcome, happ⟩, by decide +kernel, hget, fun h => ?_⟩
  have hgenesis : some zeroBlock = some genesis := hget.symm.trans h.genesis
  exact absurd hgenesis (by decide +kernel)

end Sample

end Lootcoin
