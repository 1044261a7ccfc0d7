import Lootcoin.Node.Confirmed

/-! A delivery as a change of branch.  The canonical chain before and after it share a stem.  On the
stem grow the displaced blocks of the chain before, and the new blocks of the chain after: the block
itself, a fork, or none. -/

namespace Lootcoin

namespace Node

variable {core : Core} {ambient : Ambient} {n n' : Node} {b : Block} {outcome : BlockOutcome}
  {env : Option ℚ} {pot : ℕ} {genesis : Block} {full full' : Blockchain}

/-- The blocks that a delivery makes canonical: the block itself if the rules accept it, or else the
fork that the node switches to. -/
def newBlocks (core : Core) (n : Node) (d : Delivery) : List Block :=
  if n.chain.acceptsBlock core (d.ambient.clock 0) d.block then [d.block]
  else
    match n.chain.chosenFork core d.ambient d.block (some n.db.reader) with
    | some (fork, _) => fork
    | none => []

/-- The blocks that stay canonical: all, or those up to the ancestor of the fork. -/
def keptBlocks (core : Core) (n : Node) (d : Delivery) : List Block :=
  if n.chain.acceptsBlock core (d.ambient.clock 0) d.block then n.canonicalChain
  else
    match n.chain.chosenFork core d.ambient d.block (some n.db.reader) with
    | some (_, ancestor) => n.canonicalChain.take (ancestor + 1)
    | none => n.canonicalChain

/-- The blocks that a delivery displaces by name. -/
def displacedBlocks : BlockOutcome → List Block
  | .reorged oldBlocks _ => oldBlocks
  | .applied | .orphaned | .rejected => []

/-- Two chains that grow from one base: the stem leads to the base, and from there the displaced
blocks lead to the one chain and the new blocks to the other. -/
structure Branches (core : Core) (env : Option ℚ) (pot : ℕ) (genesis : Block)
    (stem displaced new : List Block) (base full full' : Blockchain) : Prop where
  stem : Blockchain.Grows core (freshChain env pot genesis) stem base
  displaced : Blockchain.Grows core base displaced full
  new : Blockchain.Grows core base new full'

/-- Whole chains of which the second begins as the first does, up to some block, are branches. -/
theorem Tracks.branches_of_take (ht : Tracks core env pot genesis n full)
    (ht' : Tracks core env pot genesis n' full') {rest new : List Block} {k : ℕ}
    (hfull : full.blocks = genesis :: rest)
    (hfull' : full'.blocks = genesis :: (rest.take k ++ new)) :
    ∃ base, Branches core env pot genesis (rest.take k) (rest.drop k) new base full full' := by
  obtain ⟨before, hbefore, hgrow⟩ := ht.blocks
  obtain ⟨after, hafter, hgrow'⟩ := ht'.blocks
  cases hfull.symm.trans hbefore
  cases hfull'.symm.trans hafter
  rw [← List.take_append_drop k rest] at hgrow
  obtain ⟨base, hstem, hdisplaced⟩ := hgrow.split
  obtain ⟨base', hstem', hnew⟩ := hgrow'.split
  obtain rfl := Blockchain.Grows.unique hstem hstem'
  exact ⟨base, hstem, hdisplaced, hnew⟩

theorem keptBlocks_of_none (hacc : n.chain.acceptsBlock core (ambient.clock 0) b = false)
    (hfork : n.chain.chosenFork core ambient b (some n.db.reader) = none) :
    n.newBlocks core ⟨b, ambient⟩ = [] ∧ n.keptBlocks core ⟨b, ambient⟩ = n.canonicalChain := by
  simp [newBlocks, keptBlocks, hacc, hfork]

/-- What a splice displaces by name lies above the ancestor of the fork. -/
theorem Tracks.displaced_subset (ht : Tracks core env pot genesis n full)
    {rest old fork new : List Block} {ancestor : ℕ} (hrest : full.blocks = genesis :: rest)
    (hsplice : n.chain.splice fork ancestor = .ok (new, old)) : old ⊆ rest.drop ancestor := by
  rcases Blockchain.splice_eq_ok.mp hsplice with ⟨ho, -, -, hold⟩ | ⟨-, -, rfl⟩
  · rw [hold, ht.pruned.blocks, hrest, List.drop_drop,
      show n.chain.blocksOffset + (ancestor - n.chain.blocksOffset + 1) = ancestor + 1 by omega,
      List.drop_succ_cons]
    exact List.Subset.refl _
  · exact List.nil_subset _

/-- A delivery whose fork replays completely is a change of branch.  What it displaces by name is on
the branch that it leaves. -/
theorem Tracks.branches (ht : Tracks core env pot genesis n full) (hn : Sound core n)
    (hi : genesis.index = 0) (hpot : pot < 2 ^ 64) (hfits : b.Fits)
    (h : Effect core ambient n b n' outcome)
    (hrep : n.chain.ForkReplays core ambient b (some n.db.reader)) :
    ∃ full' stem displaced base, Tracks core env pot genesis n' full' ∧
      n.keptBlocks core ⟨b, ambient⟩ = genesis :: stem ∧
      n.newBlocks core ⟨b, ambient⟩ = writtenBlocks b outcome ∧
      Branches core env pot genesis stem displaced (writtenBlocks b outcome) base full full' ∧
      displacedBlocks outcome ⊆ displaced := by
  obtain ⟨rest, hrest, -⟩ := ht.blocks
  have hcanonical : n.canonicalChain = genesis :: rest := ht.canonicalChain.trans hrest
  have hall : rest.take rest.length = rest := List.take_length
  have hsame : full.blocks = genesis :: (rest.take rest.length ++ []) := by
    rw [hrest, hall, List.append_nil]
  cases h with
  | @applied chain payouts hup hchain hblocks =>
    obtain ⟨full', hfull, -, ht'⟩ := ht.applied hfits hup hchain hblocks
    have hacc := (Blockchain.updateState_eq_some.mp hup).1
    obtain ⟨base, hbranch⟩ := ht.branches_of_take ht' hrest
      (show full'.blocks = genesis :: (rest.take rest.length ++ [b]) by
        rw [hfull, hrest, hall, List.cons_append])
    refine ⟨full', _, _, base, ht', ?_, ?_, hbranch, List.nil_subset _⟩
    · rw [keptBlocks, if_pos hacc, hcanonical, hall]
    · rw [newBlocks, if_pos hacc]
      rfl
  | rejected hup hcause heq =>
    subst heq
    obtain ⟨hnew, hkept⟩ := keptBlocks_of_none (Blockchain.updateState_eq_none.mp hup)
      (Blockchain.chosenFork_of_rejected hup hcause)
    obtain ⟨base, hbranch⟩ := ht.branches_of_take ht hrest hsame
    exact ⟨full, _, _, base, ht, by rw [hkept, hcanonical, hall], hnew, hbranch,
      List.nil_subset _⟩
  | orphaned hadm hfind heq =>
    subst heq
    have ht' := ht.orphaned hfits (.orphaned hadm hfind rfl)
    obtain ⟨hnew, hkept⟩ := keptBlocks_of_none
      (Blockchain.updateState_eq_none.mp (Blockchain.admits_eq_some.mp hadm).1)
      (Blockchain.chosenFork_of_orphaned hadm hfind)
    obtain ⟨base, hbranch⟩ := ht.branches_of_take ht' hrest hsame
    exact ⟨full, _, _, base, ht', by rw [hkept, hcanonical, hall], hnew, hbranch,
      List.nil_subset _⟩
  | @reorged old fork new ancestor chain payouts hre hchain hblocks =>
    obtain ⟨full', hfull, ht'⟩ := ht.reorged hn hi hpot hfits hre hchain hblocks hrep
    have hacc : ¬ n.chain.acceptsBlock core (ambient.clock 0) b = true := by
      rw [Blockchain.updateState_eq_none.mp (Blockchain.admits_eq_some.mp hre.admits).1]
      decide
    obtain ⟨base, hbranch⟩ := ht.branches_of_take ht' hrest
      (show full'.blocks = genesis :: (rest.take ancestor ++ fork) by
        rw [hfull.blocks, hrest, List.take_succ_cons, List.cons_append])
    refine ⟨full', _, _, base, ht', ?_, ?_, hbranch, ?_⟩
    · rw [keptBlocks, if_neg hacc]
      simp only [hre.chosenFork, hcanonical, List.take_succ_cons]
    · rw [newBlocks, if_neg hacc]
      simp only [hre.chosenFork]
      rfl
    · exact ht.displaced_subset hrest hre.splice

end Node

end Lootcoin
