import Lootcoin.Node.Confirmed

/-! Swapped bodies.  A block that carries the header of another over a different transaction list is
refused at the tip, but the checks of a block standing alone do not read the list.  Where they
refuse it too, or it follows the tip, its delivery leaves no trace.  Where they pass it, it takes
the place of the genuine block in the orphan pool. -/

namespace Lootcoin

/-- Different transaction lists have different commitments. -/
def Core.RootsDiffer (core : Core) : Prop :=
  ∀ {txs txs' : List Transaction} {root : Bytes}, core.computeTxRoot txs = some root →
    core.computeTxRoot txs' = some root → txs = txs'

/-- `p` has the header and the hash of `g` and another transaction list, and the commitment of the
header is to the list of `g`. -/
structure SwappedBody (core : Core) (g p : Block) : Prop where
  header : p.toHeader = g.toHeader
  hash : p.hash = g.hash
  transactions : p.transactions ≠ g.transactions
  committed : core.computeTxRoot g.transactions = some g.txRoot

instance (core : Core) (g p : Block) : Decidable (SwappedBody core g p) :=
  decidable_of_iff (p.toHeader = g.toHeader ∧ p.hash = g.hash ∧ p.transactions ≠ g.transactions ∧
      core.computeTxRoot g.transactions = some g.txRoot)
    ⟨fun h => ⟨h.1, h.2.1, h.2.2.1, h.2.2.2⟩, fun h => ⟨h.1, h.2, h.3, h.4⟩⟩

variable {core : Core} {g p : Block}

/-- No chain appends a swapped body. -/
theorem SwappedBody.refused (h : SwappedBody core g p) (hroots : core.RootsDiffer) (now : ℕ)
    (c : Blockchain) : c.updateState core now p = .ok none := by
  refine Blockchain.updateState_eq_none.mpr (Bool.eq_false_iff.mpr fun hacc => ?_)
  have hbody := (Blockchain.acceptsBlock_iff.mp hacc).2.2.2
  have hroot := (DerivedState.validBody_iff.mp hbody).2.2.2.2.2.1
  rw [show p.txRoot = g.txRoot from congrArg Header.txRoot h.header] at hroot
  exact h.transactions (hroots hroot h.committed)

namespace Node

variable {n n' : Node} {d : Delivery}

/-- A node does not pool a block: the block follows its tip, or fails the checks of a block standing
alone. -/
def KeepsOut (core : Core) (n : Node) (p : Block) : Prop :=
  n.chain.linksToTip p = true ∨ n.chain.validateBlockStandalone core p = false

instance (core : Core) (n : Node) (p : Block) : Decidable (n.KeepsOut core p) :=
  inferInstanceAs (Decidable (_ ∨ _))

/-- A delivery of any other block, or of `p` to a node that does not pool it. -/
def DeliversKeepingOut (core : Core) (p : Block) (n : Node) (d : Delivery) (n' : Node) : Prop :=
  n.Delivers core d n' ∧ (d.block = p → n.KeepsOut core p)

/-- A swapped body that is not pooled changes nothing. -/
theorem eq_of_keepsOut (h : SwappedBody core g p) (hroots : core.RootsDiffer)
    (hstep : n.DeliversKeepingOut core p d n') (hd : d.block = p) : n' = n := by
  obtain ⟨⟨-, outcome, happ⟩, hout⟩ := hstep
  have hno := h.refused hroots (d.ambient.clock 0) n.chain
  have hpool : n.chain.admits core d.ambient p ≠
      some (n.chain.admitOrphan d.ambient.order p) := by
    intro hadm
    obtain ⟨-, hlink, hval, -⟩ := Blockchain.admits_eq_some.mp hadm
    rcases hout hd with hlink' | hval'
    · exact absurd (hlink'.symm.trans hlink) (by decide)
    · exact absurd (hval.symm.trans hval') (by decide)
  rw [hd] at happ
  cases effect_of_applyBlock happ with
  | applied hup =>
    rw [hno] at hup
    cases hup
  | rejected _ _ heq => exact heq
  | orphaned hadm => exact absurd hadm hpool
  | reorged hre => exact absurd hre.admits hpool

theorem delivers_unique {m m' : Node} (h : n.Delivers core d m) (h' : n.Delivers core d m') :
    m = m' := by
  obtain ⟨-, outcome, happ⟩ := h
  obtain ⟨-, outcome', happ'⟩ := h'
  exact (Prod.mk.inj (Except.ok.inj (happ.symm.trans happ'))).2

/-- Deliveries of a swapped body that no node pools can be left out: without them, the same other
deliveries lead from any node to the same node, and to no other. -/
theorem run_without_swapped (h : SwappedBody core g p) (hroots : core.RootsDiffer)
    {es : List Delivery} (run : Runs.Run (DeliversKeepingOut core p) n es n') (m : Node) :
    Runs.Run (Delivers core) n (es.filter fun d => d.block ≠ p) m ↔ m = n' := by
  have hwithout : Runs.Run (Delivers core) n (es.filter fun d => d.block ≠ p) n' := by
    refine (run.filter fun hd hstep => ?_).mono fun hstep => hstep.1
    exact eq_of_keepsOut h hroots hstep (by simpa using hd)
  constructor
  · exact fun hm => hm.unique hwithout delivers_unique
  · rintro rfl
    exact hwithout

end Node

namespace Sample

/-! ### A run with a swapped body -/

/-- The transparent core with commitments to the lists of the run alone, each to its own. -/
def rootedCore : Core :=
  { plainCore with
    computeTxRoot := fun txs =>
      if txs = [] ∨ txs = [payment] then some (littleEndian 8 txs.length) else none }

theorem rootedCore_collisionFree : rootedCore.CollisionFree :=
  ⟨plainCore_collisionFree.injective, plainCore_collisionFree.nonempty⟩

theorem rootedCore_rootsDiffer : rootedCore.RootsDiffer := by
  intro txs txs' root h h'
  simp only [rootedCore, Option.ite_none_right_eq_some, Option.some.injEq] at h h'
  obtain ⟨hmem, hroot⟩ := h
  obtain ⟨hmem', hroot'⟩ := h'
  have hlength : littleEndian 8 txs.length = littleEndian 8 txs'.length := hroot.trans hroot'.symm
  rcases hmem with rfl | rfl <;> rcases hmem' with rfl | rfl
  · rfl
  · exact absurd hlength (by decide)
  · exact absurd hlength (by decide)
  · rfl

/-- The rival block with a payment in its body, which its header does not commit to. -/
def swappedBlock : Block := { rivalBlock with transactions := [payment] }

/-- A child of the rival with more work than its first child. -/
def richChild : Block := block 2 rivalBlock.hash 1748000122 34

theorem swappedBlock_swapped : SwappedBody rootedCore rivalBlock swappedBlock := by
  decide +kernel

/-- The rival and its child, then a block in between, and then the child with more work. -/
def childrenAround (between : List Block) : List Node.Delivery :=
  ([rivalBlock, rivalChild] ++ between ++ [richChild]).map fun b => ⟨b, around 1748000160⟩

/-- Blocks of a run that fit, with the canonical chain that they lead to. -/
theorem run_of_canonicalChain (c : Core) (ds : List Node.Delivery) (chain : List Block)
    (hfits : ∀ d ∈ ds, d.block.Fits)
    (h : (Node.applyBlocks c node ds).toOption.map (fun r => r.2.canonicalChain) = some chain) :
    ∃ n, Runs.Run (Node.Delivers c) node ds n ∧ n.canonicalChain = chain := by
  obtain ⟨⟨outcomes, n⟩, happ, hchain⟩ := Fallible.exists_of_toOption_map h
  exact ⟨n, Node.run_of_applyBlocks hfits happ, hchain⟩

/-- A swapped body that comes before the genuine block follows the tip and changes nothing. -/
theorem swappedBlock_first : ∃ n, n.canonicalChain = [genesis, rivalBlock] ∧
    ∀ m, Runs.Run (Node.Delivers rootedCore) node
      (([swappedBlock, rivalBlock].map fun b => (⟨b, around 1748000160⟩ : Node.Delivery)).filter
        fun d => d.block ≠ swappedBlock) m ↔ m = n := by
  obtain ⟨n, hrun, hchain⟩ := run_of_canonicalChain rootedCore
    ([swappedBlock, rivalBlock].map fun b => ⟨b, around 1748000160⟩) [genesis, rivalBlock]
    (by decide +kernel) (by decide +kernel)
  cases hrun with
  | cons hfirst hrest =>
    cases hrest with
    | cons hsecond hnil =>
      cases hnil
      have hkept : Runs.Run (Node.DeliversKeepingOut rootedCore swappedBlock) node
          ([swappedBlock, rivalBlock].map fun b => ⟨b, around 1748000160⟩) n :=
        .cons ⟨hfirst, fun _ => by decide +kernel⟩
          (.cons ⟨hsecond, fun heq => absurd heq (by decide +kernel)⟩ (.nil _))
      exact ⟨n, hchain,
        Node.run_without_swapped swappedBlock_swapped rootedCore_rootsDiffer hkept⟩

/-- While the child is the tip, the swapped body is delivered at the height where its own header
stands, and is pooled.  A rival child then leads the node to replay the swapped body, which ends the
replay at the genesis block. -/
theorem swappedBlock_undoes_rival : ∃ n n' : Node,
    Runs.Run (Node.Delivers rootedCore) node (childrenAround []) n ∧
    Runs.Run (Node.Delivers rootedCore) node (childrenAround [swappedBlock]) n' ∧
    SwappedBody rootedCore rivalBlock swappedBlock ∧ rootedCore.RootsDiffer ∧
    rootedCore.CollisionFree ∧
    n.canonicalChain = [genesis, rivalBlock, richChild] ∧ n'.canonicalChain = [genesis] := by
  obtain ⟨n, hrun, hchain⟩ := run_of_canonicalChain rootedCore (childrenAround [])
    [genesis, rivalBlock, richChild] (by decide +kernel) (by decide +kernel)
  obtain ⟨n', hrun', hchain'⟩ := run_of_canonicalChain rootedCore
    (childrenAround [swappedBlock]) [genesis] (by decide +kernel) (by decide +kernel)
  exact ⟨n, n', hrun, hrun', swappedBlock_swapped, rootedCore_rootsDiffer, rootedCore_collisionFree,
    hchain, hchain'⟩

end Sample

end Lootcoin
