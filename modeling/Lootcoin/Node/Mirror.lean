import Lootcoin.Node.Canonical

/-! Nodes that store their canonical chain and nothing else: the table of blocks holds the whole
chain at its indices, so a start of the node loads that chain. -/

namespace Lootcoin

namespace Node

variable {core : Core} {n n' : Node} {b : Block} {env : Option ℚ} {pot : ℕ} {genesis : Block}
  {full : Blockchain}

/-- The stored blocks are those of a whole chain, at their indices, and no others. -/
def Mirrors (n : Node) (full : Blockchain) : Prop := ∀ i, n.db.blocks.get i = full.blocks[i]?

/-- The chain that a start of the node would load is the canonical chain, numbered from zero to
below the height. -/
structure StoresCanonical (n : Node) : Prop where
  loaded : n.db.loadCanonicalChain = n.canonicalChain
  indices : (n.db.loadCanonicalChain.map fun b => b.index) = List.range n.chain.getHeight

/-- A table that holds a list at its positions and nothing else has that list as its values. -/
theorem Mirrors.loadCanonicalChain (hm : n.Mirrors full) :
    n.db.loadCanonicalChain = full.blocks := by
  have hall := OrderedTable.rangeFrom_eq_drop hm 0
  rw [← List.drop_zero (l := full.blocks), ← hall]
  simp [Db.loadCanonicalChain, OrderedTable.values, OrderedTable.rangeFrom]

theorem Tracks.getHeight (ht : Tracks core env pot genesis n full) :
    n.chain.getHeight = full.blocks.length :=
  ht.pruned.length

/-- The stored chain is the canonical chain exactly when nothing else is stored. -/
theorem Tracks.mirrors_iff (ht : Tracks core env pot genesis n full) (hi : genesis.index = 0) :
    n.Mirrors full ↔ n.StoresCanonical := by
  constructor
  · intro hm
    have hload := hm.loadCanonicalChain
    refine ⟨hload.trans ht.canonicalChain.symm, ?_⟩
    rw [hload, ht.getHeight]
    apply List.ext_getElem?
    intro i
    rw [List.getElem?_map]
    by_cases hlt : i < full.blocks.length
    · have hx := List.getElem?_eq_getElem hlt
      rw [hx, Option.map_some, ht.index hi hx, List.getElem?_range hlt]
    · rw [List.getElem?_eq_none (Nat.not_lt.mp hlt), List.getElem?_eq_none (by simpa using hlt)]
      rfl
  · intro hs
    exact OrderedTable.get_of_values (hs.loaded.trans ht.canonicalChain) ht.stored

theorem Mirrors.applied (hm : n.Mirrors full) {full' : Blockchain}
    (hfull : full'.blocks = full.blocks ++ [b]) (hindex : b.index = full.blocks.length)
    (hblocks : n'.db.blocks = n.db.blocks.insert b.index b) : n'.Mirrors full' := by
  intro i
  rw [hblocks, hfull]
  by_cases hib : i = b.index
  · rw [hib, OrderedTable.get_insert, hindex, List.getElem?_concat_length]
  · rw [OrderedTable.get_insert_ne _ _ hib, hm i, List.getElem?_append]
    split
    · rfl
    · rw [List.getElem?_eq_none (by omega), List.getElem?_eq_none (by simp; omega)]

theorem mirrors_fresh (hi : genesis.index = 0) :
    (fresh env pot genesis).Mirrors (freshChain env pot genesis) := by
  intro i
  by_cases hz : i = 0
  · have hstored : (fresh env pot genesis).db.blocks.get genesis.index = some genesis :=
      OrderedTable.get_insert _ _ _
    rw [hz, ← hi, hstored, hi]
    rfl
  · rw [List.getElem?_eq_none (show 1 ≤ i by omega)]
    by_contra hne
    obtain ⟨x, hx⟩ := Option.ne_none_iff_exists'.mp hne
    exact hz ((get_fresh hx).1.trans hi)

end Node

end Lootcoin
