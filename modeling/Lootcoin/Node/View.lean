import Lootcoin.Node.Canonical

/-! What the search for a fork sees of a whole chain.  A node has the end of it in the window and
the rest in the database, and finds in the two the ancestor of a fork and the work above the
ancestor as in the whole chain, however long the window is. -/

namespace Lootcoin

/-- In blocks numbered from `o` on, those above an index are the last ones. -/
theorem filter_index_eq_drop {l : List Block} {o : ℕ}
    (h : ∀ (i : ℕ) (x : Block), l[i]? = some x → x.index = o + i) (a : ℕ) :
    l.filter (fun x => a < x.index) = l.drop (a + 1 - o) := by
  induction l generalizing o with
  | nil => simp
  | cons y l ih =>
    have hy : y.index = o := h 0 y rfl
    have htail := ih (o := o + 1) fun i x hx => by
      have := h (i + 1) x (by simpa using hx)
      omega
    rw [List.filter_cons, htail, hy]
    by_cases ha : a < o
    · rw [if_pos (by simpa using ha), show a + 1 - o = 0 by omega,
        show a + 1 - (o + 1) = 0 by omega, List.drop_zero, List.drop_zero]
    · rw [if_neg (by simpa using ha), show a + 1 - o = (a + 1 - (o + 1)) + 1 by omega,
        List.drop_succ_cons]

theorem chainSegmentWork_append (l m : List Block) :
    chainSegmentWork (l ++ m) =
      Word.saturatingAdd 128 (chainSegmentWork l) (chainSegmentWork m) := by
  rw [chainSegmentWork, List.map_append, Word.saturatingSum_append]
  rfl

/-- A chain in memory and a database that hold a whole chain: its end, and what lies below. -/
structure Views (core : Core) (full c : Blockchain) (db : Db) : Prop where
  pruned : full.PrunedFrom c
  stored : ∀ i < c.blocksOffset, db.blocks.get i = full.blocks[i]?
  index : ∀ (i : ℕ) (x : Block), full.blocks[i]? = some x → x.index = i
  valid : ∀ x ∈ full.blocks, Blockchain.HashValid core x
  window : c.WindowSound core
  hashed : c.WindowHashed core
  length_le : full.blocks.length ≤ 2 ^ 64

namespace Views

variable {core : Core} {full c : Blockchain} {db : Db} {first : Block} {a : ℕ}

/-- The stored blocks of a range below the window are those of the whole chain. -/
theorem getBlocksRange (h : Views core full c db) {lo n : ℕ} (hn : lo + n ≤ c.blocksOffset) :
    db.getBlocksRange lo n = (full.blocks.take (lo + n)).drop lo := by
  have hlt := h.pruned.offset_lt
  have hle := h.length_le
  have hlen : (full.blocks.take (lo + n)).length = lo + n := by
    rw [List.length_take]
    omega
  rw [Db.getBlocksRange, Word.saturatingAdd_of_lt (by omega),
    OrderedTable.range_eq_drop_take (Nat.le_add_right lo n) hlen.ge fun i hi => ?_, List.take_take,
    Nat.min_self]
  rw [hlen] at hi
  rw [h.stored i (by omega), List.getElem?_take_of_lt hi]

/-- A block of the window has its index in the hash table. -/
theorem lookup_hash (h : Views core full c db) {x : Block} (hx : full.blocks[a]? = some x)
    (ha : c.blocksOffset ≤ a) : c.blockHashes.lookup x.hash = some a := by
  have hwindow : c.blocks[a - c.blocksOffset]? = some x := by
    rw [h.pruned.blocks, List.getElem?_drop, Nat.add_sub_cancel' ha, hx]
  rw [h.hashed.complete _ x hwindow, Nat.add_sub_cancel' ha]

/-- The search finds the ancestor of a fork on the whole chain: in the window, or below the window
at the index before the fork's first. -/
theorem ancestorIndex_eq_some (h : Views core full c db) (hcore : core.CollisionFree) :
    c.ancestorIndex (some db.reader) first = some a ↔
      ∃ x, full.blocks[a]? = some x ∧ x.hash = first.previousHash ∧
        (c.blocksOffset ≤ a ∨ first.index = a + 1) := by
  have hlt := h.pruned.offset_lt
  constructor
  · intro hanc
    rcases Blockchain.ancestorIndex_eq_some hanc with hl | ⟨-, hfirst, hbelow, read, stored, parent,
      hread, hstored, hparent, hhash⟩
    · obtain ⟨ho, x, hx, hxh⟩ := h.window.hashes _ _ hl
      rw [h.pruned.blocks, List.getElem?_drop, Nat.add_sub_cancel' ho] at hx
      exact ⟨x, hx, hxh, .inl ho⟩
    · cases hread
      simp only [Db.reader, Option.some.injEq] at hstored
      rw [h.getBlocksRange (by omega)] at hstored
      refine ⟨parent, ?_, hhash, .inr hfirst⟩
      rw [← hparent, ← hstored, List.head?_drop, List.getElem?_take_of_lt (Nat.lt_succ_self a)]
  · rintro ⟨x, hx, hxh, hwhere⟩
    by_cases ho : c.blocksOffset ≤ a
    · have hl := h.lookup_hash hx ho
      rw [hxh] at hl
      simp only [Blockchain.ancestorIndex, hl]
    · have hfirst := hwhere.resolve_left ho
      have hl : c.blockHashes.lookup first.previousHash = none := by
        by_contra hne
        obtain ⟨i, hi⟩ := Option.ne_none_iff_exists'.mp hne
        obtain ⟨hio, y, hy, hyh⟩ := h.window.hashes _ _ hi
        rw [h.pruned.blocks, List.getElem?_drop, Nat.add_sub_cancel' hio] at hy
        have hyi := h.index i y hy
        have hxi := h.index a x hx
        exact (h.valid y (List.mem_of_getElem? hy)).hash_ne hcore
          (h.valid x (List.mem_of_getElem? hx)) (by omega) (hyh.trans hxh.symm)
      have hread : (some db.reader).bind (fun read => read a 1) = some (db.getBlocksRange a 1) := rfl
      have hhead : (db.getBlocksRange a 1).head? = some x := by
        rw [h.getBlocksRange (by omega), List.head?_drop,
          List.getElem?_take_of_lt (Nat.lt_succ_self a), hx]
      simp only [Blockchain.ancestorIndex, hl, hfirst, Nat.add_sub_cancel, Nat.add_one_ne_zero, ho,
        if_false, hread, Option.bind_some, hhead, hxh, if_true]

/-- The work of the main chain above an ancestor is that of the whole chain. -/
theorem mainWork (h : Views core full c db) (a : ℕ) :
    c.mainWork (some db.reader) a = some (chainSegmentWork (full.blocks.drop (a + 1))) := by
  have hlen := h.pruned.length
  unfold Blockchain.mainWork
  split
  · rename_i ho
    rw [filter_index_eq_drop h.window.index, h.pruned.blocks, List.drop_drop,
      show c.blocksOffset + (a + 1 - c.blocksOffset) = a + 1 by omega]
  · rename_i ho
    simp only [Db.reader, Option.map_some, Option.getD_some, Option.some.injEq]
    rw [h.getBlocksRange (by omega), ← chainSegmentWork_append, h.pruned.blocks,
      show a + 1 + (c.blocksOffset - (a + 1)) = c.blocksOffset by omega,
      ← List.drop_append_of_le_length, List.take_append_drop]
    rw [List.length_take]
    omega

end Views

namespace Node

variable {core : Core} {n : Node} {env : Option ℚ} {pot : ℕ} {genesis : Block} {full : Blockchain}

/-- A node that tracks a whole chain views it. -/
theorem Tracks.views (ht : Tracks core env pot genesis n full) (hcore : core.CollisionFree)
    (hi : genesis.index = 0) (hh : genesis.hash = []) (hn : Sound core n) (hd : Hashed core n) :
    Views core full n.chain n.db where
  pruned := ht.pruned
  stored i hlt := ht.stored i (hlt.trans ht.pruned.offset_lt)
  index i x := ht.index hi
  valid := by
    obtain ⟨rest, hgrow⟩ := ht.grown
    exact (hashed_fresh hi hh).window.grows hcore (windowSound_freshChain hi) hgrow |>.valid
  window := hn.window
  hashed := hd.window
  length_le := ht.length_le

end Node

end Lootcoin
