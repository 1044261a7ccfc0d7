import Lootcoin.Chain.Apply

/-! The window of recent blocks: its blocks are numbered and linked, the hash table and the orphan
pool say what they should of blocks, and a pruned window shows every rule of `updateState` what the
whole chain would. -/

namespace Lootcoin

namespace Blockchain

/-! ### Soundness -/

/-- The window is numbered from its offset and linked by hashes, the hash table leads to blocks of
the window, the orphan pool holds blocks under their hashes, and the anchor is block 1. -/
structure WindowSound (core : Core) (c : Blockchain) : Prop where
  nonempty : c.blocks ≠ []
  index : ∀ i b, c.blocks[i]? = some b → b.index = c.blocksOffset + i
  linked : ∀ i b b', c.blocks[i]? = some b → c.blocks[i + 1]? = some b' → b'.previousHash = b.hash
  hashes : ∀ h i, c.blockHashes.lookup h = some i →
    c.blocksOffset ≤ i ∧ ∃ b, c.blocks[i - c.blocksOffset]? = some b ∧ b.hash = h
  pool : ∀ h b, c.orphanPool.lookup h = some b →
    b.hash = h ∧ core.calculateHash b.toHeader = some b.hash
  anchor : ∀ a, c.asertAnchor = some a → a.height = 1

/-- A sound window, whatever the anchor is. -/
structure WindowLinked (core : Core) (c : Blockchain) : Prop where
  nonempty : c.blocks ≠ []
  index : ∀ i b, c.blocks[i]? = some b → b.index = c.blocksOffset + i
  linked : ∀ i b b', c.blocks[i]? = some b → c.blocks[i + 1]? = some b' → b'.previousHash = b.hash
  hashes : ∀ h i, c.blockHashes.lookup h = some i →
    c.blocksOffset ≤ i ∧ ∃ b, c.blocks[i - c.blocksOffset]? = some b ∧ b.hash = h
  pool : ∀ h b, c.orphanPool.lookup h = some b →
    b.hash = h ∧ core.calculateHash b.toHeader = some b.hash

/-- The window is not empty, and it is numbered from its offset. -/
structure Contiguous (c : Blockchain) : Prop where
  nonempty : c.blocks ≠ []
  index : ∀ i b, c.blocks[i]? = some b → b.index = c.blocksOffset + i

/-- The hash of a block is its header's, or the block is a genesis block, which has none. -/
def HashValid (core : Core) (b : Block) : Prop :=
  core.calculateHash b.toHeader = some b.hash ∨ (b.index = 0 ∧ b.hash = [])

/-- The blocks of the window are hashed as they should be, and the hash table has them all. -/
structure WindowHashed (core : Core) (c : Blockchain) : Prop where
  valid : ∀ b ∈ c.blocks, HashValid core b
  complete : ∀ i b, c.blocks[i]? = some b →
    c.blockHashes.lookup b.hash = some (c.blocksOffset + i)

/-- The blocks of the window are hashed as they should be, and the hash table has them all but the
one at an index, if any. -/
structure WindowHashedApart (core : Core) (apart : Option ℕ) (c : Blockchain) : Prop where
  valid : ∀ b ∈ c.blocks, HashValid core b
  complete : ∀ i b, c.blocks[i]? = some b → apart ≠ some (c.blocksOffset + i) →
    c.blockHashes.lookup b.hash = some (c.blocksOffset + i)
  absent : ∀ h i, c.blockHashes.lookup h = some i → apart ≠ some i
  below : ∀ i, apart = some i → i < c.getHeight

section

variable {core : Core} {c c' : Blockchain} {b : Block} {apart : Option ℕ}

theorem WindowSound.windowLinked (hc : WindowSound core c) : WindowLinked core c :=
  ⟨hc.nonempty, hc.index, hc.linked, hc.hashes, hc.pool⟩

theorem WindowHashed.hashedApart (hc : WindowHashed core c) : WindowHashedApart core none c :=
  ⟨hc.valid, fun i b hb _ => hc.complete i b hb, nofun, nofun⟩

theorem WindowHashedApart.windowHashed (hc : WindowHashedApart core none c) :
    WindowHashed core c :=
  ⟨hc.valid, fun i b hb => hc.complete i b hb nofun⟩

/-- Blocks at different indices have different hashes. -/
theorem HashValid.hash_ne (hcore : core.CollisionFree) {b b' : Block} (h : HashValid core b)
    (h' : HashValid core b') (hne : b.index ≠ b'.index) : b.hash ≠ b'.hash := by
  intro heq
  rcases h with h | ⟨hi, he⟩ <;> rcases h' with h' | ⟨hi', he'⟩
  · exact hne (congrArg Header.index (hcore.injective h (heq ▸ h')))
  · exact hcore.nonempty h (heq.trans he')
  · exact hcore.nonempty h' (heq.symm.trans he)
  · exact hne (hi.trans hi'.symm)

theorem getElem?_snoc {l : List Block} {x y : Block} {i : ℕ} (h : (l ++ [x])[i]? = some y) :
    l[i]? = some y ∨ (i = l.length ∧ x = y) := by
  rw [List.getElem?_append] at h
  split at h
  · exact .inl h
  · rename_i hi
    rw [List.getElem?_singleton] at h
    split at h
    · exact .inr ⟨by omega, Option.some.inj h⟩
    · cases h

theorem Contiguous.append (hc : c.Contiguous) (ha : Appended core c b c') : c'.Contiguous where
  nonempty := by simp [ha.blocks]
  index := by
    intro i x hx
    rw [ha.blocks] at hx
    rw [ha.blocksOffset]
    rcases getElem?_snoc hx with hx | ⟨rfl, rfl⟩
    · exact hc.index i x hx
    · exact ha.index

theorem Contiguous.grows {bs : List Block} (hc : c.Contiguous) (h : Grows core c bs c') :
    c'.Contiguous :=
  h.invariant (fun hs hd => hd.append hs.appended) hc

theorem Contiguous.withPayouts (hc : c.Contiguous) (payouts : HashTable ℕ (List Payout)) :
    ({ c with settledPayoutsByBlock := payouts } : Blockchain).Contiguous :=
  ⟨hc.nonempty, hc.index⟩

theorem contiguous_reset {g : Block} (hg : g.index = 0) : (c.reset g).Contiguous where
  nonempty := List.cons_ne_nil _ _
  index := by
    intro i b hb
    simp only [reset, List.getElem?_singleton] at hb ⊢
    split at hb
    · cases hb
      omega
    · cases hb

/-- The blocks displaced by a reorganization lie above its ancestor. -/
theorem Contiguous.ancestor_lt (hc : c.Contiguous) {fork new old : List Block} {ancestor : ℕ}
    (h : c.splice fork ancestor = .ok (new, old)) : ∀ x ∈ old, ancestor < x.index := by
  intro x hx
  rcases splice_eq_ok.mp h with ⟨hwindow, -, -, rfl⟩ | ⟨-, -, rfl⟩
  · obtain ⟨i, hi⟩ := List.mem_iff_getElem?.mp hx
    rw [List.getElem?_drop] at hi
    have := hc.index _ x hi
    omega
  · cases hx

theorem WindowLinked.contiguous (hc : WindowLinked core c) : c.Contiguous :=
  ⟨hc.nonempty, hc.index⟩

theorem WindowSound.contiguous (hc : WindowSound core c) : c.Contiguous := ⟨hc.nonempty, hc.index⟩

theorem WindowLinked.append (hc : WindowLinked core c) (ha : Appended core c b c') :
    WindowLinked core c' where
  nonempty := (hc.contiguous.append ha).nonempty
  index := (hc.contiguous.append ha).index
  linked := by
    intro i x y hx hy
    rw [ha.blocks] at hx hy
    rcases getElem?_snoc hy with hy | ⟨hi, rfl⟩
    · rcases getElem?_snoc hx with hx | ⟨hi, -⟩
      · exact hc.linked i x y hx hy
      · have := (List.getElem?_eq_some_iff.mp hy).1
        omega
    · rw [List.getElem?_append_left (by omega)] at hx
      rw [ha.previousHash, getLatestHash, List.getLast?_eq_getElem?, ← hi, Nat.add_sub_cancel, hx]
      rfl
  hashes := by
    intro h i hl
    rw [ha.blockHashes] at hl
    rw [ha.blocks, ha.blocksOffset]
    rcases HashTable.lookup_insert_eq_some.mp hl with ⟨rfl, hi⟩ | ⟨-, hl⟩
    · rw [ha.index, getHeight] at hi
      refine ⟨by omega, b, ?_, rfl⟩
      rw [show i - c.blocksOffset = c.blocks.length by omega, List.getElem?_concat_length]
    · obtain ⟨ho, x, hx, hxh⟩ := hc.hashes h i hl
      exact ⟨ho, x, by rw [List.getElem?_append_left (List.getElem?_eq_some_iff.mp hx).1, hx], hxh⟩
  pool := by
    rw [ha.orphanPool]
    exact hc.pool

theorem WindowSound.append (hc : WindowSound core c) (ha : Appended core c b c') :
    WindowSound core c' where
  nonempty := (hc.windowLinked.append ha).nonempty
  index := (hc.windowLinked.append ha).index
  linked := (hc.windowLinked.append ha).linked
  hashes := (hc.windowLinked.append ha).hashes
  pool := (hc.windowLinked.append ha).pool
  anchor := by
    intro a hanchor
    obtain ⟨payouts, hadv⟩ := ha.advance
    rw [DerivedState.advance_asertAnchor hadv] at hanchor
    split at hanchor
    · cases hanchor
      rfl
    · exact hc.anchor a hanchor

theorem WindowHashedApart.append (hc : WindowHashedApart core apart c)
    (hcore : core.CollisionFree) (hs : WindowLinked core c) (ha : Appended core c b c') :
    WindowHashedApart core apart c' where
  valid := by
    intro x hx
    rw [ha.blocks] at hx
    rcases List.mem_append.mp hx with hx | hx
    · exact hc.valid x hx
    · rw [List.mem_singleton.mp hx]
      exact .inl ha.calculateHash
  complete := by
    intro i x hx hapart
    rw [ha.blocks] at hx
    rw [ha.blocksOffset] at hapart ⊢
    rw [ha.blockHashes]
    rcases getElem?_snoc hx with hx | ⟨rfl, rfl⟩
    · have hne : x.hash ≠ b.hash := by
        refine (hc.valid x (List.mem_of_getElem? hx)).hash_ne hcore (.inl ha.calculateHash) ?_
        have hi := hs.index i x hx
        have hlt := (List.getElem?_eq_some_iff.mp hx).1
        have hb := ha.index
        unfold getHeight at hb
        omega
      rw [AList.lookup_insert_ne hne]
      exact hc.complete i x hx hapart
    · rw [AList.lookup_insert, ha.index]
      rfl
  absent := by
    intro h i hl
    rw [ha.blockHashes] at hl
    rcases HashTable.lookup_insert_eq_some.mp hl with ⟨-, rfl⟩ | ⟨-, hl⟩
    · intro hapart
      have := hc.below _ hapart
      have := ha.index
      omega
    · exact hc.absent h i hl
  below := by
    intro i hapart
    rw [ha.getHeight]
    exact Nat.lt_succ_of_lt (hc.below i hapart)

theorem WindowHashed.append (hc : WindowHashed core c) (hcore : core.CollisionFree)
    (hs : WindowSound core c) (ha : Appended core c b c') : WindowHashed core c' :=
  (hc.hashedApart.append hcore hs.windowLinked ha).windowHashed

theorem WindowLinked.grows {bs : List Block} (hc : WindowLinked core c) (h : Grows core c bs c') :
    WindowLinked core c' :=
  h.invariant (fun hs hd => hd.append hs.appended) hc

theorem WindowHashedApart.grows {bs : List Block} (hc : WindowHashedApart core apart c)
    (hcore : core.CollisionFree) (hs : WindowLinked core c) (h : Grows core c bs c') :
    WindowHashedApart core apart c' :=
  (h.invariant (P := fun d => WindowLinked core d ∧ WindowHashedApart core apart d)
    (fun hstep hd => ⟨hd.1.append hstep.appended, hd.2.append hcore hd.1 hstep.appended⟩)
    ⟨hs, hc⟩).2

theorem WindowSound.grows {bs : List Block} (hc : WindowSound core c) (h : Grows core c bs c') :
    WindowSound core c' :=
  h.invariant (fun hs hd => hd.append hs.appended) hc

theorem WindowHashed.grows {bs : List Block} (hc : WindowHashed core c)
    (hcore : core.CollisionFree) (hs : WindowSound core c) (h : Grows core c bs c') :
    WindowHashed core c' :=
  (hc.hashedApart.grows hcore hs.windowLinked h).windowHashed

/-! Pruning -/

theorem foldl_erase_lookup (dropped : List Block) (t : HashTable Bytes ℕ) (h : Bytes) :
    (dropped.foldl (fun t b => t.erase b.hash) t).lookup h =
      if h ∈ dropped.map (fun b => b.hash) then none else t.lookup h := by
  induction dropped generalizing t with
  | nil => simp
  | cons b dropped ih =>
    rw [List.foldl_cons, ih]
    by_cases hd : h ∈ dropped.map fun b => b.hash
    · rw [if_pos hd, if_pos (by rw [List.map_cons]; exact List.mem_cons_of_mem _ hd)]
    · rw [if_neg hd]
      by_cases hb : h = b.hash
      · rw [if_pos (by simp [hb]), hb, AList.lookup_erase]
      · rw [AList.lookup_erase_ne hb, if_neg (by simpa [hb] using hd)]

@[simp] theorem pruneToWindow_toDerivedState (c : Blockchain) :
    c.pruneToWindow.toDerivedState = c.toDerivedState := by
  unfold pruneToWindow
  split <;> rfl

@[simp] theorem pruneToWindow_orphanPool (c : Blockchain) :
    c.pruneToWindow.orphanPool = c.orphanPool := by
  unfold pruneToWindow
  split <;> rfl

@[simp] theorem pruneToWindow_genesisPot (c : Blockchain) :
    c.pruneToWindow.genesisPot = c.genesisPot := by
  unfold pruneToWindow
  split <;> rfl

@[simp] theorem pruneToWindow_initialDifficulty (c : Blockchain) :
    c.pruneToWindow.initialDifficulty = c.initialDifficulty := by
  unfold pruneToWindow
  split <;> rfl

/-- The number of blocks that pruning drops. -/
def excess (c : Blockchain) : ℕ := c.blocks.length - reorgWindow

theorem pruneToWindow_blocks (c : Blockchain) :
    c.pruneToWindow.blocks = c.blocks.drop c.excess := by
  unfold pruneToWindow excess
  split
  · rfl
  · rename_i h
    rw [Nat.sub_eq_zero_of_le (Nat.not_lt.mp h), List.drop_zero]

theorem pruneToWindow_blocksOffset (c : Blockchain) :
    c.pruneToWindow.blocksOffset = c.blocksOffset + c.excess := by
  unfold pruneToWindow excess
  split
  · rfl
  · rename_i h
    rw [Nat.sub_eq_zero_of_le (Nat.not_lt.mp h), Nat.add_zero]

theorem pruneToWindow_blockHashes (c : Blockchain) : c.pruneToWindow.blockHashes =
    (c.blocks.take c.excess).foldl (fun t b => t.erase b.hash) c.blockHashes := by
  unfold pruneToWindow excess
  split
  · rfl
  · rename_i h
    rw [Nat.sub_eq_zero_of_le (Nat.not_lt.mp h), List.take_zero, List.foldl_nil]

theorem excess_lt (hc : c.blocks ≠ []) : c.excess < c.blocks.length := by
  have := List.length_pos_of_ne_nil hc
  unfold excess
  have : 0 < reorgWindow := by decide
  omega

theorem pruneToWindow_getHeight (hc : c.blocks ≠ []) :
    c.pruneToWindow.getHeight = c.getHeight := by
  have := excess_lt hc
  rw [getHeight, getHeight, pruneToWindow_blocks, pruneToWindow_blocksOffset, List.length_drop]
  omega

theorem pruneToWindow_blocks_ne_nil (hc : c.blocks ≠ []) : c.pruneToWindow.blocks ≠ [] := by
  rw [pruneToWindow_blocks, Ne, List.drop_eq_nil_iff, Nat.not_le]
  exact excess_lt hc

theorem Contiguous.prune (hc : c.Contiguous) : c.pruneToWindow.Contiguous where
  nonempty := pruneToWindow_blocks_ne_nil hc.nonempty
  index := by
    intro i b hb
    rw [pruneToWindow_blocks, List.getElem?_drop] at hb
    rw [pruneToWindow_blocksOffset, hc.index _ b hb]
    omega

theorem WindowLinked.prune (hc : WindowLinked core c) : WindowLinked core c.pruneToWindow where
  nonempty := hc.contiguous.prune.nonempty
  index := hc.contiguous.prune.index
  linked := by
    intro i b b' hb hb'
    rw [pruneToWindow_blocks, List.getElem?_drop] at hb hb'
    exact hc.linked _ b b' hb (by rwa [← Nat.add_assoc] at hb')
  hashes := by
    intro h i hl
    rw [pruneToWindow_blockHashes, foldl_erase_lookup] at hl
    split at hl
    · cases hl
    rename_i hkept
    obtain ⟨ho, b, hb, hbh⟩ := hc.hashes h i hl
    -- the block is not among those dropped, whose hashes the table no longer has
    have hge : c.excess ≤ i - c.blocksOffset := by
      by_contra hlt
      refine hkept (List.mem_map.mpr ⟨b, List.mem_iff_getElem?.mpr ⟨i - c.blocksOffset, ?_⟩, hbh⟩)
      rw [List.getElem?_take_of_lt (Nat.not_le.mp hlt), hb]
    rw [pruneToWindow_blocksOffset, pruneToWindow_blocks]
    refine ⟨by omega, b, ?_, hbh⟩
    have hshift : c.excess + (i - (c.blocksOffset + c.excess)) = i - c.blocksOffset := by omega
    rw [List.getElem?_drop, hshift, hb]
  pool := by
    rw [pruneToWindow_orphanPool]
    exact hc.pool

theorem WindowSound.prune (hc : WindowSound core c) : WindowSound core c.pruneToWindow where
  nonempty := hc.windowLinked.prune.nonempty
  index := hc.windowLinked.prune.index
  linked := hc.windowLinked.prune.linked
  hashes := hc.windowLinked.prune.hashes
  pool := hc.windowLinked.prune.pool
  anchor := by
    rw [pruneToWindow_toDerivedState]
    exact hc.anchor

theorem WindowHashedApart.prune (hc : WindowHashedApart core apart c)
    (hcore : core.CollisionFree) (hs : WindowLinked core c) :
    WindowHashedApart core apart c.pruneToWindow where
  valid := by
    intro b hb
    rw [pruneToWindow_blocks] at hb
    exact hc.valid b (List.mem_of_mem_drop hb)
  complete := by
    intro i b hb hapart
    rw [pruneToWindow_blocks, List.getElem?_drop] at hb
    rw [pruneToWindow_blocksOffset, Nat.add_assoc] at hapart
    rw [pruneToWindow_blockHashes, foldl_erase_lookup, if_neg, hc.complete _ b hb hapart,
      pruneToWindow_blocksOffset, Nat.add_assoc]
    intro hmem
    obtain ⟨x, hx, hxh⟩ := List.mem_map.mp hmem
    obtain ⟨j, hj⟩ := List.mem_iff_getElem?.mp hx
    have hlt : j < c.excess := by
      have := (List.getElem?_eq_some_iff.mp hj).1
      rw [List.length_take] at this
      omega
    rw [List.getElem?_take_of_lt hlt] at hj
    have hi := hs.index _ b hb
    have hi' := hs.index _ x hj
    exact (hc.valid x (List.mem_of_getElem? hj)).hash_ne hcore
      (hc.valid b (List.mem_of_getElem? hb)) (by omega) hxh
  absent := by
    intro h i hl
    rw [pruneToWindow_blockHashes, foldl_erase_lookup] at hl
    split at hl
    · cases hl
    · exact hc.absent h i hl
  below := by
    rw [pruneToWindow_getHeight hs.nonempty]
    exact hc.below

/-! Orphans and reorganizations -/

theorem lookup_evictFromFullPool {order : PoolOrder} {pool : HashTable Bytes Block} {h : Bytes}
    {x : Block} (hl : (evictFromFullPool order pool).lookup h = some x) :
    pool.lookup h = some x := by
  unfold evictFromFullPool at hl
  split at hl
  · split at hl
    · exact hl
    · exact (HashTable.lookup_erase_eq_some.mp hl).2
  · exact hl

theorem lookup_evictAtHeight {order : PoolOrder} {pool : HashTable Bytes Block} {index : ℕ}
    {h : Bytes} {x : Block} (hl : (evictAtHeight order pool index).lookup h = some x) :
    pool.lookup h = some x := by
  unfold evictAtHeight at hl
  simp only at hl
  split at hl
  · split at hl
    · exact hl
    · exact (HashTable.lookup_erase_eq_some.mp hl).2
  · exact hl

/-- An admitted block is in the pool, and every other orphan was there before. -/
theorem lookup_admitOrphan {order : PoolOrder} {h : Bytes} {x : Block}
    (hl : (c.admitOrphan order b).orphanPool.lookup h = some x) :
    (h = b.hash ∧ x = b) ∨ c.orphanPool.lookup h = some x := by
  simp only [admitOrphan] at hl
  rcases HashTable.lookup_insert_eq_some.mp hl with hb | ⟨-, hl⟩
  · exact .inl hb
  · exact .inr (lookup_evictFromFullPool (lookup_evictAtHeight hl))

/-- A fork is made of pooled blocks, one of which may be the block at hand. -/
theorem Reorganizes.mem_fork {ambient : Ambient} {db : Option BlockReader}
    {old fork new : List Block} {ancestor : ℕ} {x : Block}
    (h : Reorganizes core ambient c b db old fork c' ancestor new) (hx : x ∈ fork) :
    x = b ∨ ∃ k, c.orphanPool.lookup k = some x := by
  obtain ⟨tip, path, -, htip, hpath, rfl, -⟩ := fork_of_findLongestFork h.found
  obtain ⟨k, hk⟩ : ∃ k, (c.admitOrphan ambient.order b).orphanPool.lookup k = some x := by
    rcases List.mem_append.mp hx with hx | hx
    · exact hpath.mem hx
    · obtain ⟨k, hk, -⟩ := mem_poolTips.mp htip
      exact ⟨k, List.mem_singleton.mp hx ▸ hk⟩
  exact (lookup_admitOrphan hk).imp (fun h => h.2) fun h => ⟨k, h⟩

theorem validateBlockStandalone_iff : c.validateBlockStandalone core b = true ↔
    core.calculateHash b.toHeader = some b.hash ∧
    core.meetsDifficulty b.hash (c.expectedDifficultyFor b) = true ∧
    b.index ≤ c.getHeight + maxOrphanDepth ∧ nonCoinbaseCount b ≤ maxBlockTxs := by
  simp [validateBlockStandalone, and_assoc]

theorem WindowLinked.admitOrphan {order : PoolOrder} (hc : WindowLinked core c)
    (hv : c.validateBlockStandalone core b = true) :
    WindowLinked core (c.admitOrphan order b) where
  nonempty := hc.nonempty
  index := hc.index
  linked := hc.linked
  hashes := hc.hashes
  pool := by
    intro h x hl
    rcases lookup_admitOrphan hl with ⟨rfl, rfl⟩ | hl
    · exact ⟨rfl, (validateBlockStandalone_iff.mp hv).1⟩
    · exact hc.pool h x hl

theorem WindowSound.admitOrphan {order : PoolOrder} (hc : WindowSound core c)
    (hv : c.validateBlockStandalone core b = true) : WindowSound core (c.admitOrphan order b) where
  nonempty := hc.nonempty
  index := hc.index
  linked := hc.linked
  hashes := hc.hashes
  pool := (hc.windowLinked.admitOrphan hv).pool
  anchor := hc.anchor

theorem windowSound_reset {genesis : Block} (hi : genesis.index = 0) :
    WindowSound core (c.reset genesis) where
  nonempty := (contiguous_reset hi).nonempty
  index := (contiguous_reset hi).index
  linked := by
    intro i b b' _ hb'
    simp [reset] at hb'
  hashes := by
    intro h i hl
    simp only [reset] at hl ⊢
    rcases HashTable.lookup_insert_eq_some.mp hl with ⟨rfl, rfl⟩ | ⟨-, hl⟩
    · exact ⟨Nat.le_refl 0, genesis, rfl, rfl⟩
    · simp at hl
  pool := by
    intro h b hl
    simp [reset] at hl
  anchor := by
    intro a ha
    cases ha

theorem windowHashed_reset {genesis : Block} (hv : HashValid core genesis) :
    WindowHashed core (c.reset genesis) where
  valid := by
    intro b hb
    rw [List.mem_singleton.mp hb]
    exact hv
  complete := by
    intro i b hb
    simp only [reset, List.getElem?_singleton] at hb ⊢
    split at hb
    · rename_i hi
      cases hb
      rw [hi, AList.lookup_insert]
    · cases hb

/-- The hash of the ancestor of a fork is that of the fork's first predecessor. -/
theorem ancestorIndex_eq_some {db : Option BlockReader} {first : Block} {ancestor : ℕ}
    (h : c.ancestorIndex db first = some ancestor) :
    c.blockHashes.lookup first.previousHash = some ancestor ∨
    (c.blockHashes.lookup first.previousHash = none ∧ first.index = ancestor + 1 ∧
      ancestor < c.blocksOffset ∧ ∃ read stored parent, db = some read ∧
        read ancestor 1 = some stored ∧ stored.head? = some parent ∧
        parent.hash = first.previousHash) := by
  unfold ancestorIndex at h
  split at h
  · rename_i hl
    exact .inl (hl.trans h)
  rename_i hl
  split at h
  · cases h
  rename_i hzero
  split at h
  · cases h
  rename_i hbelow
  split at h
  · cases h
  rename_i parent hread
  split at h
  · rename_i hhash
    simp only [Option.some.injEq] at h
    obtain ⟨stored, hstored, hparent⟩ := Option.bind_eq_some_iff.mp hread
    obtain ⟨read, hdb, hstored⟩ := Option.bind_eq_some_iff.mp hstored
    rw [h] at hstored
    exact .inr ⟨hl, by omega, by omega, read, stored, parent, hdb, hstored, hparent, hhash⟩
  · cases h

/-- What a reorganization to a fork rebuilds is the chain up to the fork's ancestor and the fork. -/
theorem withHistory_splice {db : Option BlockReader} {fork new old : List Block} {first : Block}
    {ancestor : ℕ} {target : Option (List Block)} (hne : c.blocks ≠ [])
    (hindex : ∀ b ∈ c.blocks.head?, b.index = c.blocksOffset)
    (hhashes : ∀ h i, c.blockHashes.lookup h = some i → c.blocksOffset ≤ i)
    (hfirst : fork.head? = some first) (hanc : c.ancestorIndex db first = some ancestor)
    (hsplice : c.splice fork ancestor = .ok (new, old)) (h : withHistory new db = .ok target) :
    target = (c.chainUpTo db ancestor).map fun stem => stem ++ fork := by
  rcases splice_eq_ok.mp hsplice with ⟨ho, -, rfl, -⟩ | ⟨ho, rfl, -⟩
  · obtain ⟨x, l, hx⟩ := List.exists_cons_of_ne_nil hne
    have hi : x.index = c.blocksOffset := hindex x (by simp [hx])
    simp only [hx, List.take_succ_cons, List.cons_append, withHistory, hi] at h
    simp only [chainUpTo, ho, if_true, hx, List.take_succ_cons]
    by_cases hpos : 0 < c.blocksOffset
    · rw [if_pos hpos] at h ⊢
      cases db with
      | none => cases h
      | some read =>
        simp only [Except.ok.injEq] at h
        rw [← h]
        simp [Option.map_map, Function.comp_def]
    · rw [if_neg hpos] at h ⊢
      simpa using h.symm
  · obtain ⟨l, rfl⟩ : ∃ l, new = first :: l := by
      cases new with
      | nil => simp at hfirst
      | cons x l =>
        cases hfirst
        exact ⟨l, rfl⟩
    rcases ancestorIndex_eq_some hanc with hl | ⟨-, hi, -⟩
    · exact absurd (hhashes _ _ hl) (Nat.not_le.mpr ho)
    · simp only [withHistory, hi, Nat.succ_pos, if_true] at h
      simp only [chainUpTo, Nat.not_le.mpr ho, if_false]
      cases db with
      | none => cases h
      | some read =>
        simp only [Except.ok.injEq] at h
        rw [← h]
        rfl

/-! ### The blocks of a chain -/

/-- A block of the window or of the orphan pool. -/
def Holds (c : Blockchain) (x : Block) : Prop :=
  x ∈ c.blocks ∨ ∃ k, c.orphanPool.lookup k = some x

/-- A block that a database reads out. -/
def Reads (db : Option BlockReader) (x : Block) : Prop :=
  ∃ read start limit stored, db = some read ∧ read start limit = some stored ∧ x ∈ stored

/-- What a replay goes through was given to it or is read out. -/
theorem mem_withHistory {db : Option BlockReader} {new l : List Block} {x : Block}
    (h : withHistory new db = .ok (some l)) (hx : x ∈ l) : x ∈ new ∨ Reads db x := by
  unfold withHistory at h
  split at h
  · cases h
  rename_i first rest
  split at h
  · split at h
    · cases h
    rename_i read
    obtain ⟨stored, hread, rfl⟩ := Option.map_eq_some_iff.mp (Except.ok.inj h)
    rcases List.mem_append.mp hx with hx | hx
    · exact .inr ⟨read, 0, first.index, stored, rfl, hread, hx⟩
    · exact .inl hx
  · cases h
    exact .inl hx

theorem holds_admitOrphan {order : PoolOrder} {x : Block} (hx : (c.admitOrphan order b).Holds x) :
    x = b ∨ c.Holds x := by
  rcases hx with hx | ⟨k, hk⟩
  · exact .inr (.inl hx)
  · exact (lookup_admitOrphan hk).imp (fun h => h.2) fun hk => .inr ⟨k, hk⟩

theorem holds_of_pruneToWindow {payouts : HashTable ℕ (List Payout)} {x : Block}
    (hx : (pruneToWindow { c with settledPayoutsByBlock := payouts }).Holds x) : c.Holds x := by
  rw [Holds, pruneToWindow_blocks, pruneToWindow_orphanPool] at hx
  exact hx.imp_left List.mem_of_mem_drop

theorem calculateHash_of_admits {ambient : Ambient} (h : c.admits core ambient b = some c') :
    core.calculateHash b.toHeader = some b.hash :=
  (validateBlockStandalone_iff.mp (admits_eq_some.mp h).2.2.1).1

/-- The block that is applied joins those of the chain with its hash or not at all, and all others
were there before or are read out. -/
theorem holds_of_applyInMemory {ambient : Ambient} {db : Option BlockReader}
    {outcome : BlockOutcome} {x : Block}
    (h : c.applyInMemory core ambient b db = .ok (outcome, c')) (hx : c'.Holds x) :
    (x = b ∧ core.calculateHash x.toHeader = some x.hash) ∨ c.Holds x ∨ Reads db x := by
  rcases applyInMemory_eq_ok.mp h with ⟨-, hup⟩ | ⟨-, rfl, -⟩ | ⟨-, hadm, -⟩ |
    ⟨old, fork, ancestor, new, -, hre⟩
  · have ha := appended_of_updateState hup
    rw [Holds, ha.blocks, ha.orphanPool, List.mem_append, List.mem_singleton] at hx
    rcases hx with (hx | rfl) | hx
    · exact .inr (.inl (.inl hx))
    · exact .inl ⟨rfl, ha.calculateHash⟩
    · exact .inr (.inl (.inr hx))
  · exact .inr (.inl hx)
  · have hhash := calculateHash_of_admits hadm
    obtain ⟨-, -, -, rfl⟩ := admits_eq_some.mp hadm
    exact (holds_admitOrphan hx).imp (fun h => ⟨h, h ▸ hhash⟩) .inl
  · have hhash := calculateHash_of_admits hre.admits
    rcases reorgTo_eq_ok.mp hre.rebuilt with ⟨-, rfl⟩ | ⟨g, rest, htarget, hreplay⟩
    · exact (holds_admitOrphan hx).imp (fun h => ⟨h, h ▸ hhash⟩) .inl
    obtain ⟨done, hdone, hgrow⟩ := replay_grows hreplay
    rcases hx with hx | ⟨k, hk⟩
    · rw [hgrow.blocks] at hx
      rcases mem_withHistory htarget ((List.cons_prefix_cons.mpr ⟨rfl, hdone⟩).subset hx) with
        hx | hx
      · have hmem : x ∈ c.blocks ∨ x ∈ fork := by
          rcases splice_eq_ok.mp hre.splice with ⟨-, -, rfl, -⟩ | ⟨-, rfl, -⟩
          · exact (List.mem_append.mp hx).imp_left List.mem_of_mem_take
          · exact .inr hx
        rcases hmem with hx | hx
        · exact .inr (.inl (.inl hx))
        · rcases hre.mem_fork hx with rfl | hk
          · exact .inl ⟨rfl, hhash⟩
          · exact .inr (.inl (.inr hk))
      · exact .inr (.inr hx)
    · rw [hgrow.orphanPool] at hk
      simp [reset] at hk

end

end Blockchain

end Lootcoin
