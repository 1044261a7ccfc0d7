import Lootcoin.Chain.Window

/-! The orphan pool.  Its caps evict before a block is inserted, and so an orphan that is pooled
again leaves the pool as it was only when the caps evict nothing or the orphan itself. -/

namespace Lootcoin

namespace Blockchain

variable {core : Core} {order : PoolOrder} {pool : HashTable Bytes Block} {c d : Blockchain}
  {b : Block} {db : Option BlockReader}

/-- The number of orphans at an index. -/
def countAtHeight (pool : HashTable Bytes Block) (index : ℕ) : ℕ :=
  (HashTable.values pool).countP fun b => b.index = index

/-- No height has more orphans than the limit. -/
def PoolCapped (pool : HashTable Bytes Block) : Prop :=
  ∀ index, countAtHeight pool index ≤ maxOrphansPerHeight

/-- Every orphan is pooled under its hash. -/
def PoolKeyed (pool : HashTable Bytes Block) : Prop :=
  ∀ h b, pool.lookup h = some b → b.hash = h

/-- The caps leave every other orphan in the pool when a pooled one comes again: a full pool evicts
that one, which is the first of least index, and a height at its limit the one of least hash. -/
structure SparesOthers (order : PoolOrder) (pool : HashTable Bytes Block) (b : Block) : Prop where
  full : maxOrphanPoolSize ≤ HashTable.size pool →
    (order.entries pool).argmin (fun e => e.2.index) = some (b.hash, b)
  atHeight : HashTable.size pool < maxOrphanPoolSize →
    maxOrphansPerHeight ≤ countAtHeight pool b.index →
    ∀ h x, pool.lookup h = some x → x.index = b.index → b.hash ≤ x.hash

/-! ### Evictions -/

theorem length_entries (order : PoolOrder) (pool : HashTable Bytes Block) :
    (order.entries pool).length = HashTable.size pool := by
  rw [(order.perm pool).length_eq, List.length_map, HashTable.size]

theorem length_filter_entries (order : PoolOrder) (pool : HashTable Bytes Block) (index : ℕ) :
    ((order.entries pool).filter fun e => e.2.index = index).length = countAtHeight pool index := by
  rw [((order.perm pool).filter _).length_eq, ← List.countP_eq_length_filter, List.countP_map,
    countAtHeight, HashTable.values, List.countP_map]
  rfl

/-- A full pool evicts its first orphan of least index, and no other pool evicts here. -/
theorem evictFromFullPool_cases (order : PoolOrder) (pool : HashTable Bytes Block) :
    (HashTable.size pool < maxOrphanPoolSize ∧ evictFromFullPool order pool = pool) ∨
    (maxOrphanPoolSize ≤ HashTable.size pool ∧ ∃ e,
      (order.entries pool).argmin (fun e => e.2.index) = some e ∧ pool.lookup e.1 = some e.2 ∧
      evictFromFullPool order pool = pool.erase e.1) := by
  unfold evictFromFullPool
  by_cases hfull : maxOrphanPoolSize ≤ HashTable.size pool
  · rw [if_pos hfull]
    cases he : (order.entries pool).argmin fun e => e.2.index with
    | none =>
      have hsize := length_entries order pool
      rw [List.argmin_eq_none.mp he] at hsize
      have : 0 < maxOrphanPoolSize := by decide
      simp only [List.length_nil] at hsize
      omega
    | some e =>
      have hmem := order.mem_entries.mp (List.argmin_mem he)
      exact .inr ⟨hfull, e, rfl, hmem, rfl⟩
  · rw [if_neg hfull]
    exact .inl ⟨Nat.not_le.mp hfull, rfl⟩

/-- A height at its limit evicts its orphan of least hash, and no other height evicts one. -/
theorem evictAtHeight_cases (order : PoolOrder) (pool : HashTable Bytes Block) (index : ℕ) :
    (countAtHeight pool index < maxOrphansPerHeight ∧ evictAtHeight order pool index = pool) ∨
    (maxOrphansPerHeight ≤ countAtHeight pool index ∧ ∃ h x,
      pool.lookup h = some x ∧ x.index = index ∧
      (∀ k y, pool.lookup k = some y → y.index = index → x.hash ≤ y.hash) ∧
      evictAtHeight order pool index = pool.erase h) := by
  unfold evictAtHeight
  simp only [length_filter_entries]
  by_cases hlimit : maxOrphansPerHeight ≤ countAtHeight pool index
  · rw [if_pos hlimit]
    cases he : ((order.entries pool).filter fun e => e.2.index = index).argmin
        fun e => e.2.hash with
    | none =>
      have hcount := length_filter_entries order pool index
      rw [List.argmin_eq_none.mp he] at hcount
      have : 0 < maxOrphansPerHeight := by decide
      simp only [List.length_nil] at hcount
      omega
    | some e =>
      obtain ⟨hmem, hindex⟩ := List.mem_filter.mp (List.argmin_mem he)
      refine .inr ⟨hlimit, e.1, e.2, order.mem_entries.mp hmem, by simpa using hindex, ?_, rfl⟩
      intro k y hy hyi
      have hmem' : (k, y) ∈ (order.entries pool).filter fun e => e.2.index = index :=
        List.mem_filter.mpr ⟨order.mem_entries.mpr hy, by simpa using hyi⟩
      have hleast := List.not_lt_of_mem_argmin hmem' (Option.mem_def.mpr he)
      exact not_lt.mp hleast
  · rw [if_neg hlimit]
    exact .inl ⟨Nat.not_le.mp hlimit, rfl⟩

/-- Eviction and insertion keep every height within its limit. -/
theorem PoolCapped.admitOrphan (hc : PoolCapped c.orphanPool) :
    PoolCapped (c.admitOrphan order b).orphanPool := by
  have hfull : PoolCapped (evictFromFullPool order c.orphanPool) := by
    rcases evictFromFullPool_cases order c.orphanPool with ⟨-, heq⟩ | ⟨-, e, -, -, heq⟩
    · rwa [heq]
    · rw [heq]
      exact fun i => (HashTable.countP_values_erase_le _ _ _).trans (hc i)
  have hheight : ∀ i, countAtHeight
      (evictAtHeight order (evictFromFullPool order c.orphanPool) b.index) i +
      (if b.index = i then 1 else 0) ≤ maxOrphansPerHeight := by
    intro i
    rcases evictAtHeight_cases order (evictFromFullPool order c.orphanPool) b.index with
      ⟨hlt, heq⟩ | ⟨-, h, x, hx, hxi, -, heq⟩
    · rw [heq]
      have := hfull i
      split
      · rename_i hi
        rw [hi] at hlt
        omega
      · omega
    · rw [heq]
      have hcount := HashTable.countP_values_erase hx fun b => b.index = i
      have := hfull i
      unfold countAtHeight at this ⊢
      rw [hxi] at hcount
      split
      · rename_i hi
        simp only [hi, decide_true, if_true] at hcount
        omega
      · rename_i hi
        simp only [hi, decide_false] at hcount
        omega
  intro i
  have hle := HashTable.countP_values_erase_le
    (evictAtHeight order (evictFromFullPool order c.orphanPool) b.index) b.hash
    fun x => x.index = i
  have := hheight i
  unfold countAtHeight at this ⊢
  simp only [Blockchain.admitOrphan, HashTable.values_insert, List.countP_cons,
    decide_eq_true_eq]
  omega

/-- The pool has no more orphans than it may, in all and at every height, and each lies under its
own hash, which is the one that is computed from it. -/
structure PoolBounded (core : Core) (pool : HashTable Bytes Block) : Prop where
  size_le : HashTable.size pool ≤ maxOrphanPoolSize
  capped : PoolCapped pool
  hashed : ∀ h b, pool.lookup h = some b → b.hash = h ∧ core.calculateHash b.toHeader = some h

theorem poolBounded_empty : PoolBounded core ∅ :=
  ⟨Nat.zero_le _, fun _ => Nat.zero_le _, fun h b hb => by simp at hb⟩

theorem PoolBounded.admitOrphan (hc : PoolBounded core c.orphanPool)
    (hb : core.calculateHash b.toHeader = some b.hash) :
    PoolBounded core (c.admitOrphan order b).orphanPool where
  size_le := by
    have hroom : HashTable.size (evictFromFullPool order c.orphanPool) < maxOrphanPoolSize := by
      rcases evictFromFullPool_cases order c.orphanPool with ⟨hlt, heq⟩ | ⟨-, e, -, he, heq⟩
      · rwa [heq]
      · rw [heq]
        have := HashTable.size_erase he
        have := hc.size_le
        omega
    have hle : HashTable.size (evictAtHeight order (evictFromFullPool order c.orphanPool) b.index) ≤
        HashTable.size (evictFromFullPool order c.orphanPool) := by
      rcases evictAtHeight_cases order (evictFromFullPool order c.orphanPool) b.index with
        ⟨-, heq⟩ | ⟨-, h, x, -, -, -, heq⟩
      · rw [heq]
      · rw [heq]
        exact HashTable.size_erase_le _ _
    have herase := HashTable.size_erase_le
      (evictAtHeight order (evictFromFullPool order c.orphanPool) b.index) b.hash
    show HashTable.size (AList.insert b.hash b _) ≤ _
    rw [HashTable.size_insert]
    omega
  capped := hc.capped.admitOrphan
  hashed := by
    intro h x hx
    rcases lookup_admitOrphan hx with ⟨rfl, rfl⟩ | hx
    · exact ⟨rfl, hb⟩
    · exact hc.hashed h x hx

/-- Whatever a call does, it leaves the pool within its bounds. -/
theorem PoolBounded.applyInMemory {ambient : Ambient} {outcome : BlockOutcome}
    (hc : PoolBounded core c.orphanPool)
    (h : c.applyInMemory core ambient b db = .ok (outcome, d)) : PoolBounded core d.orphanPool := by
  rcases applyInMemory_eq_ok.mp h with ⟨-, hup⟩ | ⟨-, rfl, -⟩ | ⟨-, hadm, -⟩ |
    ⟨old, fork, ancestor, new, -, hre⟩
  · exact (appended_of_updateState hup).orphanPool ▸ hc
  · exact hc
  · obtain ⟨-, -, -, rfl⟩ := admits_eq_some.mp hadm
    exact hc.admitOrphan (calculateHash_of_admits hadm)
  · rcases reorgTo_eq_ok.mp hre.rebuilt with ⟨-, rfl⟩ | ⟨g, rest, -, hreplay⟩
    · exact hc.admitOrphan (calculateHash_of_admits hre.admits)
    · obtain ⟨done, -, hgrow⟩ := replay_grows hreplay
      rw [hgrow.orphanPool]
      exact poolBounded_empty

/-- A pool from which the one entry was removed and inserted again is as it was. -/
theorem lookup_insert_erase {h : Bytes} (hb : pool.lookup h = some b) (k : Bytes) :
    ((pool.erase h).insert h b).lookup k = pool.lookup k := by
  by_cases hk : k = h
  · rw [hk, AList.lookup_insert, hb]
  · rw [AList.lookup_insert_ne hk, AList.lookup_erase_ne hk]

theorem lookup_insert_self {h : Bytes} (hb : pool.lookup h = some b) (k : Bytes) :
    (pool.insert h b).lookup k = pool.lookup k := by
  by_cases hk : k = h
  · rw [hk, AList.lookup_insert, hb]
  · rw [AList.lookup_insert_ne hk]

/-- What the caps evict is missing afterwards, if it is another orphan. -/
theorem lookup_admitOrphan_of_evicted {h : Bytes} {x : Block} (hx : c.orphanPool.lookup h = some x)
    (hne : h ≠ b.hash)
    (hout : (evictAtHeight order (evictFromFullPool order c.orphanPool) b.index).lookup h = none) :
    (c.admitOrphan order b).orphanPool.lookup h ≠ c.orphanPool.lookup h := by
  rw [Blockchain.admitOrphan, AList.lookup_insert_ne hne, hout, hx]
  exact (Option.some_ne_none x).symm

/-- Pooling a block leaves the pool as it was exactly when the block is in it and the caps spare the
others. -/
theorem lookup_admitOrphan_iff (hcap : PoolCapped c.orphanPool) (hkey : PoolKeyed c.orphanPool) :
    (∀ h, (c.admitOrphan order b).orphanPool.lookup h = c.orphanPool.lookup h) ↔
      c.orphanPool.lookup b.hash = some b ∧ SparesOthers order c.orphanPool b := by
  have hself : (c.admitOrphan order b).orphanPool.lookup b.hash = some b := AList.lookup_insert _
  have hpooled : (∀ h, (c.admitOrphan order b).orphanPool.lookup h = c.orphanPool.lookup h) →
      c.orphanPool.lookup b.hash = some b := fun h => (h b.hash).symm.trans hself
  suffices hb : c.orphanPool.lookup b.hash = some b →
      ((∀ h, (c.admitOrphan order b).orphanPool.lookup h = c.orphanPool.lookup h) ↔
        SparesOthers order c.orphanPool b) from
    ⟨fun h => ⟨hpooled h, (hb (hpooled h)).mp h⟩, fun h => (hb h.1).mpr h.2⟩
  intro hb
  rcases evictFromFullPool_cases order c.orphanPool with ⟨hroom, hP⟩ | ⟨hfull, e, he, hel, hP⟩
  · rcases evictAtHeight_cases order c.orphanPool b.index with
      ⟨hlt, hQ⟩ | ⟨hlimit, h, x, hx, hxi, hleast, hQ⟩
    · -- no cap is reached
      refine iff_of_true (fun k => ?_) ⟨fun hfull => by omega, fun _ hlimit => by omega⟩
      rw [Blockchain.admitOrphan, hP, hQ]
      exact lookup_insert_self hb k
    · -- the height is at its limit
      by_cases hh : h = b.hash
      · obtain rfl : x = b := Option.some.inj (hx.symm.trans (hh ▸ hb))
        refine iff_of_true (fun k => ?_) ⟨fun hfull => by omega, fun _ _ => hleast⟩
        rw [Blockchain.admitOrphan, hP, hQ, hh]
        exact lookup_insert_erase hb k
      · refine iff_of_false (fun hall => ?_) fun hs => hh ?_
        · refine lookup_admitOrphan_of_evicted hx hh ?_ (hall h)
          rw [hP, hQ, AList.lookup_erase]
        · have hle := hs.atHeight hroom hlimit h x hx hxi
          rw [← hkey h x hx]
          exact le_antisymm (hleast b.hash b hb rfl) hle
  · -- the pool is full
    by_cases hh : e.1 = b.hash
    · have heb : e.2 = b := Option.some.inj (hel.symm.trans (hh ▸ hb))
      have hcount := HashTable.countP_values_erase hel fun x => x.index = b.index
      have hlimit := hcap b.index
      rw [heb] at hcount
      simp only [decide_true, if_true] at hcount
      unfold countAtHeight at hlimit
      refine iff_of_true (fun k => ?_) ⟨fun _ => ?_, fun hroom => by omega⟩
      · rcases evictAtHeight_cases order (c.orphanPool.erase e.1) b.index with
          ⟨-, hQ⟩ | ⟨hmore, -⟩
        · rw [Blockchain.admitOrphan, hP, hQ, hh]
          exact lookup_insert_erase hb k
        · unfold countAtHeight at hmore
          omega
      · rw [he, ← hh, ← heb]
    · refine iff_of_false (fun hall => ?_) fun hs => hh ?_
      · refine lookup_admitOrphan_of_evicted hel hh ?_ (hall e.1)
        cases hl : (evictAtHeight order (evictFromFullPool order c.orphanPool)
            b.index).lookup e.1 with
        | none => rfl
        | some x =>
          have hgone := lookup_evictAtHeight hl
          rw [hP, AList.lookup_erase] at hgone
          cases hgone
      · exact congrArg Prod.fst (Option.some.inj (he.symm.trans (hs.full hfull)))

/-! ### The search in a pool that is as it was -/

theorem traceBack_congr {pool pool' : HashTable Bytes Block}
    (h : ∀ k, pool'.lookup k = pool.lookup k) (fuel : ℕ) (prevHash : Bytes) (chain : List Block) :
    traceBack pool' fuel prevHash chain = traceBack pool fuel prevHash chain := by
  induction fuel generalizing prevHash chain with
  | zero =>
    unfold traceBack
    rw [h]
  | succ fuel ih =>
    unfold traceBack
    rw [h]
    split
    · rfl
    · exact ih _ _

/-- A pool of the same orphans has the same candidates, wherever its chain is the same. -/
theorem forkCandidate_admitOrphan
    (h : ∀ k, (c.admitOrphan order b).orphanPool.lookup k = c.orphanPool.lookup k) (tip : Block) :
    (c.admitOrphan order b).forkCandidate db tip = c.forkCandidate db tip := by
  have htrace : (c.admitOrphan order b).traceForkChain tip = c.traceForkChain tip := by
    rw [traceForkChain, traceForkChain, HashTable.size_congr h, traceBack_congr h]
  rw [forkCandidate, forkCandidate, htrace]
  rfl

end Blockchain

end Lootcoin
