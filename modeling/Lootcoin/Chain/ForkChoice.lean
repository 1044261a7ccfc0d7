import Lootcoin.Library.Fallible
import Lootcoin.Chain.Reorg

/-! What the search for a fork finds.  A fork is a path of orphans to one that no orphan follows,
and the search returns one that beats the main chain with at least the work of every other, or
nothing when none does. -/

namespace Lootcoin

/-- The pooled blocks that a hash leads back to, the oldest first. -/
inductive PoolPath (pool : HashTable Bytes Block) : Bytes → List Block → Prop
  | stop {h : Bytes} : pool.lookup h = none → PoolPath pool h []
  | step {h : Bytes} {b : Block} {path : List Block} :
      pool.lookup h = some b → PoolPath pool b.previousHash path → PoolPath pool h (path ++ [b])

namespace PoolPath

variable {pool pool' : HashTable Bytes Block} {h : Bytes} {path path' : List Block} {b : Block}

theorem unique (p : PoolPath pool h path) (p' : PoolPath pool h path') : path = path' := by
  induction p generalizing path' with
  | stop hn =>
    cases p' with
    | stop => rfl
    | step hs => simp [hn] at hs
  | step hs _ ih =>
    cases p' with
    | stop hn => simp [hn] at hs
    | step hs' p' =>
      cases hs.symm.trans hs'
      rw [ih p']

theorem mem (p : PoolPath pool h path) (hb : b ∈ path) : ∃ k, pool.lookup k = some b := by
  induction p with
  | stop => simp at hb
  | step hs _ ih =>
    rcases List.mem_append.mp hb with hb | hb
    · exact ih hb
    · rw [List.mem_singleton.mp hb]
      exact ⟨_, hs⟩

/-- The path of a hash stays when a block is pooled that neither the hash nor an orphan names. -/
theorem insert (p : PoolPath pool h path) (hne : h ≠ b.hash)
    (hall : ∀ k x, pool.lookup k = some x → x.previousHash ≠ b.hash) :
    PoolPath (pool.insert b.hash b) h path := by
  induction p with
  | stop hn => exact .stop (by rwa [AList.lookup_insert_ne hne])
  | step hs _ ih => exact .step (by rwa [AList.lookup_insert_ne hne]) (ih (hall _ _ hs))

/-- The first block of a path has no predecessor in the pool. -/
theorem lookup_head (p : PoolPath pool h path) (hb : b ∈ path.head?) :
    pool.lookup b.previousHash = none := by
  induction p with
  | stop => simp at hb
  | step hs p' ih =>
    cases p' with
    | stop hn =>
      simp only [List.nil_append, List.head?_cons, Option.mem_def, Option.some.injEq] at hb
      exact hb ▸ hn
    | step => exact ih (by simpa [List.head?_append] using hb)

end PoolPath

namespace Blockchain

variable {core : Core} {order : PoolOrder} {c : Blockchain} {db : Option BlockReader}

theorem traceBack_eq_ok {pool : HashTable Bytes Block} {fuel : ℕ} {h : Bytes}
    {chain chain' : List Block} : traceBack pool fuel h chain = .ok chain' ↔
      ∃ path, PoolPath pool h path ∧ path.length ≤ fuel ∧ chain' = path ++ chain := by
  induction fuel generalizing h chain with
  | zero =>
    unfold traceBack
    cases hs : pool.lookup h with
    | none =>
      simp only [Except.ok.injEq]
      constructor
      · rintro rfl
        exact ⟨[], .stop hs, Nat.le_refl 0, rfl⟩
      · rintro ⟨path, -, hlen, rfl⟩
        rw [List.eq_nil_of_length_eq_zero (Nat.le_zero.mp hlen), List.nil_append]
    | some b =>
      simp only [reduceCtorEq, false_iff, not_exists, not_and]
      rintro path p hlen -
      cases p with
      | stop hn => simp [hs] at hn
      | step => simp at hlen
  | succ fuel ih =>
    unfold traceBack
    cases hs : pool.lookup h with
    | none =>
      simp only [Except.ok.injEq]
      constructor
      · rintro rfl
        exact ⟨[], .stop hs, Nat.zero_le _, rfl⟩
      · rintro ⟨path, p, -, rfl⟩
        rw [p.unique (.stop hs), List.nil_append]
    | some b =>
      simp only [ih]
      constructor
      · rintro ⟨path, p, hlen, rfl⟩
        exact ⟨path ++ [b], .step hs p, by simpa using hlen, by simp⟩
      · rintro ⟨_, p, hlen, rfl⟩
        cases p with
        | stop hn => simp [hs] at hn
        | step hs' p =>
          cases hs.symm.trans hs'
          exact ⟨_, p, by simpa using hlen, by simp⟩

theorem traceForkChain_eq_ok {tip : Block} {chain : List Block} :
    c.traceForkChain tip = .ok chain ↔
      ∃ path, PoolPath c.orphanPool tip.previousHash path ∧
        path.length ≤ HashTable.size c.orphanPool ∧ chain = path ++ [tip] :=
  traceBack_eq_ok

/-- The candidate of a tip is the path to it, where that attaches and beats the main chain. -/
theorem forkCandidate_eq_some {tip : Block} {k : Candidate} :
    c.forkCandidate db tip = .ok (some k) ↔
      c.traceForkChain tip = .ok k.chain ∧
      k.chain.head?.bind (c.ancestorIndex db) = some k.ancestor ∧
      k.work = chainSegmentWork k.chain ∧
      ∃ work, c.mainWork db k.ancestor = some work ∧ work < k.work := by
  obtain ⟨chain, ancestor, w⟩ := k
  unfold forkCandidate
  rw [Fallible.bind_eq_ok]
  constructor
  · rintro ⟨chain', htrace, h⟩
    cases ha : chain'.head?.bind (c.ancestorIndex db) with
    | none => simp [ha] at h
    | some a =>
      simp only [ha] at h
      cases hw : c.mainWork db a with
      | none => simp [hw] at h
      | some work =>
        simp only [hw] at h
        split at h
        · rename_i hlt
          cases Fallible.pure_eq_ok.mp h
          exact ⟨htrace, ha, rfl, work, hw, hlt⟩
        · cases Fallible.pure_eq_ok.mp h
  · rintro ⟨htrace, ha, hwork, work, hw, hlt⟩
    simp only at htrace ha hwork hw hlt
    subst hwork
    refine ⟨chain, htrace, ?_⟩
    simp only [ha, hw, hlt, if_true]
    rfl

/-- A tip has no candidate when its path does not attach or does not beat the main chain. -/
theorem forkCandidate_eq_none {tip : Block} : c.forkCandidate db tip = .ok none ↔
    ∃ chain, c.traceForkChain tip = .ok chain ∧
      ∀ ancestor, chain.head?.bind (c.ancestorIndex db) = some ancestor →
        ∀ work, c.mainWork db ancestor = some work → chainSegmentWork chain ≤ work := by
  unfold forkCandidate
  rw [Fallible.bind_eq_ok]
  refine exists_congr fun chain => and_congr_right fun _ => ?_
  cases ha : chain.head?.bind (c.ancestorIndex db) with
  | none => simp
  | some a =>
    cases hw : c.mainWork db a with
    | none => simp [hw]
    | some work =>
      simp only [Option.some.injEq, forall_eq', hw, ← Nat.not_lt]
      by_cases hlt : work < chainSegmentWork chain <;> simp [hlt]

/-- The best of a list of candidates is none exactly when all are. -/
theorem foldl_betterCandidate (ks : List (Option Candidate)) (best : Option Candidate) :
    (ks.foldl betterCandidate best = none ↔ best = none ∧ ∀ k ∈ ks, k = none) ∧
      ∀ k, ks.foldl betterCandidate best = some k → (best = some k ∨ some k ∈ ks) ∧
        ∀ k', best = some k' ∨ some k' ∈ ks → k'.work ≤ k.work := by
  induction ks generalizing best with
  | nil => simp +contextual
  | cons k ks ih =>
    obtain ⟨hnone, hsome⟩ := ih (betterCandidate best k)
    rw [List.foldl_cons]
    refine ⟨?_, fun r hr => ?_⟩
    · rw [hnone]
      cases best <;> cases k <;> simp [betterCandidate]
      split <;> simp
    · obtain ⟨hfrom, hbest⟩ := hsome r hr
      cases k with
      | none =>
        simp only [betterCandidate] at hfrom hbest
        refine ⟨hfrom.imp_right (List.mem_cons_of_mem _), fun k' hk' => hbest k' ?_⟩
        simpa using hk'
      | some k =>
        cases best with
        | none =>
          simp only [betterCandidate, Option.some.injEq, reduceCtorEq, false_or] at hfrom hbest ⊢
          refine ⟨?_, fun k' hk' => hbest k' ?_⟩
          · simpa [eq_comm] using hfrom
          · simpa [eq_comm] using hk'
        | some best =>
          simp only [betterCandidate] at hfrom hbest
          split at hfrom
          · rename_i hlt
            rw [if_pos hlt] at hbest
            refine ⟨.inr (by simpa [eq_comm] using hfrom), fun k' hk' => ?_⟩
            rcases hk' with hk' | hk'
            · cases hk'
              exact hlt.le.trans (hbest k (.inl rfl))
            · exact hbest k' (by simpa [eq_comm] using hk')
          · rename_i hge
            rw [if_neg hge] at hbest
            refine ⟨hfrom.imp_right (List.mem_cons_of_mem _), fun k' hk' => ?_⟩
            rcases hk' with hk' | hk'
            · exact hbest k' (.inl hk')
            · rcases List.mem_cons.mp hk' with hk' | hk'
              · cases hk'
                exact (Nat.not_lt.mp hge).trans (hbest best (.inl rfl))
              · exact hbest k' (.inr hk')

theorem mem_poolTips {pool : HashTable Bytes Block} {tip : Block} :
    tip ∈ poolTips order pool ↔ ∃ h, pool.lookup h = some tip ∧
      ∀ k b, pool.lookup k = some b → b.previousHash ≠ h := by
  simp only [poolTips, List.mem_map, List.mem_filter, decide_eq_true_eq, HashTable.mem_values,
    Prod.exists, order.mem_entries]
  constructor
  · rintro ⟨h, b, ⟨hb, hn⟩, rfl⟩
    exact ⟨h, hb, fun k b' hb' heq => hn ⟨b', ⟨k, hb'⟩, heq⟩⟩
  · rintro ⟨h, hb, hn⟩
    exact ⟨h, tip, ⟨hb, fun ⟨b', ⟨k, hb'⟩, heq⟩ => hn k b' hb' heq⟩, rfl⟩

theorem findLongestFork_eq_ok {r : Option (List Block × ℕ)} :
    findLongestFork order c db = .ok r ↔ ∃ ks,
      List.Forall₂ (fun tip k => c.forkCandidate db tip = .ok k) (poolTips order c.orphanPool) ks ∧
      r = (ks.foldl betterCandidate none).map fun k => (k.chain, k.ancestor) := by
  unfold findLongestFork
  simp only [Fallible.bind_eq_ok, Fallible.foldlM_eq_ok, Fallible.pure_eq_ok]
  constructor
  · rintro ⟨best, ⟨ks, hks, rfl⟩, rfl⟩
    exact ⟨ks, hks, rfl⟩
  · rintro ⟨ks, hks, rfl⟩
    exact ⟨_, ⟨ks, hks, rfl⟩, rfl⟩

/-- The search returns when every walk through the pool does. -/
theorem findLongestFork_isOk (h : ∀ tip ∈ poolTips order c.orphanPool,
    ∃ k, c.forkCandidate db tip = .ok k) : ∃ r, findLongestFork order c db = .ok r := by
  have hall : ∀ tips : List Block, (∀ tip ∈ tips, ∃ k, c.forkCandidate db tip = .ok k) →
      ∃ ks, List.Forall₂ (fun tip k => c.forkCandidate db tip = .ok k) tips ks := by
    intro tips htips
    induction tips with
    | nil => exact ⟨[], .nil⟩
    | cons tip tips ih =>
      obtain ⟨k, hk⟩ := htips tip List.mem_cons_self
      obtain ⟨ks, hks⟩ := ih fun t ht => htips t (List.mem_cons_of_mem _ ht)
      exact ⟨k :: ks, .cons hk hks⟩
  obtain ⟨ks, hks⟩ := hall _ h
  exact ⟨_, findLongestFork_eq_ok.mpr ⟨ks, hks, rfl⟩⟩

/-- The search finds nothing exactly when the candidate of every tip is none. -/
theorem findLongestFork_eq_none : findLongestFork order c db = .ok none ↔
    ∀ tip ∈ poolTips order c.orphanPool, c.forkCandidate db tip = .ok none := by
  rw [findLongestFork_eq_ok]
  constructor
  · rintro ⟨ks, hks, hr⟩
    have hall := ((foldl_betterCandidate ks none).1.mp (Option.map_eq_none_iff.mp hr.symm)).2
    intro tip htip
    obtain ⟨i, hi, rfl⟩ := List.mem_iff_getElem.mp htip
    have hget := hks.get (i := i) hi (hks.length_eq ▸ hi)
    simp only [List.get_eq_getElem] at hget
    rw [hget, hall _ (List.getElem_mem _)]
  · intro h
    refine ⟨(poolTips order c.orphanPool).map fun _ => none, ?_, ?_⟩
    · rw [List.forall₂_map_right_iff]
      exact List.forall₂_same.mpr h
    · rw [eq_comm, Option.map_eq_none_iff, (foldl_betterCandidate _ _).1]
      exact ⟨rfl, by simp⟩

/-- What the search finds is the candidate of a tip, and no tip has one with more work. -/
theorem findLongestFork_eq_some {chain : List Block} {ancestor : ℕ}
    (h : findLongestFork order c db = .ok (some (chain, ancestor))) :
    ∃ tip k, tip ∈ poolTips order c.orphanPool ∧ c.forkCandidate db tip = .ok (some k) ∧
      k.chain = chain ∧ k.ancestor = ancestor ∧
      ∀ tip' ∈ poolTips order c.orphanPool, ∃ k', c.forkCandidate db tip' = .ok k' ∧
        ∀ k'' ∈ k', k''.work ≤ k.work := by
  obtain ⟨ks, hks, hr⟩ := findLongestFork_eq_ok.mp h
  obtain ⟨k, hk, heq⟩ := Option.map_eq_some_iff.mp hr.symm
  cases heq
  obtain ⟨hmem, hbest⟩ := (foldl_betterCandidate ks none).2 k hk
  have hmem : some k ∈ ks := hmem.resolve_left (by simp)
  obtain ⟨i, hi, hki⟩ := List.mem_iff_getElem.mp hmem
  have hget := hks.get (i := i) (hks.length_eq ▸ hi) hi
  simp only [List.get_eq_getElem, hki] at hget
  refine ⟨_, k, List.getElem_mem _, hget, rfl, rfl, fun tip' htip' => ?_⟩
  obtain ⟨j, hj, rfl⟩ := List.mem_iff_getElem.mp htip'
  have hget' := hks.get (i := j) hj (hks.length_eq ▸ hj)
  simp only [List.get_eq_getElem] at hget'
  exact ⟨_, hget', fun k'' hk'' => hbest k'' (.inr (hk'' ▸ List.getElem_mem _))⟩

/-- Where no other tip has a candidate, the search finds that of the one. -/
theorem findLongestFork_of_others {tip : Block} {k : Option Candidate}
    (htip : tip ∈ poolTips order c.orphanPool) (hk : c.forkCandidate db tip = .ok k)
    (hothers : ∀ other ∈ poolTips order c.orphanPool, other ≠ tip →
      c.forkCandidate db other = .ok none) :
    findLongestFork order c db = .ok (k.map fun k => (k.chain, k.ancestor)) := by
  cases k with
  | none =>
    apply findLongestFork_eq_none.mpr
    intro other hother
    by_cases hne : other = tip
    · rw [hne, hk]
    · exact hothers other hother hne
  | some k =>
    have hok : ∀ other ∈ poolTips order c.orphanPool, ∃ k, c.forkCandidate db other = .ok k := by
      intro other hother
      by_cases hne : other = tip
      · exact ⟨some k, by rw [hne, hk]⟩
      · exact ⟨none, hothers other hother hne⟩
    obtain ⟨r, hr⟩ := findLongestFork_isOk hok
    rw [hr]
    cases r with
    | none => cases hk.symm.trans (findLongestFork_eq_none.mp hr tip htip)
    | some found =>
      obtain ⟨chain, ancestor⟩ := found
      obtain ⟨other, k', hother, hk', rfl, rfl, -⟩ := findLongestFork_eq_some hr
      have heq : other = tip := by
        by_contra hne
        cases (hothers other hother hne).symm.trans hk'
      rw [heq] at hk'
      cases hk.symm.trans hk'
      rfl

end Blockchain

end Lootcoin
