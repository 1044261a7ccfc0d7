import Mathlib.Algebra.BigOperators.Group.Finset.Basic
import Mathlib.Algebra.Order.BigOperators.Group.Finset
import Lootcoin.Library.HashTable

/-! Sums over hash tables.  A weight on the entries of a table has a sum, which depends only on what
the table holds at each key.  Two tables are therefore compared one key at a time. -/

namespace HashTable

section Weights

variable {κ ν : Type}

/-- The sum of a weight over the entries. -/
def weigh (w : κ → ν → ℕ) (t : HashTable κ ν) : ℕ := (t.entries.map fun e => w e.1 e.2).sum

/-- The weight of what a table holds at a key, if anything. -/
def weightAt [DecidableEq κ] (w : κ → ν → ℕ) (t : HashTable κ ν) (k : κ) : ℕ :=
  ((t.lookup k).map (w k)).getD 0

/-- The sum of a function of the values that pass a test is a sum over the entries. -/
theorem sum_filter_values (test : ν → Bool) (f : ν → ℕ) (t : HashTable κ ν) :
    ((t.values.filter test).map f).sum = weigh (fun _ v => if test v then f v else 0) t := by
  simp only [weigh, values]
  induction t.entries with
  | nil => rfl
  | cons e l ih =>
    by_cases h : test e.2 = true
    · simp only [List.map_cons, List.filter_cons, h, if_true, List.sum_cons, ih]
    · simp only [List.map_cons, List.filter_cons, h, Bool.false_eq_true, if_false, List.sum_cons,
        ih, Nat.zero_add]

variable [DecidableEq κ] {w w' : κ → ν → ℕ} {t t' : HashTable κ ν} {k : κ} {v : ν}

theorem weightAt_of_lookup (h : t.lookup k = some v) : weightAt w t k = w k v := by
  rw [weightAt, h, Option.map_some, Option.getD_some]

theorem weightAt_of_none (h : t.lookup k = none) : weightAt w t k = 0 := by
  rw [weightAt, h, Option.map_none, Option.getD_none]

/-- The sum over the entries is the sum over any keys that include theirs. -/
theorem weigh_eq_sum {S : Finset κ} (h : ∀ k ∈ t.keys, k ∈ S) :
    weigh w t = ∑ k ∈ S, weightAt w t k := by
  have hsub : t.keys.toFinset ⊆ S := fun k hk => h k (List.mem_toFinset.mp hk)
  rw [← Finset.sum_subset hsub, List.sum_toFinset _ t.keys_nodup, AList.keys, List.keys,
    List.map_map]
  · exact congrArg List.sum (List.map_congr_left fun e he =>
      (weightAt_of_lookup (mem_entries.mp he)).symm)
  · intro k _ hk
    exact weightAt_of_none (AList.lookup_eq_none.mpr fun hm =>
      hk (List.mem_toFinset.mpr (AList.mem_keys.mp hm)))

/-- The sum over the entries of one table is at most that of another whose weights are no less at
any key. -/
theorem weigh_mono (h : ∀ k, weightAt w t k ≤ weightAt w' t' k) : weigh w t ≤ weigh w' t' := by
  rw [weigh_eq_sum (S := t.keys.toFinset ∪ t'.keys.toFinset) fun k hk => by simp [hk],
    weigh_eq_sum (S := t.keys.toFinset ∪ t'.keys.toFinset) fun k hk => by simp [hk]]
  exact Finset.sum_le_sum fun k _ => h k

theorem weigh_le_weigh (h : ∀ k v, w k v ≤ w' k v) : weigh w t ≤ weigh w' t := by
  apply weigh_mono
  intro k
  cases hk : t.lookup k with
  | none => rw [weightAt_of_none hk]; exact Nat.zero_le _
  | some v =>
    rw [weightAt_of_lookup hk, weightAt_of_lookup hk]
    exact h k v

theorem weigh_congr (h : ∀ k, weightAt w t k = weightAt w' t' k) : weigh w t = weigh w' t' :=
  Nat.le_antisymm (weigh_mono fun k => (h k).le) (weigh_mono fun k => (h k).ge)

theorem weightAt_le_weigh (w : κ → ν → ℕ) (t : HashTable κ ν) (k : κ) :
    weightAt w t k ≤ weigh w t := by
  rw [weigh_eq_sum (S := insert k t.keys.toFinset) fun k hk => by simp [hk]]
  exact Finset.single_le_sum (fun _ _ => Nat.zero_le _) (Finset.mem_insert_self _ _)

/-- Where only one key weighs, the sum is what it weighs. -/
theorem weigh_single (f : ν → ℕ) (t : HashTable κ ν) (k : κ) :
    weigh (fun k' v => if k' = k then f v else 0) t = ((t.lookup k).map f).getD 0 := by
  rw [weigh_eq_sum (S := insert k t.keys.toFinset) fun k hk => by simp [hk],
    Finset.sum_eq_single k]
  · simp [weightAt]
  · intro k' _ hne
    cases h : t.lookup k' with
    | none => exact weightAt_of_none h
    | some v => rw [weightAt_of_lookup h, if_neg hne]
  · exact fun h => absurd (Finset.mem_insert_self _ _) h

theorem weigh_insert (h : t.lookup k = none) : weigh w (t.insert k v) = w k v + weigh w t := by
  have hkeys : k ∉ t.keys := fun hk => AList.lookup_eq_none.mp h (AList.mem_keys.mpr hk)
  rw [weigh, AList.entries_insert, List.kerase_of_notMem_keys hkeys, List.map_cons, List.sum_cons,
    weigh]

end Weights

section Numbers

variable {κ : Type} [DecidableEq κ]

theorem getD_le_total (t : HashTable κ ℕ) (k : κ) : getD t k 0 ≤ total t := by
  have h := weightAt_le_weigh (fun _ v => v) t k
  rwa [weightAt, Option.map_id'] at h

/-- The total of a table is the sum of its values over any accounts that include its keys. -/
theorem total_eq_sum {t : HashTable κ ℕ} {S : Finset κ} (h : ∀ k ∈ t.keys, k ∈ S) :
    total t = ∑ k ∈ S, getD t k 0 := by
  have hsum : total t = ∑ k ∈ S, weightAt (fun _ v => v) t k :=
    weigh_eq_sum (w := fun _ v => v) h
  rw [hsum]
  exact Finset.sum_congr rfl fun k _ => by rw [weightAt, Option.map_id', getD]

end Numbers

end HashTable
