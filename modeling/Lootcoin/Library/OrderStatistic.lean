import Mathlib.Data.List.Sort
import Mathlib.Tactic.Common

/-! Order statistics: the element of a list at a rank, counted from the least.  It is no less than
a bound exactly when no more elements than the rank lie below the bound, so it can be compared
between lists by counting. -/

namespace OrderStatistic

variable {α : Type*} [LinearOrder α]

/-- The element at a rank, when the list is that long. -/
def ranked (l : List α) (i : ℕ) : Option α := (l.insertionSort (· ≤ ·))[i]?

theorem exists_ranked {l : List α} {i : ℕ} (h : i < l.length) : ∃ m, ranked l i = some m := by
  have hi : i < (l.insertionSort (· ≤ ·)).length := by rwa [List.length_insertionSort]
  exact ⟨_, List.getElem?_eq_getElem hi⟩

/-- In a sorted list, the element at `i` is no less than `v` exactly when at most `i` elements lie
below `v`. -/
theorem le_getElem_iff {l : List α} (hl : l.Pairwise (· ≤ ·)) {i : ℕ} {v m : α}
    (hm : l[i]? = some m) : v ≤ m ↔ l.countP (· < v) ≤ i := by
  induction l generalizing i with
  | nil => simp at hm
  | cons x l ih =>
    obtain ⟨hx, hl⟩ := List.pairwise_cons.mp hl
    by_cases hv : x < v
    · rw [List.countP_cons_of_pos (by simpa using hv)]
      cases i with
      | zero =>
        obtain rfl : x = m := by simpa using hm
        exact iff_of_false (not_le.mpr hv) (by omega)
      | succ i =>
        rw [List.getElem?_cons_succ] at hm
        rw [ih hl hm]
        omega
    · -- the first element is the least, so none lies below `v`
      have hnone : (x :: l).countP (· < v) = 0 := by
        rw [List.countP_eq_zero]
        intro y hy
        rcases List.mem_cons.mp hy with rfl | hy
        · simpa using hv
        · simpa using (not_lt.mp hv).trans (hx y hy)
      have hxm : x ≤ m := by
        rcases List.mem_cons.mp (List.mem_of_getElem? hm) with rfl | hmem
        · exact le_rfl
        · exact hx m hmem
      exact iff_of_true ((not_lt.mp hv).trans hxm) (hnone ▸ Nat.zero_le i)

theorem le_ranked_iff {l : List α} {i : ℕ} {v m : α} (hm : ranked l i = some m) :
    v ≤ m ↔ l.countP (· < v) ≤ i := by
  rw [le_getElem_iff (List.pairwise_insertionSort _ l) hm,
    (List.perm_insertionSort (· ≤ ·) l).countP_eq]

/-- Where no more elements lie below the element at a rank than before, the element at that rank or
a later one is no less. -/
theorem ranked_mono {l l' : List α} {i i' : ℕ} {m m' : α} (hm : ranked l i = some m)
    (hm' : ranked l' i' = some m') (hi : i ≤ i')
    (hcount : l'.countP (· < m) ≤ l.countP (· < m)) : m ≤ m' := by
  rw [le_ranked_iff hm']
  have hbelow := (le_ranked_iff hm).mp le_rfl
  omega

end OrderStatistic
