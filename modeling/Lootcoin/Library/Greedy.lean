import Mathlib.Data.List.Perm.Subperm
import Mathlib.Algebra.GroupWithZero.Nat
import Mathlib.Algebra.Order.BigOperators.Group.List

/-! Greedy choice: of a list in falling order of weight, the first elements weigh the most of all
choices of so many, and what they leave weighs no more than any of them. -/

namespace Greedy

variable {α : Type*} {f : α → ℕ} {l l' : List α} {k : ℕ} {x y : α}

theorem sum_le_of_sublist (hsorted : l.Pairwise fun a b => f b ≤ f a) (hsub : l'.Sublist l)
    (hlength : l'.length ≤ k) : (l'.map f).sum ≤ ((l.take k).map f).sum := by
  induction l generalizing l' k with
  | nil =>
    rw [List.sublist_nil.mp hsub]
    exact Nat.zero_le _
  | cons a l ih =>
    obtain ⟨ha, hsorted⟩ := List.pairwise_cons.mp hsorted
    cases l' with
    | nil => exact Nat.zero_le _
    | cons x l' =>
      obtain ⟨k, rfl⟩ := Nat.exists_eq_add_one.mpr (Nat.zero_lt_of_lt hlength)
      rw [List.take_succ_cons, List.map_cons, List.map_cons, List.sum_cons, List.sum_cons]
      apply Nat.add_le_add
      · rcases List.mem_cons.mp (hsub.subset List.mem_cons_self) with rfl | hx
        · exact Nat.le_refl _
        · exact ha x hx
      · exact ih hsorted hsub.tail (Nat.succ_le_succ_iff.mp hlength)

/-- No choice of so many elements weighs more than the first ones do. -/
theorem sum_le_sum_take (hsorted : l.Pairwise fun a b => f b ≤ f a) (hsub : l'.Subperm l)
    (hlength : l'.length ≤ k) : (l'.map f).sum ≤ ((l.take k).map f).sum := by
  obtain ⟨m, hperm, hm⟩ := hsub
  rw [← (hperm.map f).sum_eq]
  exact sum_le_of_sublist hsorted hm (hperm.length_eq.trans_le hlength)

/-- What is left out is left out for as many as there is room for, each at least as heavy. -/
theorem length_take_of_notMem (hx : x ∈ l) (hout : x ∉ l.take k) : (l.take k).length = k := by
  rw [List.length_take, Nat.min_eq_left]
  by_contra hshort
  rw [List.take_of_length_le (by omega)] at hout
  exact hout hx

theorem le_of_notMem_take (hsorted : l.Pairwise fun a b => f b ≤ f a) (hx : x ∈ l)
    (hout : x ∉ l.take k) (hy : y ∈ l.take k) : f x ≤ f y := by
  rw [← List.take_append_drop k l] at hsorted hx
  have hdrop := (List.mem_append.mp hx).resolve_left hout
  exact (List.pairwise_append.mp hsorted).2.2 y hy x hdrop

end Greedy
