import Mathlib.Algebra.BigOperators.Intervals
import Mathlib.Algebra.BigOperators.Ring.Finset

/-! Sums over residues.  A sum over the numbers below a bound of what depends on their remainders
counts every remainder as often as the divisor fits into the bound, and once more those that begin
another round. -/

namespace Residues

variable {M : Type*} [CommSemiring M]

theorem sum_range_mod (f : ℕ → M) (m : ℕ) (q : ℕ) {r : ℕ} (hr : r ≤ m) :
    ∑ x ∈ Finset.range (m * q + r), f (x % m) =
      q * ∑ x ∈ Finset.range m, f x + ∑ x ∈ Finset.range r, f x := by
  have hshort : ∀ k ≤ m, ∀ a, ∑ x ∈ Finset.range k, f ((m * a + x) % m) =
      ∑ x ∈ Finset.range k, f x := by
    intro k hk a
    refine Finset.sum_congr rfl fun x hx => ?_
    rw [Nat.mul_add_mod, Nat.mod_eq_of_lt (by have := Finset.mem_range.mp hx; omega)]
  rw [Finset.sum_range_add, hshort r hr]
  congr 1
  induction q with
  | zero => simp
  | succ q ih => rw [Nat.mul_succ, Finset.sum_range_add, ih, hshort m (Nat.le_refl m), Nat.cast_succ,
      add_mul, one_mul]

/-- The part of a sum over which the function is constant. -/
theorem sum_range_of_const {f : ℕ → M} {a b : ℕ} {c : M} (hle : a ≤ b)
    (h : ∀ x, a ≤ x → x < b → f x = c) :
    ∑ x ∈ Finset.range b, f x = ∑ x ∈ Finset.range a, f x + (b - a : ℕ) * c := by
  obtain ⟨k, rfl⟩ := Nat.exists_eq_add_of_le hle
  rw [Finset.sum_range_add, Nat.add_sub_cancel_left]
  congr 1
  rw [Finset.sum_congr rfl fun x hx => h (a + x) (Nat.le_add_right _ _)
    (by have := Finset.mem_range.mp hx; omega), Finset.sum_const, Finset.card_range, nsmul_eq_mul]

end Residues
