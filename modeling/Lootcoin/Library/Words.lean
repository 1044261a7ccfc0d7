import Mathlib.Algebra.GroupWithZero.Nat
import Mathlib.Algebra.Order.BigOperators.Group.List
import Mathlib.Tactic.Common

/-! Unsigned arithmetic of a fixed width on natural numbers: operations that wrap, saturate, or
report an overflow.  A word of width `w` is a number below `2 ^ w`, and each operation agrees with
the one on numbers while its result is a word. -/

namespace Word

/-- The largest word of width `w`. -/
def maxValue (w : ℕ) : ℕ := 2 ^ w - 1

def wrappingAdd (w a b : ℕ) : ℕ := (a + b) % 2 ^ w

def wrappingSub (w a b : ℕ) : ℕ := (a + (2 ^ w - b % 2 ^ w)) % 2 ^ w

def wrappingMul (w a b : ℕ) : ℕ := (a * b) % 2 ^ w

def saturatingAdd (w a b : ℕ) : ℕ := min (a + b) (maxValue w)

def checkedAdd (w a b : ℕ) : Option ℕ := if a + b < 2 ^ w then some (a + b) else none

/-- `1 << n`, or the largest word when the shift is as long as the word. -/
def shiftOne (w n : ℕ) : ℕ := if n < w then 2 ^ n else maxValue w

/-- The sum of a list, saturating at every step from the left. -/
def saturatingSum (w : ℕ) (l : List ℕ) : ℕ := l.foldl (saturatingAdd w) 0

theorem wrappingAdd_of_lt {w a b : ℕ} (h : a + b < 2 ^ w) : wrappingAdd w a b = a + b :=
  Nat.mod_eq_of_lt h

theorem wrappingSub_of_le {w a b : ℕ} (ha : a < 2 ^ w) (hb : b ≤ a) :
    wrappingSub w a b = a - b := by
  rw [wrappingSub, Nat.mod_eq_of_lt (Nat.lt_of_le_of_lt hb ha),
    show a + (2 ^ w - b) = a - b + 2 ^ w by omega, Nat.add_mod_right, Nat.mod_eq_of_lt (by omega)]

theorem wrappingMul_of_lt {w a b : ℕ} (h : a * b < 2 ^ w) : wrappingMul w a b = a * b :=
  Nat.mod_eq_of_lt h

theorem saturatingAdd_of_lt {w a b : ℕ} (h : a + b < 2 ^ w) : saturatingAdd w a b = a + b :=
  Nat.min_eq_left (by unfold maxValue; omega)

theorem saturatingAdd_mono_right (w a : ℕ) {b c : ℕ} (h : b ≤ c) :
    saturatingAdd w a b ≤ saturatingAdd w a c := by
  unfold saturatingAdd
  omega

theorem checkedAdd_eq_some {w a b c : ℕ} :
    checkedAdd w a b = some c ↔ a + b < 2 ^ w ∧ c = a + b := by
  unfold checkedAdd
  split
  · rename_i h
    simp [h, eq_comm]
  · rename_i h
    simp [h]

theorem foldl_saturatingAdd (w : ℕ) (l : List ℕ) (a : ℕ) (ha : a ≤ maxValue w) :
    l.foldl (saturatingAdd w) a = min (a + l.sum) (maxValue w) := by
  induction l generalizing a with
  | nil => simpa using ha
  | cons x l ih =>
    rw [List.foldl_cons, ih (saturatingAdd w a x) (Nat.min_le_right _ _), List.sum_cons,
      saturatingAdd]
    omega

/-- Saturating at every step saturates the sum. -/
theorem saturatingSum_eq (w : ℕ) (l : List ℕ) : saturatingSum w l = min l.sum (maxValue w) := by
  rw [saturatingSum, foldl_saturatingAdd w l 0 (Nat.zero_le _), Nat.zero_add]

theorem saturatingSum_append (w : ℕ) (l m : List ℕ) :
    saturatingSum w (l ++ m) = saturatingAdd w (saturatingSum w l) (saturatingSum w m) := by
  simp only [saturatingSum_eq, saturatingAdd, List.sum_append]
  omega

theorem saturatingSum_le_append (w : ℕ) (l m : List ℕ) :
    saturatingSum w l ≤ saturatingSum w (l ++ m) := by
  simp only [saturatingSum_eq, List.sum_append]
  omega

/-! ### Operations -/

/-- An operation on words of width `w` that is meant to be exact. -/
inductive Op where
  | add (w a b : ℕ)
  | sub (w a b : ℕ)
  | mul (w a b : ℕ)
  deriving DecidableEq

/-- The exact result is a word. -/
def Op.Fits : Op → Prop
  | .add w a b => a + b < 2 ^ w
  | .sub _ a b => b ≤ a
  | .mul w a b => a * b < 2 ^ w

instance : (op : Op) → Decidable op.Fits
  | .add w a b => inferInstanceAs (Decidable (a + b < 2 ^ w))
  | .sub _ a b => inferInstanceAs (Decidable (b ≤ a))
  | .mul w a b => inferInstanceAs (Decidable (a * b < 2 ^ w))

@[simp] theorem fits_add {w a b : ℕ} : (Op.add w a b).Fits ↔ a + b < 2 ^ w := Iff.rfl

@[simp] theorem fits_sub {w a b : ℕ} : (Op.sub w a b).Fits ↔ b ≤ a := Iff.rfl

@[simp] theorem fits_mul {w a b : ℕ} : (Op.mul w a b).Fits ↔ a * b < 2 ^ w := Iff.rfl

/-- The additions that sum a list from the left. -/
def sumOps (w : ℕ) : ℕ → List ℕ → List Op
  | _, [] => []
  | acc, x :: xs => .add w acc x :: sumOps w (acc + x) xs

theorem sumOps_fit {w acc : ℕ} {l : List ℕ} (h : acc + l.sum < 2 ^ w) :
    ∀ op ∈ sumOps w acc l, op.Fits := by
  induction l generalizing acc with
  | nil => simp [sumOps]
  | cons x xs ih =>
    rw [List.sum_cons] at h
    rw [sumOps, List.forall_mem_cons]
    exact ⟨by rw [fits_add]; omega, ih (by omega)⟩

end Word
