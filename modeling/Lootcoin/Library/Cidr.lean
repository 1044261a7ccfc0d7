import Mathlib.Algebra.Order.Ring.Nat
import Mathlib.Data.Nat.Bitwise

/-! Blocks of addresses: the numbers of a width that begin with given bits.  Whether an address is
in a block can be read off a mask of its bits, or off its first digit where the block is given by
bits of that alone. -/

namespace Cidr

/-- The addresses of `w` bits whose first `length` bits are those of `base`. -/
structure Block (w : ℕ) where
  base : ℕ
  length : ℕ

variable {w n r a x rest : ℕ}

def Block.Contains (b : Block w) (a : ℕ) : Prop :=
  a / 2 ^ (w - b.length) = b.base / 2 ^ (w - b.length)

instance (b : Block w) (a : ℕ) : Decidable (b.Contains a) :=
  inferInstanceAs (Decidable (_ = _))

/-- A mask of the high bits clears the low ones. -/
theorem and_highBits (ha : a < 2 ^ w) (hr : r ≤ w) :
    a &&& (2 ^ w - 2 ^ r) = a / 2 ^ r * 2 ^ r := by
  have hmask : 2 ^ w - 2 ^ r = (2 ^ (w - r) - 1) <<< r := by
    rw [Nat.shiftLeft_eq, Nat.sub_mul, ← pow_add, Nat.sub_add_cancel hr, Nat.one_mul]
  apply Nat.eq_of_testBit_eq
  intro i
  rw [hmask, Nat.testBit_and, Nat.testBit_shiftLeft, Nat.testBit_two_pow_sub_one,
    Nat.testBit_mul_two_pow, Nat.testBit_div_two_pow]
  by_cases hi : r ≤ i
  · rw [Nat.sub_add_cancel hi]
    by_cases hiw : i < w
    · simp [hi, show i - r < w - r by omega]
    · have hzero : a.testBit i = false :=
        Nat.testBit_lt_two_pow (ha.trans_le (Nat.pow_le_pow_right (by decide) (by omega)))
      simp [hzero]
  · simp [hi]

/-- A mask of as many bits as are given finds the addresses of a block. -/
theorem Block.contains_iff_and {b : Block w} (ha : a < 2 ^ w) (hb : b.base < 2 ^ w) :
    b.Contains a ↔
      a &&& (2 ^ w - 2 ^ (w - b.length)) = b.base &&& (2 ^ w - 2 ^ (w - b.length)) := by
  rw [and_highBits ha (Nat.sub_le _ _), and_highBits hb (Nat.sub_le _ _),
    Nat.mul_left_inj (Nat.two_pow_pos _).ne']
  rfl

/-- The block of the addresses that begin with an address of another block. -/
def Block.extend (b : Block w) (n : ℕ) : Block (w + n) := ⟨b.base * 2 ^ n, b.length⟩

/-- Only the first digit of an address matters to a block that is given by bits of the digit. -/
theorem Block.contains_extend {b : Block w} (hlength : b.length ≤ w) (hrest : rest < 2 ^ n) :
    (b.extend n).Contains (x * 2 ^ n + rest) ↔ b.Contains x := by
  have hexp : w + n - b.length = n + (w - b.length) := by omega
  have hx : (x * 2 ^ n + rest) / 2 ^ n = x := by
    rw [Nat.mul_comm, Nat.mul_add_div (Nat.two_pow_pos n), Nat.div_eq_of_lt hrest, Nat.add_zero]
  rw [Contains, Contains, extend, hexp, pow_add, ← Nat.div_div_eq_div_mul, hx,
    ← Nat.div_div_eq_div_mul, Nat.mul_div_cancel _ (Nat.two_pow_pos n)]

/-- A block of full length holds one address. -/
theorem Block.contains_full {b : Block w} (h : b.length = w) : b.Contains a ↔ a = b.base := by
  rw [Contains, h, Nat.sub_self, Nat.pow_zero, Nat.div_one, Nat.div_one]

end Cidr
