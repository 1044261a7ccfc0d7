import Lootcoin.Library.Double

/-! Decimal texts of doubles.  A double is written with the fewest digits that are rounded to it.  A
reader of best effort takes the digits as a whole number, and moves them by multiplying or dividing
by a power of ten.  It rounds the digits, the power and the result, so that what it reads may not be
what was written. -/

/-- Digits as a number, and the power of ten that they are multiplied by. -/
structure Decimal where
  digits : ℤ
  exponent : ℤ
  deriving DecidableEq

namespace Decimal

open Double

def value (d : Decimal) : ℚ := d.digits * 10 ^ d.exponent

/-- The decimals of an exponent that are next to a number, the nearest one first. -/
def nextTo (q : ℚ) (exponent : ℤ) : List Decimal :=
  let scaled := q / 10 ^ exponent
  [⟨roundHalfEven scaled, exponent⟩, ⟨⌊scaled⌋, exponent⟩, ⟨⌊scaled⌋ + 1, exponent⟩]

/-- The decimals of up to 17 digits that are next to a number, the shortest first. -/
def candidates (q : ℚ) : List Decimal :=
  (List.range 18).flatMap fun n => nextTo q (Int.log 10 |q| + 1 - n)

/-- The shortest decimal that is rounded to a double. -/
def shortest (q : ℚ) : Decimal :=
  ((candidates q).find? fun d => nearest d.value = q).getD ⟨0, 0⟩

/-- A decimal as it is written out: a whole number below `10 ^ 16` with all its digits, a point and
a zero. -/
def written (d : Decimal) : Decimal :=
  if 0 ≤ d.exponent ∧ |d.value| < 10 ^ 16 then ⟨d.digits * 10 ^ (d.exponent.toNat + 1), -1⟩ else d

/-- The number that is read. -/
def read (d : Decimal) : ℚ :=
  if 0 ≤ d.exponent then nearest (nearest d.digits * nearest (10 ^ d.exponent))
  else nearest (nearest d.digits / nearest (10 ^ (-d.exponent)))

/-- The text of a double. -/
def ofDouble (q : ℚ) : Decimal := (shortest q).written

/-- What is read of its text is the double. -/
def ReadsBack (q : ℚ) : Prop := (ofDouble q).read = q

instance (q : ℚ) : Decidable (ReadsBack q) := inferInstanceAs (Decidable (_ = _))

variable {q : ℚ} {d : Decimal}

/-! ### What is written -/

/-- The decimal of 17 digits that is next to a number is close enough to be rounded to it. -/
theorem abs_value_sub_lt (hpos : 0 < q) :
    |(⟨roundHalfEven (q / 10 ^ (Int.log 10 q - 16)), Int.log 10 q - 16⟩ : Decimal).value - q| <
      q / 2 ^ 54 := by
  have hunit : (0 : ℚ) < 10 ^ (Int.log 10 q - 16) := zpow_pos (by norm_num) _
  have hle : (10 : ℚ) ^ (Int.log 10 q - 16) ≤ q / 10 ^ 16 := by
    have hlog : (10 : ℚ) ^ Int.log 10 q ≤ q := by
      exact_mod_cast Int.zpow_log_le_self (by norm_num) hpos
    rw [zpow_sub₀ (by norm_num)]
    exact div_le_div_of_nonneg_right hlog (by norm_num)
  generalize Int.log 10 q - 16 = e at *
  have hround := abs_roundHalfEven_sub_le (q / 10 ^ e)
  have herror : (roundHalfEven (q / 10 ^ e) : ℚ) * 10 ^ e - q =
      (roundHalfEven (q / 10 ^ e) - q / 10 ^ e) * 10 ^ e := by
    rw [sub_mul, div_mul_cancel₀ _ hunit.ne']
  calc |(roundHalfEven (q / 10 ^ e) : ℚ) * 10 ^ e - q|
      = |(roundHalfEven (q / 10 ^ e) : ℚ) - q / 10 ^ e| * 10 ^ e := by
        rw [herror, abs_mul, abs_of_pos hunit]
    _ ≤ 1 / 2 * (q / 10 ^ 16) := mul_le_mul hround hle hunit.le (by norm_num)
    _ < q / 2 ^ 54 := by linarith

/-- Seventeen digits are enough: the text of a double is rounded to it. -/
theorem nearest_shortest (hq : nearest q = q) (hpos : 0 < q) : nearest (shortest q).value = q := by
  have hmem : (⟨roundHalfEven (q / 10 ^ (Int.log 10 q - 16)), Int.log 10 q - 16⟩ : Decimal) ∈
      candidates q := by
    refine List.mem_flatMap.mpr ⟨17, by decide, ?_⟩
    have hexp : Int.log 10 |q| + 1 - 17 = Int.log 10 q - 16 := by
      rw [abs_of_pos hpos]
      omega
    show _ ∈ nextTo q (Int.log 10 |q| + 1 - 17)
    rw [hexp]
    exact List.mem_cons_self
  have hsome : ((candidates q).find? fun d => nearest d.value = q).isSome := by
    rw [List.find?_isSome]
    exact ⟨_, hmem, decide_eq_true (nearest_eq_of_close hq hpos (abs_value_sub_lt hpos))⟩
  obtain ⟨d, hd⟩ := Option.isSome_iff_exists.mp hsome
  have hfound := List.find?_some hd
  rw [shortest, hd, Option.getD_some]
  exact of_decide_eq_true hfound

/-- All digits and a zero behind the point are the same number. -/
theorem value_written : d.written.value = d.value := by
  unfold written
  split
  · rename_i h
    obtain ⟨e, he⟩ := Int.eq_ofNat_of_zero_le h.1
    rw [value, value, he]
    push_cast
    rw [Int.toNat_natCast, zpow_neg_one, zpow_natCast, pow_succ]
    ring
  · rfl

/-! ### What is read -/

/-- The powers of ten up to this one are doubles. -/
theorem nearest_ten_pow : ∀ k ≤ 22, nearest (10 ^ k) = 10 ^ k := by
  decide +kernel

/-- Where the digits and the power are doubles, only the result is rounded. -/
theorem read_eq (hlow : 0 ≤ d.digits) (hhigh : d.digits ≤ 2 ^ 53) (hexp : |d.exponent| ≤ 22) :
    d.read = nearest d.value := by
  have hdigits : nearest d.digits = d.digits := by
    obtain ⟨n, hn⟩ := Int.eq_ofNat_of_zero_le hlow
    rw [hn] at hhigh ⊢
    exact nearest_natCast (by exact_mod_cast hhigh)
  obtain ⟨hmin, hmax⟩ := abs_le.mp hexp
  rw [read, value, hdigits]
  split
  · rename_i h
    obtain ⟨e, he⟩ := Int.eq_ofNat_of_zero_le h
    rw [he, zpow_natCast, nearest_ten_pow e (by omega)]
  · obtain ⟨e, he⟩ : ∃ e : ℕ, -d.exponent = e := Int.eq_ofNat_of_zero_le (by omega)
    have hneg : d.exponent = -(e : ℤ) := by omega
    rw [he, hneg, zpow_neg, zpow_natCast, nearest_ten_pow e (by omega), div_eq_mul_inv]

/-- A double whose text has few digits is read back: numbers of 15 digits are doubles. -/
theorem readsBack_of_few_digits (hq : nearest q = q) (hpos : 0 < q)
    (hlow : 0 ≤ (ofDouble q).digits) (hhigh : (ofDouble q).digits ≤ 2 ^ 53)
    (hexp : |(ofDouble q).exponent| ≤ 22) : ReadsBack q := by
  rw [ReadsBack, read_eq hlow hhigh hexp, ofDouble, value_written, nearest_shortest hq hpos]

end Decimal
