import Mathlib.Algebra.Order.Floor.Ring
import Mathlib.Data.Int.Log
import Mathlib.Data.Rat.Floor
import Mathlib.Tactic.Ring

/-! Rounding to double precision: the nearest rational with 53 significant bits, and of two that are
equally near the one whose last bit is zero.  The limits of the exponent are left out. -/

namespace Double

/-- The nearest integer, and of two the even one. -/
def roundHalfEven (q : ℚ) : ℤ :=
  if Int.fract q < 1 / 2 then ⌊q⌋
  else if 1 / 2 < Int.fract q then ⌊q⌋ + 1
  else if Even ⌊q⌋ then ⌊q⌋
  else ⌊q⌋ + 1

/-- The distance between the doubles that are as large as a number. -/
def spacing (q : ℚ) : ℚ := 2 ^ (Int.log 2 |q| - 52)

def nearest (q : ℚ) : ℚ := roundHalfEven (q / spacing q) * spacing q

theorem roundHalfEven_intCast (k : ℤ) : roundHalfEven k = k := by
  rw [roundHalfEven, Int.fract_intCast, if_pos (by norm_num), Int.floor_intCast]

theorem spacing_pos (q : ℚ) : 0 < spacing q := zpow_pos (by norm_num) _

/-- The multiples of their own spacing are doubles. -/
theorem nearest_eq_self {q : ℚ} {k : ℤ} (h : q = k * spacing q) : nearest q = q := by
  have hdiv : q / spacing q = k := by
    rw [div_eq_iff (spacing_pos q).ne']
    exact h
  rw [nearest, hdiv, roundHalfEven_intCast, ← h]

/-- Natural numbers of at most 53 bits are doubles, and so is the first of 54 bits. -/
theorem nearest_natCast {n : ℕ} (h : n ≤ 2 ^ 53) : nearest n = n := by
  have habs : Int.log 2 |(n : ℚ)| = Nat.log 2 n := by
    rw [Nat.abs_cast, Int.log_natCast]
  rcases Nat.lt_or_eq_of_le h with hlt | rfl
  · -- the spacing is one over a power of two
    have hlog : Nat.log 2 n ≤ 52 := Nat.lt_succ_iff.mp (Nat.log_lt_of_lt_pow' (by decide) hlt)
    apply nearest_eq_self (k := n * 2 ^ (52 - Nat.log 2 n))
    have hexp : (Nat.log 2 n : ℤ) - 52 = -((52 - Nat.log 2 n : ℕ) : ℤ) := by omega
    rw [spacing, habs, hexp, zpow_neg, zpow_natCast]
    push_cast
    rw [mul_assoc, mul_inv_cancel₀ (pow_ne_zero _ (by norm_num)), mul_one]
  · apply nearest_eq_self (k := 2 ^ 52)
    rw [spacing, habs, Nat.log_pow (by decide)]
    norm_num

/-! ### The error of a rounding -/

theorem abs_roundHalfEven_sub_le (q : ℚ) : |(roundHalfEven q : ℚ) - q| ≤ 1 / 2 := by
  have hsplit := Int.floor_add_fract q
  have hlow := Int.fract_nonneg q
  have hhigh := Int.fract_lt_one q
  rw [abs_le]
  unfold roundHalfEven
  split
  · constructor <;> linarith
  split
  · push_cast
    constructor <;> linarith
  split
  · constructor <;> linarith
  · push_cast
    constructor <;> linarith

theorem abs_nearest_sub_le {q : ℚ} (hq : q ≠ 0) : |nearest q - q| ≤ |q| / 2 ^ 53 := by
  have hspacing := spacing_pos q
  have hlog : spacing q ≤ |q| / 2 ^ 52 := by
    have hle : (2 : ℚ) ^ Int.log 2 |q| ≤ |q| := by
      exact_mod_cast Int.zpow_log_le_self (by norm_num) (abs_pos.mpr hq)
    rw [spacing, zpow_sub₀ (by norm_num)]
    exact div_le_div_of_nonneg_right hle (by norm_num)
  have hround := abs_roundHalfEven_sub_le (q / spacing q)
  have herror : nearest q - q = (roundHalfEven (q / spacing q) - q / spacing q) * spacing q := by
    rw [sub_mul, div_mul_cancel₀ _ hspacing.ne', nearest]
  calc |nearest q - q| = |(roundHalfEven (q / spacing q) : ℚ) - q / spacing q| * spacing q := by
        rw [herror, abs_mul, abs_of_pos hspacing]
    _ ≤ 1 / 2 * (|q| / 2 ^ 52) :=
        mul_le_mul hround hlog hspacing.le (by norm_num)
    _ = |q| / 2 ^ 53 := by ring

/-- The floor of the rounded quotient of numbers below 53 bits is the quotient: the error is smaller
than the distance to the next whole number. -/
theorem floor_nearest_div {a b : ℕ} (ha : a < 2 ^ 53) (hb : 0 < b) :
    ⌊nearest ((a : ℚ) / b)⌋ = (a / b : ℕ) := by
  have hbq : (0 : ℚ) < b := by exact_mod_cast hb
  have hsum : (a : ℚ) / b = (a / b : ℕ) + ((a % b : ℕ) : ℚ) / b := by
    have hsplit : (a : ℚ) = b * (a / b : ℕ) + (a % b : ℕ) := by
      exact_mod_cast (Nat.div_add_mod a b).symm
    rw [div_eq_iff hbq.ne', add_mul, div_mul_cancel₀ _ hbq.ne']
    linarith
  rcases Nat.eq_zero_or_pos (a % b) with hexact | hrest
  · rw [hsum, hexact, Nat.cast_zero, zero_div, add_zero,
      nearest_natCast ((Nat.div_le_self _ _).trans ha.le), Int.floor_natCast]
  have hapos : (0 : ℚ) < a := by
    have : 0 < a := Nat.pos_of_ne_zero fun h => by simp [h] at hrest
    exact_mod_cast this
  have hquotient : (0 : ℚ) < a / b := div_pos hapos hbq
  have herror := abs_nearest_sub_le hquotient.ne'
  rw [abs_of_pos hquotient] at herror
  have hsmall : (a : ℚ) / b / 2 ^ 53 < 1 / b := by
    rw [div_div, div_lt_div_iff₀ (by positivity) hbq, one_mul]
    have hlt : (a : ℚ) < 2 ^ 53 := by exact_mod_cast ha
    nlinarith
  obtain ⟨hlow, -⟩ := abs_le.mp (herror.trans hsmall.le)
  -- the quotient keeps a distance of one part of the divisor from both whole numbers beside it
  have hone : (1 : ℚ) / b ≤ ((a % b : ℕ) : ℚ) / b :=
    div_le_div_of_nonneg_right (by exact_mod_cast hrest) hbq.le
  have hnext : ((a % b : ℕ) : ℚ) / b + 1 / b ≤ 1 := by
    rw [← add_div, div_le_one hbq]
    exact_mod_cast Nat.mod_lt a hb
  rw [Int.floor_eq_iff, Int.cast_natCast]
  constructor
  · linarith
  · linarith [(abs_le.mp herror).2]

/-- A positive number up to one half is rounded to less than one. -/
theorem floor_nearest_of_le_half {q : ℚ} (hpos : 0 < q) (hle : q ≤ 1 / 2) : ⌊nearest q⌋ = 0 := by
  have herror := abs_nearest_sub_le hpos.ne'
  rw [abs_of_pos hpos] at herror
  obtain ⟨hlow, hhigh⟩ := abs_le.mp herror
  rw [Int.floor_eq_iff, Int.cast_zero]
  constructor
  · linarith
  · linarith

/-- A number is not rounded to less than its half. -/
theorem half_le_nearest {q : ℚ} (hpos : 0 < q) : q / 2 ≤ nearest q := by
  have herror := abs_nearest_sub_le hpos.ne'
  rw [abs_of_pos hpos] at herror
  obtain ⟨hlow, -⟩ := abs_le.mp herror
  linarith

/-! ### Which numbers are rounded to a double -/

theorem roundHalfEven_of_lt {q : ℚ} {k : ℤ} (h : |q - k| < 1 / 2) : roundHalfEven q = k := by
  have hround := abs_roundHalfEven_sub_le q
  have hlt : |(roundHalfEven q : ℚ) - k| < 1 := by
    calc |(roundHalfEven q : ℚ) - k| ≤ |(roundHalfEven q : ℚ) - q| + |q - k| := abs_sub_le _ _ _
      _ < 1 := by linarith
  have hone : |roundHalfEven q - k| < 1 := by exact_mod_cast hlt
  rw [Int.abs_lt_one_iff] at hone
  omega

/-- A multiple of the spacing that is less than half of it away is the nearest double. -/
theorem nearest_of_lt {x : ℚ} {k : ℤ} (h : |x - k * spacing x| < spacing x / 2) :
    nearest x = k * spacing x := by
  have hpos := spacing_pos x
  have hscaled : |x / spacing x - k| < 1 / 2 := by
    have hdiv : x / spacing x - k = (x - k * spacing x) / spacing x := by
      rw [sub_div, mul_div_cancel_right₀ _ hpos.ne']
    rw [hdiv, abs_div, abs_of_pos hpos, div_lt_iff₀ hpos]
    linarith
  rw [nearest, roundHalfEven_of_lt hscaled]

/-- The spacing between a power of two and the next one. -/
theorem spacing_eq {q : ℚ} {e : ℤ} (hlow : (2 : ℚ) ^ e ≤ q) (hhigh : q < 2 ^ (e + 1)) :
    spacing q = 2 ^ e / 2 ^ 52 := by
  have hpos : 0 < q := (zpow_pos (by norm_num) e).trans_le hlow
  have hle : e ≤ Int.log 2 q :=
    (Int.zpow_le_iff_le_log (by norm_num) hpos).mp (by exact_mod_cast hlow)
  have hlt : Int.log 2 q < e + 1 :=
    (Int.lt_zpow_iff_log_lt (by norm_num) hpos).mp (by exact_mod_cast hhigh)
  have hlog : Int.log 2 q = e := by omega
  rw [spacing, abs_of_pos hpos, hlog, zpow_sub₀ (by norm_num)]
  norm_cast

/-- A positive number lies between two powers of two. -/
theorem exists_zpow_le {q : ℚ} (hpos : 0 < q) : ∃ e : ℤ, (2 : ℚ) ^ e ≤ q ∧ q < 2 ^ (e + 1) := by
  refine ⟨Int.log 2 q, ?_, ?_⟩
  · exact_mod_cast Int.zpow_log_le_self (by norm_num) hpos
  · exact_mod_cast Int.lt_zpow_succ_log_self (by norm_num) q

/-- A double between two powers of two is one of the multiples of their spacing. -/
theorem exists_eq_mul_spacing {q : ℚ} (hq : nearest q = q) : ∃ m : ℤ, q = m * spacing q :=
  ⟨roundHalfEven (q / spacing q), hq.symm⟩

/-- The powers of two around a number as multiples of its spacing. -/
theorem zpow_eq_mul_spacing {q : ℚ} {e : ℤ} (hlow : (2 : ℚ) ^ e ≤ q) (hhigh : q < 2 ^ (e + 1)) :
    (2 : ℚ) ^ e = 2 ^ 52 * spacing q ∧ (2 : ℚ) ^ (e + 1) = 2 ^ 53 * spacing q := by
  have hpower : (2 : ℚ) ^ e = 2 ^ 52 * spacing q := by
    rw [spacing_eq hlow hhigh]
    ring
  refine ⟨hpower, ?_⟩
  rw [zpow_add₀ (by norm_num), zpow_one, hpower]
  ring

/-- A double from a power of two on that has a close number below the power is the power. -/
theorem eq_zpow_of_close {q x : ℚ} {e : ℤ} (hq : nearest q = q) (hlow : (2 : ℚ) ^ e ≤ q)
    (hhigh : q < 2 ^ (e + 1)) (h : |x - q| < q / 2 ^ 54) (hbelow : x < 2 ^ e) : q = 2 ^ e := by
  obtain ⟨m, hm⟩ := exists_eq_mul_spacing hq
  have hunit := spacing_pos q
  obtain ⟨hpower, hnext⟩ := zpow_eq_mul_spacing hlow hhigh
  obtain ⟨hleft, -⟩ := abs_lt.mp h
  rw [hpower] at hlow hbelow ⊢
  rw [hnext] at hhigh
  generalize spacing q = u at *
  have hlower : (2 : ℚ) ^ 52 ≤ m := le_of_mul_le_mul_right (by linarith) hunit
  have hupper : (m : ℚ) < 2 ^ 52 + 1 := lt_of_mul_lt_mul_right (by linarith) hunit.le
  have hexact : m = 2 ^ 52 := by
    have hlower' : (2 : ℤ) ^ 52 ≤ m := by exact_mod_cast hlower
    have hupper' : m < 2 ^ 52 + 1 := by exact_mod_cast hupper
    omega
  rw [hm, hexact]
  norm_cast

/-- Below a power of two the spacing is half as wide. -/
theorem nearest_eq_zpow {x : ℚ} {e : ℤ} (h : |x - 2 ^ e| < 2 ^ e / 2 ^ 54) (hbelow : x < 2 ^ e) :
    nearest x = 2 ^ e := by
  have hpos : (0 : ℚ) < 2 ^ e := zpow_pos (by norm_num) e
  have hhalf : (2 : ℚ) ^ (e - 1) = 2 ^ e / 2 := by rw [zpow_sub₀ (by norm_num), zpow_one]
  obtain ⟨hleft, -⟩ := abs_lt.mp h
  have hspacing : spacing x = 2 ^ e / 2 ^ 53 := by
    rw [spacing_eq (e := e - 1) (by linarith) (by rwa [sub_add_cancel]), hhalf]
    ring
  have hmultiple : (2 : ℚ) ^ e = ((2 ^ 53 : ℤ) : ℚ) * spacing x := by
    rw [hspacing]
    push_cast
    ring
  rw [hmultiple]
  refine nearest_of_lt ?_
  rw [← hmultiple, hspacing]
  linarith

/-- What is close to a double and from the same power of two on is rounded to it. -/
theorem nearest_eq_of_ge {q x : ℚ} {e : ℤ} (hq : nearest q = q) (hlow : (2 : ℚ) ^ e ≤ q)
    (hhigh : q < 2 ^ (e + 1)) (h : |x - q| < q / 2 ^ 54) (habove : 2 ^ e ≤ x) :
    nearest x = q := by
  obtain ⟨m, hm⟩ := exists_eq_mul_spacing hq
  have hunit := spacing_pos q
  have hspacing := spacing_eq hlow hhigh
  obtain ⟨-, hnext⟩ := zpow_eq_mul_spacing hlow hhigh
  obtain ⟨-, hright⟩ := abs_lt.mp h
  generalize spacing q = u at *
  have hupper : m ≤ 2 ^ 53 - 1 := by
    have hlt : (m : ℚ) < 2 ^ 53 := lt_of_mul_lt_mul_right (by linarith) hunit.le
    exact Int.le_sub_one_of_lt (by exact_mod_cast hlt)
  have hq' : q ≤ (2 ^ 53 - 1) * u := by
    rw [hm]
    exact mul_le_mul_of_nonneg_right (by exact_mod_cast hupper) hunit.le
  have hspacing' : spacing x = u := by
    rw [spacing_eq habove (by linarith), ← hspacing]
  rw [hm, ← hspacing']
  refine nearest_of_lt ?_
  rw [hspacing', ← hm]
  linarith

/-- What differs from a double by less than a part of `2 ^ 54` is rounded to it. -/
theorem nearest_eq_of_close {q x : ℚ} (hq : nearest q = q) (hpos : 0 < q)
    (h : |x - q| < q / 2 ^ 54) : nearest x = q := by
  obtain ⟨e, hlow, hhigh⟩ := exists_zpow_le hpos
  rcases lt_or_ge x (2 ^ e) with hbelow | habove
  · obtain rfl := eq_zpow_of_close hq hlow hhigh h hbelow
    exact nearest_eq_zpow h hbelow
  · exact nearest_eq_of_ge hq hlow hhigh h habove

theorem le_roundHalfEven {q : ℚ} {k : ℤ} (h : (k : ℚ) ≤ q) : k ≤ roundHalfEven q := by
  obtain ⟨hlow, -⟩ := abs_le.mp (abs_roundHalfEven_sub_le q)
  have hlt : (k : ℚ) < roundHalfEven q + 1 := by linarith
  exact Int.lt_add_one_iff.mp (by exact_mod_cast hlt)

theorem roundHalfEven_le {q : ℚ} {k : ℤ} (h : q ≤ k) : roundHalfEven q ≤ k := by
  obtain ⟨-, hhigh⟩ := abs_le.mp (abs_roundHalfEven_sub_le q)
  have hlt : (roundHalfEven q : ℚ) < k + 1 := by linarith
  exact Int.lt_add_one_iff.mp (by exact_mod_cast hlt)

/-- What is rounded is a double. -/
theorem nearest_nearest {x : ℚ} (hpos : 0 < x) : nearest (nearest x) = nearest x := by
  obtain ⟨e, hlow, hhigh⟩ := exists_zpow_le hpos
  have hunit := spacing_pos x
  have hspacing := spacing_eq hlow hhigh
  obtain ⟨hpower, hnext⟩ := zpow_eq_mul_spacing hlow hhigh
  have hlower : 2 ^ 52 ≤ roundHalfEven (x / spacing x) := by
    apply le_roundHalfEven
    rw [le_div_iff₀ hunit]
    push_cast
    linarith
  have hupper : roundHalfEven (x / spacing x) ≤ 2 ^ 53 := by
    apply roundHalfEven_le
    rw [div_le_iff₀ hunit]
    push_cast
    linarith
  have hlower' : (2 : ℚ) ^ 52 ≤ roundHalfEven (x / spacing x) := by exact_mod_cast hlower
  rcases Int.lt_or_eq_of_le hupper with hlt | heq
  · have hlt' : (roundHalfEven (x / spacing x) : ℚ) < 2 ^ 53 := by exact_mod_cast hlt
    have hsame : spacing (nearest x) = spacing x := by
      rw [spacing_eq (e := e), ← hspacing]
      · rw [hpower, nearest]
        exact mul_le_mul_of_nonneg_right hlower' hunit.le
      · rw [hnext, nearest]
        exact mul_lt_mul_of_pos_right hlt' hunit
    apply nearest_eq_self (k := roundHalfEven (x / spacing x))
    rw [hsame, nearest]
  · -- rounded up to the next power of two
    have hvalue : nearest x = 2 ^ (e + 1) := by
      rw [nearest, heq, hnext]
      norm_cast
    rw [hvalue]
    apply nearest_eq_self (k := 2 ^ 52)
    rw [spacing_eq (e := e + 1) (le_refl _) (zpow_lt_zpow_right₀ (by norm_num) (by omega))]
    push_cast
    ring

end Double
