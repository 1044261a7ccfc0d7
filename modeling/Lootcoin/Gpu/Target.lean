import Mathlib.Analysis.SpecialFunctions.Pow.Real
import Mathlib.Tactic.Linarith
import Lootcoin.Chain.Fork
import Lootcoin.Encoding
import Lootcoin.Library.Double

/-! The difficulty test of the graphics card.  The kernel compares a hash with the target byte by
byte: whole zero bytes first, and then the digits of a threshold in base 256, each the integer part
of what is left.  The comparison is that of the hash, as a number, with the threshold, as long as
the threshold has no more digits than the hash.  Numbers below a power of two are those with so many
leading zero bits, which is what a chain of blocks is weighed by. -/

namespace Lootcoin

/-! ### Numbers with the highest byte first -/

theorem fromLittleEndian_append_singleton (bs : Bytes) (b : Byte) :
    fromLittleEndian (bs ++ [b]) = fromLittleEndian bs + 256 ^ bs.length * b.val := by
  induction bs with
  | nil => simp [fromLittleEndian]
  | cons c bs ih =>
    rw [List.cons_append, fromLittleEndian, ih, fromLittleEndian, List.length_cons, pow_succ]
    ring

theorem fromBigEndian_cons (b : Byte) (bs : Bytes) :
    fromBigEndian (b :: bs) = b.val * 256 ^ bs.length + fromBigEndian bs := by
  rw [fromBigEndian, List.reverse_cons, fromLittleEndian_append_singleton, List.length_reverse,
    fromBigEndian]
  ring

theorem fromBigEndian_lt (bs : Bytes) : fromBigEndian bs < 256 ^ bs.length := by
  induction bs with
  | nil => simp [fromBigEndian, fromLittleEndian]
  | cons b bs ih =>
    have hb : b.val * 256 ^ bs.length ≤ 255 * 256 ^ bs.length :=
      Nat.mul_le_mul_right _ (Nat.le_of_lt_succ b.isLt)
    rw [fromBigEndian_cons, List.length_cons, pow_succ]
    omega

theorem fromBigEndian_append (bs cs : Bytes) :
    fromBigEndian (bs ++ cs) = fromBigEndian bs * 256 ^ cs.length + fromBigEndian cs := by
  induction bs with
  | nil => simp [fromBigEndian, fromLittleEndian]
  | cons b bs ih =>
    rw [List.cons_append, fromBigEndian_cons, ih, fromBigEndian_cons, List.length_append, pow_add]
    ring

theorem fromBigEndian_eq_zero {bs : Bytes} (h : ∀ b ∈ bs, b = 0) : fromBigEndian bs = 0 := by
  induction bs with
  | nil => rfl
  | cons b bs ih =>
    rw [fromBigEndian_cons, h b List.mem_cons_self, ih fun c hc => h c (List.mem_cons_of_mem _ hc)]
    simp

theorem fromBigEndian_pos {bs : Bytes} {b : Byte} (hb : b ∈ bs) (hne : b ≠ 0) :
    0 < fromBigEndian bs := by
  induction bs with
  | nil => cases hb
  | cons c bs ih =>
    rw [fromBigEndian_cons]
    rcases List.mem_cons.mp hb with rfl | hb
    · have hpos : 0 < b.val := Nat.pos_of_ne_zero fun h => hne (Fin.ext h)
      exact Nat.add_pos_left (Nat.mul_pos hpos (Nat.pow_pos (by decide))) _
    · exact Nat.add_pos_right _ (ih hb)

/-- A hash has so many leading zero bits exactly when it lies below the power of two. -/
theorem le_leadingZeroBits_iff {bs : Bytes} {k : ℕ} (hk : k ≤ 8 * bs.length) :
    k ≤ leadingZeroBits bs ↔ fromBigEndian bs < 2 ^ (8 * bs.length - k) := by
  induction bs generalizing k with
  | nil =>
    obtain rfl : k = 0 := by simpa using hk
    simp [fromBigEndian, fromLittleEndian]
  | cons b bs ih =>
    have hpow : (256 : ℕ) ^ bs.length = 2 ^ (8 * bs.length) := by
      rw [pow_mul]
      norm_num
    have hlt := fromBigEndian_lt bs
    rw [List.length_cons] at hk ⊢
    rw [leadingZeroBits, fromBigEndian_cons, hpow]
    rw [hpow] at hlt
    split
    · rename_i hzero
      rw [hzero, Fin.val_zero, Nat.zero_mul, Nat.zero_add]
      by_cases hk8 : k ≤ 8
      · refine iff_of_true (hk8.trans (Nat.le_add_right 8 _)) (hlt.trans_le ?_)
        exact Nat.pow_le_pow_right (by decide) (by omega)
      · have := ih (k := k - 8) (by omega)
        rw [show 8 * (bs.length + 1) - k = 8 * bs.length - (k - 8) by omega, ← this]
        omega
    · rename_i hne
      have hpos : 0 < b.val := Nat.pos_of_ne_zero fun h => hne (Fin.ext h)
      have hlog : b.val.log2 ≤ 7 := Nat.le_of_lt_succ ((Nat.log2_lt hpos.ne').mpr b.isLt)
      rw [byteLeadingZeros]
      by_cases hk8 : k ≤ 8
      · rw [show 8 * (bs.length + 1) - k = (8 - k) + 8 * bs.length by omega, pow_add]
        have hbyte : b.val < 2 ^ (8 - k) ↔ k ≤ 7 - b.val.log2 := by
          rw [← Nat.log2_lt hpos.ne']
          omega
        rw [← hbyte]
        constructor
        · intro hb
          have := Nat.mul_le_mul_right (2 ^ (8 * bs.length)) (Nat.succ_le_of_lt hb)
          rw [Nat.succ_mul] at this
          omega
        · intro hv
          refine Nat.lt_of_mul_lt_mul_right (a := 2 ^ (8 * bs.length)) ?_
          omega
      · refine iff_of_false (by omega) (Nat.not_lt.mpr ?_)
        calc 2 ^ (8 * (bs.length + 1) - k) ≤ 2 ^ (8 * bs.length) :=
              Nat.pow_le_pow_right (by decide) (by omega)
          _ ≤ b.val * 2 ^ (8 * bs.length) := Nat.le_mul_of_pos_left _ hpos
          _ ≤ _ := Nat.le_add_right _ _

namespace Kernel

/-! ### The test of the kernel -/

/-- Compares bytes with the digits of a threshold in base 256, until they differ or one runs out. -/
def digitsBelow : Bytes → ℚ → Bool
  | [], threshold => 0 < threshold - ⌊threshold⌋
  | b :: bs, threshold =>
    if (b.val : ℚ) < ⌊threshold⌋ then true
    else if ⌊threshold⌋ < (b.val : ℚ) then false
    else if threshold - ⌊threshold⌋ = 0 then false
    else digitsBelow bs ((threshold - ⌊threshold⌋) * 256)

/-- The test of a hash against a difficulty of at most 256 bits. Divisions by eight, floors, and what
they leave are exact in double precision; the power of two, to the rounded exponent, is a
parameter. -/
def meetsDifficultyGpu (pow2 : ℚ → ℚ) (hash : Bytes) (bits : ℚ) : Bool :=
  if bits ≤ 0 then true
  else
    let n := ⌊bits / 8⌋.toNat
    let remainder := bits - n * 8
    if (hash.take n).any fun b => b ≠ 0 then false
    else if remainder = 0 then true
    else digitsBelow (hash.drop n) (pow2 (8 - remainder))

/-- The digits are those of the threshold, so the comparison is that of the numbers. -/
theorem digitsBelow_iff {bs : Bytes} {threshold : ℚ} {k : ℕ} (hk : k < bs.length) {z : ℤ}
    (hz : threshold * 256 ^ k = z) :
    digitsBelow bs threshold = true ↔
      (fromBigEndian bs : ℚ) < threshold * 256 ^ (bs.length - 1) := by
  induction bs generalizing threshold k z with
  | nil => exact absurd hk (Nat.not_lt_zero k)
  | cons b bs ih =>
    have hpos : (0 : ℚ) < 256 ^ bs.length := by positivity
    have hrest : (fromBigEndian bs : ℚ) + 1 ≤ 256 ^ bs.length := by
      exact_mod_cast Nat.succ_le_of_lt (fromBigEndian_lt bs)
    have hle := Int.floor_le threshold
    have hlt := Int.lt_floor_add_one threshold
    have hvalue : (fromBigEndian (b :: bs) : ℚ) =
        b.val * 256 ^ bs.length + fromBigEndian bs := by
      exact_mod_cast fromBigEndian_cons b bs
    have hnonneg : (0 : ℚ) ≤ fromBigEndian bs := Nat.cast_nonneg _
    rw [digitsBelow, List.length_cons, Nat.add_sub_cancel, hvalue]
    split
    · rename_i hb
      -- a smaller digit decides, since what follows is less than one more of it
      have hint : (b.val : ℤ) + 1 ≤ ⌊threshold⌋ := Int.add_one_le_of_lt (by exact_mod_cast hb)
      have hstep : (b.val : ℚ) + 1 ≤ ⌊threshold⌋ := by exact_mod_cast hint
      refine iff_of_true rfl ?_
      have := mul_le_mul_of_nonneg_right (hstep.trans hle) hpos.le
      linarith
    split
    · rename_i hb
      have hint : ⌊threshold⌋ + 1 ≤ (b.val : ℤ) := Int.add_one_le_of_lt (by exact_mod_cast hb)
      have hstep : (⌊threshold⌋ : ℚ) + 1 ≤ b.val := by exact_mod_cast hint
      refine iff_of_false Bool.false_ne_true (not_lt.mpr ?_)
      have := mul_le_mul_of_nonneg_right (hlt.le.trans hstep) hpos.le
      linarith
    rename_i hge hle'
    have hdigit : (b.val : ℚ) = ⌊threshold⌋ := le_antisymm (not_lt.mp hle') (not_lt.mp hge)
    split
    · rename_i hfrac
      refine iff_of_false Bool.false_ne_true (not_lt.mpr ?_)
      rw [hdigit, ← sub_eq_zero.mp hfrac]
      linarith
    · rename_i hfrac
      -- the threshold is no integer, so its digits go on
      obtain ⟨k, rfl⟩ : ∃ j, k = j + 1 := by
        cases k with
        | zero =>
          rw [pow_zero, mul_one] at hz
          exact absurd (by rw [hz, Int.floor_intCast, sub_self]) hfrac
        | succ k => exact ⟨k, rfl⟩
      rw [List.length_cons, Nat.add_lt_add_iff_right] at hk
      have hnext : (threshold - ⌊threshold⌋) * 256 * 256 ^ k =
          ((z - ⌊threshold⌋ * 256 ^ (k + 1) : ℤ) : ℚ) := by
        push_cast
        rw [← hz]
        ring
      rw [ih hk hnext, hdigit, mul_assoc, ← pow_succ',
        Nat.sub_add_cancel (Nat.one_le_of_lt hk), sub_mul]
      constructor <;> intro h <;> linarith

/-- What a power of two in double precision is between zero and eight: from one to 256, and so a
multiple of the distance between doubles above one. -/
structure DoublePower (pow2 : ℚ → ℚ) : Prop where
  le : ∀ x, 0 < x → x < 8 → 1 ≤ pow2 x ∧ pow2 x ≤ 256
  multiple : ∀ x, 0 < x → x < 8 → ∃ z : ℤ, pow2 x * 2 ^ 52 = z
  natCast : ∀ k : ℕ, k < 8 → pow2 k = 2 ^ k

/-- The number below which a hash meets a difficulty. -/
def target (pow2 : ℚ → ℚ) (bits : ℚ) : ℚ :=
  let n := ⌊bits / 8⌋.toNat
  let remainder := bits - n * 8
  (if remainder = 0 then 256 else pow2 (8 - remainder)) * 256 ^ (31 - n)

variable {pow2 : ℚ → ℚ} {hash : Bytes} {bits : ℚ}

/-- The whole bytes of a difficulty and the rest. -/
theorem wholeBytes (hpos : 0 < bits) : ∃ n : ℕ, ⌊bits / 8⌋.toNat = n ∧ 0 ≤ bits - n * 8 ∧
    bits - n * 8 < 8 := by
  have hfloor : (0 : ℤ) ≤ ⌊bits / 8⌋ := Int.floor_nonneg.mpr (by positivity)
  have hcast : ((⌊bits / 8⌋.toNat : ℕ) : ℚ) = (⌊bits / 8⌋ : ℤ) := by
    exact_mod_cast Int.toNat_of_nonneg hfloor
  have hle := Int.floor_le (bits / 8)
  have hlt := Int.lt_floor_add_one (bits / 8)
  refine ⟨_, rfl, ?_, ?_⟩
  · rw [hcast]
    linarith
  · rw [hcast]
    linarith

/-- A hash whose first bytes are not all zero is too large. -/
theorem le_fromBigEndian_of_any {n : ℕ} (hn : n < 32) (hlen : hash.length = 32)
    (hany : ((hash.take n).any fun b => b ≠ 0) = true) :
    256 * 256 ^ (31 - n) ≤ fromBigEndian hash := by
  obtain ⟨b, hb, hne⟩ := List.any_eq_true.mp hany
  have hfirst := fromBigEndian_pos hb (by simpa using hne)
  have hsplit := fromBigEndian_append (hash.take n) (hash.drop n)
  rw [List.take_append_drop, List.length_drop, hlen, show 32 - n = (31 - n) + 1 by omega] at hsplit
  rw [hsplit, ← pow_succ']
  exact (Nat.le_mul_of_pos_left _ hfirst).trans (Nat.le_add_right _ _)

/-- A hash of 32 bytes meets a difficulty below 200 bits exactly when it lies below the target. -/
theorem meetsDifficultyGpu_iff (hp : DoublePower pow2) (hlen : hash.length = 32)
    (hpos : 0 < bits) (hlt : bits < 200) :
    meetsDifficultyGpu pow2 hash bits = true ↔ (fromBigEndian hash : ℚ) < target pow2 bits := by
  obtain ⟨n, hn, hrem, hrem'⟩ := wholeBytes hpos
  have hn25 : n < 25 := by
    have : (n : ℚ) < 25 := by linarith
    exact_mod_cast this
  rw [meetsDifficultyGpu, if_neg (not_le.mpr hpos), target]
  simp only [hn]
  -- the threshold is at most 256
  have hthreshold : (if bits - n * 8 = 0 then 256 else pow2 (8 - (bits - n * 8))) ≤ 256 := by
    split
    · exact le_rfl
    · rename_i hne
      exact (hp.le _ (by linarith) (by have := lt_of_le_of_ne hrem (Ne.symm hne); linarith)).2
  split
  · rename_i hany
    refine iff_of_false Bool.false_ne_true (not_lt.mpr ?_)
    have hlarge := le_fromBigEndian_of_any (by omega) hlen hany
    calc _ ≤ 256 * (256 : ℚ) ^ (31 - n) := mul_le_mul_of_nonneg_right hthreshold (by positivity)
      _ ≤ _ := by exact_mod_cast hlarge
  · rename_i hany
    have hzero : ∀ b ∈ hash.take n, b = 0 := by simpa using hany
    have hdrop : (hash.drop n).length = 31 - n + 1 := by
      rw [List.length_drop, hlen]
      omega
    have hvalue : fromBigEndian hash = fromBigEndian (hash.drop n) := by
      rw [← List.take_append_drop n hash, fromBigEndian_append, fromBigEndian_eq_zero hzero,
        Nat.zero_mul, Nat.zero_add, List.take_append_drop]
    rw [hvalue]
    split
    · refine iff_of_true rfl ?_
      rw [← pow_succ', ← hdrop]
      exact_mod_cast fromBigEndian_lt (hash.drop n)
    · rename_i hne
      have hpow := hp.multiple (8 - (bits - n * 8)) (by linarith)
        (by have := lt_of_le_of_ne hrem (Ne.symm hne); linarith)
      obtain ⟨z, hz⟩ := hpow
      -- seven digits after the first are enough for 52 bits
      have hdigits : pow2 (8 - (bits - n * 8)) * 256 ^ 7 = ((z * 2 ^ 4 : ℤ) : ℚ) := by
        push_cast
        rw [← hz]
        ring
      rw [digitsBelow_iff (k := 7) (by rw [hdrop]; omega) hdigits, hdrop, Nat.add_sub_cancel]

/-- For whole numbers of bits, the target is a power of two. -/
theorem target_natCast (hp : DoublePower pow2) {k : ℕ} (hk : k < 256) :
    target pow2 k = 2 ^ (256 - k) := by
  have hn : ⌊(k : ℚ) / 8⌋.toNat = k / 8 := by
    rw [show ((k : ℚ) / 8) = ((k : ℚ) / ((8 : ℕ) : ℚ)) by norm_num, Rat.floor_natCast_div_natCast]
    omega
  have hmod : (k : ℚ) - (k / 8 : ℕ) * 8 = (k % 8 : ℕ) := by
    have : k / 8 * 8 + k % 8 = k := by omega
    rw [sub_eq_iff_eq_add']
    exact_mod_cast this.symm
  have h256 : (256 : ℚ) ^ (31 - k / 8) = 2 ^ (8 * (31 - k / 8)) := by
    rw [pow_mul]
    norm_num
  rw [target]
  simp only [hn, hmod, h256]
  split
  · rename_i hzero
    have hzero : k % 8 = 0 := by exact_mod_cast hzero
    rw [show (256 : ℚ) = 2 ^ 8 by norm_num, ← pow_add]
    congr 1
    omega
  · rename_i hne
    have hne : k % 8 ≠ 0 := by exact_mod_cast hne
    have hsub : (8 : ℚ) - (k % 8 : ℕ) = ((8 - k % 8 : ℕ) : ℚ) := by
      rw [Nat.cast_sub (by omega)]
      norm_num
    rw [hsub, hp.natCast _ (by omega), ← pow_add]
    congr 1
    omega

/-- For whole numbers of bits, a hash meets a difficulty exactly when it has as many leading zero
bits. -/
theorem meetsDifficultyGpu_natCast (hp : DoublePower pow2) (hlen : hash.length = 32) {k : ℕ}
    (hpos : 0 < k) (hlt : k < 200) :
    meetsDifficultyGpu pow2 hash k = true ↔ k ≤ leadingZeroBits hash := by
  rw [meetsDifficultyGpu_iff hp hlen (by exact_mod_cast hpos) (by exact_mod_cast hlt),
    target_natCast hp (by omega), le_leadingZeroBits_iff (by omega), hlen]
  exact_mod_cast Iff.rfl

/-- The test of the kernel is the comparison with the target, and for whole numbers of bits it asks
for as many leading zero bits as the work of a block counts. -/
theorem meetsDifficultyGpu_exact (hp : DoublePower pow2) (hlen : hash.length = 32) :
    (∀ bits : ℚ, 0 < bits → bits < 200 →
      (meetsDifficultyGpu pow2 hash bits = true ↔ (fromBigEndian hash : ℚ) < target pow2 bits)) ∧
    ∀ k : ℕ, 0 < k → k < 200 →
      (meetsDifficultyGpu pow2 hash k = true ↔ k ≤ leadingZeroBits hash) :=
  ⟨fun _ hpos hlt => meetsDifficultyGpu_iff hp hlen hpos hlt,
    fun _ hpos hlt => meetsDifficultyGpu_natCast hp hlen hpos hlt⟩

/-- The real power of two, rounded to the nearest double. -/
noncomputable def roundedPower (x : ℚ) : ℚ :=
  round ((2 : ℝ) ^ ((x : ℝ) - ⌊x⌋) * 2 ^ 52) * 2 ^ (⌊x⌋ - 52)

/-- The rounded significand is that of a double, or the next power of two. -/
theorem round_rpow_mem (x : ℚ) :
    2 ^ 52 ≤ round ((2 : ℝ) ^ ((x : ℝ) - ⌊x⌋) * 2 ^ 52) ∧
      round ((2 : ℝ) ^ ((x : ℝ) - ⌊x⌋) * 2 ^ 52) ≤ 2 ^ 53 := by
  have hle : (⌊x⌋ : ℝ) ≤ x := by exact_mod_cast Int.floor_le x
  have hlt : (x : ℝ) < ⌊x⌋ + 1 := by exact_mod_cast Int.lt_floor_add_one x
  have hone : (1 : ℝ) ≤ 2 ^ ((x : ℝ) - ⌊x⌋) :=
    Real.one_le_rpow one_le_two (sub_nonneg.mpr hle)
  have htwo : (2 : ℝ) ^ ((x : ℝ) - ⌊x⌋) < 2 := by
    have := Real.rpow_lt_rpow_of_exponent_lt one_lt_two (show (x : ℝ) - ⌊x⌋ < 1 by linarith)
    rwa [Real.rpow_one] at this
  rw [round_eq]
  constructor
  · rw [Int.le_floor]
    push_cast
    linarith
  · refine Int.lt_add_one_iff.mp (Int.floor_lt.mpr ?_)
    push_cast
    linarith

/-- A power of two in double precision that is rounded correctly. -/
theorem doublePower_roundedPower : DoublePower roundedPower := by
  refine ⟨fun x hpos hlt => ?_, fun x hpos hlt => ?_, fun k _ => ?_⟩
  · obtain ⟨hlow, hhigh⟩ := round_rpow_mem x
    have hfloor : 0 ≤ ⌊x⌋ := Int.floor_nonneg.mpr hpos.le
    have hfloor' : ⌊x⌋ ≤ 7 := Int.lt_add_one_iff.mp (Int.floor_lt.mpr (by exact_mod_cast hlt))
    rw [roundedPower]
    have hlow' : (2 : ℚ) ^ 52 ≤ round ((2 : ℝ) ^ ((x : ℝ) - ⌊x⌋) * 2 ^ 52) := by exact_mod_cast hlow
    have hhigh' : (round ((2 : ℝ) ^ ((x : ℝ) - ⌊x⌋) * 2 ^ 52) : ℚ) ≤ 2 ^ 53 := by
      exact_mod_cast hhigh
    constructor
    · calc (1 : ℚ) = 2 ^ 52 * 2 ^ (-52 : ℤ) := by norm_num
        _ ≤ _ := mul_le_mul hlow' (zpow_le_zpow_right₀ one_le_two (by omega)) (by positivity)
          (le_trans (by positivity) hlow')
    · calc _ ≤ (2 : ℚ) ^ 53 * 2 ^ (-45 : ℤ) := mul_le_mul hhigh'
            (zpow_le_zpow_right₀ one_le_two (by omega)) (by positivity) (by positivity)
        _ = 256 := by norm_num
  · have hfloor : 0 ≤ ⌊x⌋ := Int.floor_nonneg.mpr hpos.le
    refine ⟨round ((2 : ℝ) ^ ((x : ℝ) - ⌊x⌋) * 2 ^ 52) * 2 ^ ⌊x⌋.toNat, ?_⟩
    rw [roundedPower, mul_assoc]
    push_cast
    rw [← zpow_natCast (2 : ℚ) ⌊x⌋.toNat, Int.toNat_of_nonneg hfloor, ← zpow_natCast (2 : ℚ) 52,
      ← zpow_add₀ two_ne_zero]
    norm_num
  · have hround : round ((2 : ℝ) ^ (((k : ℚ) : ℝ) - ⌊(k : ℚ)⌋) * 2 ^ 52) = 2 ^ 52 := by
      rw [Int.floor_natCast, Rat.cast_natCast, Int.cast_natCast, sub_self, Real.rpow_zero, one_mul]
      exact_mod_cast round_natCast (α := ℝ) (2 ^ 52)
    rw [roundedPower, hround, Int.floor_natCast, zpow_sub₀ two_ne_zero, zpow_natCast]
    norm_num [mul_div_cancel₀]
/-- The rounded power of two, on a hash of eleven zero bits. -/
theorem meetsDifficultyGpu_eleven :
    (∀ bits : ℚ, 0 < bits → bits < 200 →
      (meetsDifficultyGpu roundedPower (0 :: 31 :: List.replicate 30 255) bits = true ↔
        (fromBigEndian (0 :: 31 :: List.replicate 30 255) : ℚ) < target roundedPower bits)) ∧
    ∀ k : ℕ, 0 < k → k < 200 →
      (meetsDifficultyGpu roundedPower (0 :: 31 :: List.replicate 30 255) k = true ↔
        k ≤ leadingZeroBits (0 :: 31 :: List.replicate 30 255)) :=
  meetsDifficultyGpu_exact doublePower_roundedPower rfl

end Kernel

end Lootcoin
