import Mathlib.Data.Fintype.BigOperators
import Mathlib.Data.Fintype.Vector
import Mathlib.Data.Nat.Cast.Order.Field
import Mathlib.Tactic.NormNum
import Mathlib.Tactic.Linarith
import Lootcoin.Chain.Lottery
import Lootcoin.Encoding
import Lootcoin.Library.Residues

/-! The odds of a draw.  Where every digest is as likely as any other, each tier comes up as often
as its share of the buckets says, but for a bias that the reduction of eight bytes leaves, and a
ticket is worth what the fractions of the pot add up to, but for less than a coin. -/

namespace Lootcoin

/-! ### Bytes of a length -/

instance fintype_bytes (n : ℕ) : Fintype { bs : Bytes // bs.length = n } :=
  inferInstanceAs (Fintype (List.Vector Byte n))

theorem card_bytes (n : ℕ) : Fintype.card { bs : Bytes // bs.length = n } = 256 ^ n := by
  show Fintype.card (List.Vector Byte n) = _
  rw [card_vector, Fintype.card_fin]

/-- A sum over the bytes of a length that depends on their number alone. -/
theorem sum_bytes (n : ℕ) (f : ℕ → ℚ) :
    ∑ bs : { bs : Bytes // bs.length = n }, f (fromLittleEndian bs.val) =
      ∑ v ∈ Finset.range (256 ^ n), f v := by
  apply Finset.sum_nbij' (fun bs => fromLittleEndian bs.val)
    fun v => ⟨littleEndian n v, length_littleEndian n v⟩
  · intro bs _
    have hlt := fromLittleEndian_lt bs.val
    rw [bs.property] at hlt
    exact Finset.mem_range.mpr hlt
  · exact fun v _ => Finset.mem_univ _
  · intro bs _
    apply Subtype.ext
    have hback := littleEndian_fromLittleEndian bs.val
    rwa [bs.property] at hback
  · intro v hv
    show fromLittleEndian (littleEndian n v) = v
    rw [fromLittleEndian_littleEndian, Nat.mod_eq_of_lt (Finset.mem_range.mp hv)]
  · exact fun bs _ => rfl

theorem lootBucketFromDigest_eq (d : Digest) :
    lootBucketFromDigest d = fromLittleEndian d.val % 256 ^ 8 % ppm := by
  rw [lootBucketFromDigest, fromLittleEndian_take 8 d.val (by rw [d.property]; omega)]

/-! ### The law of a draw -/

/-- The reward and the tier of a bucket. -/
def bucketReward (pot bucket : ℕ) : ℕ × Tier :=
  if bucket < smallBucketStart then (0, .none)
  else if bucket < mediumBucketStart then (pot / smallDivisor, .small)
  else if bucket < largeBucketStart then (pot / mediumDivisor, .medium)
  else if bucket < jackpotBucketStart then (pot / largeDivisor, .large)
  else (pot / jackpotDivisor, .jackpot)

/-- What a ticket draws where the hash function gives a digest. -/
def DerivedState.drawnBy (core : Core) (hashAt : ℕ → Option Bytes) (s : DerivedState)
    (revealStart : ℕ) (ticket : LootTicket) (d : Digest) : ℕ × Tier :=
  s.computeTicketReward { core with digest := fun _ => d } hashAt revealStart ticket

theorem DerivedState.drawnBy_eq (core : Core) (hashAt : ℕ → Option Bytes) (s : DerivedState)
    (revealStart : ℕ) (ticket : LootTicket) (d : Digest) :
    s.drawnBy core hashAt revealStart ticket d = bucketReward s.pot (lootBucketFromDigest d) := rfl

variable (pot : ℕ) (f : ℕ × Tier → ℚ)

theorem sum_noWin {k : ℕ} (hk : k ≤ smallBucketStart) :
    ∑ b ∈ Finset.range k, f (bucketReward pot b) = k * f (0, .none) := by
  rw [Residues.sum_range_of_const (Nat.zero_le k) (c := f (0, .none)), Finset.sum_range_zero,
    zero_add, Nat.sub_zero]
  intro b _ hb
  rw [bucketReward, if_pos (by omega)]

/-- Each tier has its share of the buckets. -/
theorem sum_buckets : ∑ b ∈ Finset.range ppm, f (bucketReward pot b) =
    620000 * f (0, .none) + 362500 * f (pot / smallDivisor, .small) +
      16700 * f (pot / mediumDivisor, .medium) + 700 * f (pot / largeDivisor, .large) +
      100 * f (pot / jackpotDivisor, .jackpot) := by
  have hsm : smallBucketStart ≤ mediumBucketStart := by decide
  have hml : mediumBucketStart ≤ largeBucketStart := by decide
  have hlj : largeBucketStart ≤ jackpotBucketStart := by decide
  have hjackpot : ∀ b, jackpotBucketStart ≤ b → b < ppm →
      f (bucketReward pot b) = f (pot / jackpotDivisor, .jackpot) := by
    intro b hb _
    rw [bucketReward, if_neg (by omega), if_neg (by omega), if_neg (by omega), if_neg (by omega)]
  have hlarge : ∀ b, largeBucketStart ≤ b → b < jackpotBucketStart →
      f (bucketReward pot b) = f (pot / largeDivisor, .large) := by
    intro b hb hlt
    rw [bucketReward, if_neg (by omega), if_neg (by omega), if_neg (by omega), if_pos hlt]
  have hmedium : ∀ b, mediumBucketStart ≤ b → b < largeBucketStart →
      f (bucketReward pot b) = f (pot / mediumDivisor, .medium) := by
    intro b hb hlt
    rw [bucketReward, if_neg (by omega), if_neg (by omega), if_pos hlt]
  have hsmall : ∀ b, smallBucketStart ≤ b → b < mediumBucketStart →
      f (bucketReward pot b) = f (pot / smallDivisor, .small) := by
    intro b hb hlt
    rw [bucketReward, if_neg (by omega), if_pos hlt]
  rw [Residues.sum_range_of_const (by decide) hjackpot,
    Residues.sum_range_of_const (by decide) hlarge,
    Residues.sum_range_of_const (by decide) hmedium,
    Residues.sum_range_of_const (by decide) hsmall, sum_noWin pot f (Nat.le_refl _)]
  norm_num [ppm, smallBucketStart, mediumBucketStart, largeBucketStart, jackpotBucketStart]

/-- Of the words of eight bytes, 551616 are left when all buckets have come up as often, and these
win nothing. -/
theorem sum_drawnBy (core : Core) (hashAt : ℕ → Option Bytes) (s : DerivedState)
    (revealStart : ℕ) (ticket : LootTicket) :
    ∑ d, f (s.drawnBy core hashAt revealStart ticket d) =
      256 ^ 24 * (18446744073709 * ∑ b ∈ Finset.range ppm, f (bucketReward s.pot b) +
        551616 * f (0, .none)) := by
  simp only [DerivedState.drawnBy_eq, lootBucketFromDigest_eq]
  rw [sum_bytes 32 fun v => f (bucketReward s.pot (v % 256 ^ 8 % ppm)),
    show 256 ^ 32 = 256 ^ 8 * 256 ^ 24 + 0 by norm_num,
    Residues.sum_range_mod (fun x => f (bucketReward s.pot (x % ppm))) (256 ^ 8) (256 ^ 24)
      (Nat.zero_le _),
    Finset.sum_range_zero, add_zero, show 256 ^ 8 = ppm * 18446744073709 + 551616 by norm_num [ppm],
    Residues.sum_range_mod (fun b => f (bucketReward s.pot b)) ppm 18446744073709 (by decide),
    sum_noWin s.pot f (show 551616 ≤ smallBucketStart by decide)]
  norm_num

/-- The mean over all digests, each as likely as any other. -/
def mean (f : Digest → ℚ) : ℚ := (∑ d, f d) / Fintype.card Digest

/-- The mean of what depends on a draw. -/
theorem mean_drawnBy (core : Core) (hashAt : ℕ → Option Bytes) (s : DerivedState)
    (revealStart : ℕ) (ticket : LootTicket) (hnone : f (0, .none) = 0) :
    mean (fun d => f (s.drawnBy core hashAt revealStart ticket d)) =
      (1 - 551616 / 2 ^ 64) / 10 ^ 6 * (362500 * f (s.pot / smallDivisor, .small) +
        16700 * f (s.pot / mediumDivisor, .medium) + 700 * f (s.pot / largeDivisor, .large) +
        100 * f (s.pot / jackpotDivisor, .jackpot)) := by
  have hcard : (Fintype.card Digest : ℚ) = 256 ^ 32 := by
    rw [card_bytes]
    norm_num
  rw [mean, sum_drawnBy, sum_buckets, hcard, hnone]
  ring

/-- A share of the pot is what it is without rounding, but for less than a coin. -/
theorem share_bounds (pot : ℕ) {divisor : ℕ} (hpos : 0 < divisor) :
    (pot : ℚ) / divisor - 1 < (pot / divisor : ℕ) ∧
      ((pot / divisor : ℕ) : ℚ) ≤ (pot : ℚ) / divisor := by
  have hlt : (pot : ℚ) < (pot / divisor : ℕ) * divisor + divisor := by
    exact_mod_cast Nat.lt_div_mul_add hpos
  have hpos' : (0 : ℚ) < divisor := by exact_mod_cast hpos
  constructor
  · rw [sub_lt_iff_lt_add, div_lt_iff₀ hpos', add_mul, one_mul]
    exact hlt
  · exact Nat.cast_div_le

/-- Where every digest is as likely as any other, each tier comes up with the documented
probability, less a bias of 551616 in 2^64, and the mean reward of a ticket is the documented part
of the pot, less that bias and less than a coin. -/
theorem odds_of_draw (core : Core) (hashAt : ℕ → Option Bytes) (s : DerivedState)
    (revealStart : ℕ) (ticket : LootTicket) :
    (∀ entry ∈ [(Tier.small, 36.25 / 100), (.medium, 1.67 / 100), (.large, 0.07 / 100),
        (.jackpot, 0.01 / 100)],
      mean (fun d => if (s.drawnBy core hashAt revealStart ticket d).2 = entry.1 then 1 else 0) =
        entry.2 * (1 - 551616 / 2 ^ 64)) ∧
    mean (fun d => (s.drawnBy core hashAt revealStart ticket d).1) ≤
      s.pot * (0.3625 / 400000 + 0.0167 / 30000 + 0.0007 / 2000 + 0.0001 / 500) ∧
    s.pot * (0.3625 / 400000 + 0.0167 / 30000 + 0.0007 / 2000 + 0.0001 / 500) *
      (1 - 551616 / 2 ^ 64) - 1 <
        mean (fun d => (s.drawnBy core hashAt revealStart ticket d).1) := by
  have hmean : mean (fun d => ((s.drawnBy core hashAt revealStart ticket d).1 : ℚ)) = _ :=
    mean_drawnBy (fun r => (r.1 : ℚ)) core hashAt s revealStart ticket Nat.cast_zero
  obtain ⟨hsmall, hsmall'⟩ := share_bounds s.pot (show 0 < smallDivisor by decide)
  obtain ⟨hmedium, hmedium'⟩ := share_bounds s.pot (show 0 < mediumDivisor by decide)
  obtain ⟨hlarge, hlarge'⟩ := share_bounds s.pot (show 0 < largeDivisor by decide)
  obtain ⟨hjackpot, hjackpot'⟩ := share_bounds s.pot (show 0 < jackpotDivisor by decide)
  have hpot : (0 : ℚ) ≤ s.pot := Nat.cast_nonneg _
  have hsd : (smallDivisor : ℚ) = 400000 := by norm_num [smallDivisor]
  have hmd : (mediumDivisor : ℚ) = 30000 := by norm_num [mediumDivisor]
  have hld : (largeDivisor : ℚ) = 2000 := by norm_num [largeDivisor]
  have hjd : (jackpotDivisor : ℚ) = 500 := by norm_num [jackpotDivisor]
  rw [hsd] at hsmall hsmall'
  rw [hmd] at hmedium hmedium'
  rw [hld] at hlarge hlarge'
  rw [hjd] at hjackpot hjackpot'
  refine ⟨?_, ?_, ?_⟩
  · intro entry hentry
    simp only [List.mem_cons, List.not_mem_nil, or_false] at hentry
    rw [mean_drawnBy (fun r => if r.2 = entry.1 then 1 else 0)]
    · rcases hentry with rfl | rfl | rfl | rfl <;>
        simp only [reduceCtorEq, if_true, if_false] <;> norm_num
    · rcases hentry with rfl | rfl | rfl | rfl <;> rfl
  · rw [hmean]
    linarith
  · rw [hmean]
    linarith

end Lootcoin
