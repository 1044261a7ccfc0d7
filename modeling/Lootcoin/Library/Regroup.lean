import Mathlib.Algebra.Order.Ring.Nat
import Mathlib.Data.Nat.ModEq
import Mathlib.Data.List.Range

/-! Regrouping bits: digits of `a` bits, the highest first, read as one number and cut into groups
of `b` bits from the top, where the bits that fill no group are dropped.  A group is written as soon
as its last bit is there, and reads no higher bits than its own, so a machine that keeps only the
low bits of the number so far writes the same groups. -/

namespace Regroup

/-- The number that digits of `a` bits spell. -/
def value (a : ℕ) (ds : List ℕ) : ℕ := ds.foldl (fun v d => v * 2 ^ a + d) 0

/-- The `b` bits of a number above its lowest `s` ones. -/
def bitsAt (b s v : ℕ) : ℕ := v / 2 ^ s % 2 ^ b

/-- The groups of `b` bits in digits of `a` bits. -/
def regroup (a b : ℕ) (ds : List ℕ) : List ℕ :=
  (List.range (a * ds.length / b)).map fun k =>
    bitsAt b (a * ds.length - b * (k + 1)) (value a ds)

variable {a b s v d : ℕ} {ds : List ℕ}

theorem value_append_singleton (a : ℕ) (ds : List ℕ) (d : ℕ) :
    value a (ds ++ [d]) = value a ds * 2 ^ a + d := by
  simp [value]

theorem length_regroup (a b : ℕ) (ds : List ℕ) :
    (regroup a b ds).length = a * ds.length / b := by
  simp [regroup]

/-- Bits above a new digit are those that were there before it. -/
theorem bitsAt_append (hd : d < 2 ^ a) : bitsAt b (s + a) (v * 2 ^ a + d) = bitsAt b s v := by
  rw [bitsAt, bitsAt, Nat.add_comm s a, pow_add, ← Nat.div_div_eq_div_mul,
    Nat.mul_comm v, Nat.mul_add_div (Nat.two_pow_pos a), Nat.div_eq_of_lt hd, Nat.add_zero]

/-- Bits of a number are bits of any other that agrees with it up to their end. -/
theorem bitsAt_congr {w v' : ℕ} (hw : s + b ≤ w) (h : v % 2 ^ w = v' % 2 ^ w) :
    bitsAt b s v = bitsAt b s v' := by
  have hlow : ∀ u, bitsAt b s u = u % 2 ^ w % (2 ^ s * 2 ^ b) / 2 ^ s := by
    intro u
    rw [← pow_add, Nat.mod_mod_of_dvd _ (pow_dvd_pow 2 hw), pow_add, Nat.mod_mul_right_div_self,
      bitsAt]
  rw [hlow, hlow, h]

/-- A digit of no more bits than a group completes one group or none. -/
theorem regroup_append_singleton (hb : 0 < b) (hab : a ≤ b) (hd : d < 2 ^ a) :
    regroup a b (ds ++ [d]) = regroup a b ds ++
      if b ≤ a * ds.length % b + a then
        [bitsAt b (a * ds.length % b + a - b) (value a (ds ++ [d]))]
      else [] := by
  have hn : a * (ds ++ [d]).length = a * ds.length + a := by
    rw [List.length_append, List.length_singleton, Nat.mul_succ]
  have hmod := Nat.div_add_mod (a * ds.length) b
  have hlt := Nat.mod_lt (a * ds.length) hb
  set q := a * ds.length / b with hq
  set r := a * ds.length % b with hr
  -- the groups that were complete before lie above the new digit
  have hold : (List.range q).map (fun k =>
      bitsAt b (a * ds.length + a - b * (k + 1)) (value a (ds ++ [d]))) = regroup a b ds := by
    rw [regroup, ← hq]
    refine List.map_congr_left fun k hk => ?_
    have hk : b * (k + 1) ≤ b * q := Nat.mul_le_mul_left b (List.mem_range.mp hk)
    rw [show a * ds.length + a - b * (k + 1) = a * ds.length - b * (k + 1) + a by omega,
      value_append_singleton, bitsAt_append hd]
  rw [regroup, hn, ← hold]
  split
  · rename_i hfull
    have hcount : (a * ds.length + a) / b = q + 1 := by
      rw [← hmod, Nat.div_eq_iff hb, Nat.add_mul, Nat.mul_comm q b]
      omega
    have hshift : a * ds.length + a - b * (q + 1) = r + a - b := by
      rw [Nat.mul_succ]
      omega
    rw [hcount, List.range_succ, List.map_append, List.map_singleton, hshift]
  · rename_i hopen
    have hcount : (a * ds.length + a) / b = q := by
      rw [← hmod, Nat.div_eq_iff hb, Nat.mul_comm q b]
      omega
    rw [hcount, List.append_nil]

/-- The rest after a new digit, which is what fills the next group. -/
theorem rest_append_singleton (hab : a ≤ b) (hb : 0 < b) : a * (ds ++ [d]).length % b =
    if b ≤ a * ds.length % b + a then a * ds.length % b + a - b else a * ds.length % b + a := by
  have hlt := Nat.mod_lt (a * ds.length) hb
  rw [List.length_append, List.length_singleton, Nat.mul_succ, Nat.add_mod]
  split
  · rename_i hfull
    rcases hab.lt_or_eq with hab | rfl
    · rw [Nat.mod_eq_of_lt hab, Nat.mod_eq_sub_mod hfull, Nat.mod_eq_of_lt (by omega)]
    · simp
  · rename_i hopen
    rw [Nat.mod_eq_of_lt (show a < b by omega), Nat.mod_eq_of_lt (by omega)]

end Regroup
