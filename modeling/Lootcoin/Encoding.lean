import Mathlib.Order.Fin.Basic
import Lootcoin.Library.Lexicographic
import Lootcoin.Types

/-! How numbers and strings are written as bytes: what is written can be read back, and numbers
that are written with the highest byte first are ordered as their bytes are. -/

namespace Lootcoin

/-! ### The lowest byte first -/

theorem length_littleEndian (n v : ℕ) : (littleEndian n v).length = n := by
  induction n generalizing v with
  | zero => rfl
  | succ n ih => rw [littleEndian, List.length_cons, ih]

theorem fromLittleEndian_littleEndian (n v : ℕ) :
    fromLittleEndian (littleEndian n v) = v % 256 ^ n := by
  induction n generalizing v with
  | zero => simp [littleEndian, fromLittleEndian, Nat.mod_one]
  | succ n ih =>
    rw [littleEndian, fromLittleEndian, ih, Nat.pow_succ', Nat.mod_mul]
    rfl

theorem fromLittleEndian_lt (bs : Bytes) : fromLittleEndian bs < 256 ^ bs.length := by
  induction bs with
  | nil => exact Nat.one_pos
  | cons b bs ih =>
    have hb := b.isLt
    rw [fromLittleEndian, List.length_cons, Nat.pow_succ]
    omega

theorem littleEndian_fromLittleEndian (bs : Bytes) :
    littleEndian bs.length (fromLittleEndian bs) = bs := by
  induction bs with
  | nil => rfl
  | cons b bs ih =>
    have hb := b.isLt
    rw [List.length_cons, littleEndian, fromLittleEndian]
    congr 1
    · apply Fin.ext
      show (b.val + 256 * fromLittleEndian bs) % 256 = b.val
      omega
    · rw [show (b.val + 256 * fromLittleEndian bs) / 256 = fromLittleEndian bs by omega, ih]

theorem take_littleEndian (n k v : ℕ) : (littleEndian (n + k) v).take n = littleEndian n v := by
  induction n generalizing v with
  | zero => rfl
  | succ n ih => rw [Nat.succ_add, littleEndian, List.take_succ_cons, ih, littleEndian]

theorem fromLittleEndian_take (n : ℕ) (bs : Bytes) (h : n ≤ bs.length) :
    fromLittleEndian (bs.take n) = fromLittleEndian bs % 256 ^ n := by
  obtain ⟨k, hk⟩ := Nat.exists_eq_add_of_le h
  have hback := littleEndian_fromLittleEndian bs
  rw [hk] at hback
  rw [← hback, take_littleEndian, fromLittleEndian_littleEndian, hback]

theorem littleEndian_inj {n v v' : ℕ} (hv : v < 256 ^ n) (hv' : v' < 256 ^ n)
    (h : littleEndian n v = littleEndian n v') : v = v' := by
  have := congrArg fromLittleEndian h
  rwa [fromLittleEndian_littleEndian, fromLittleEndian_littleEndian, Nat.mod_eq_of_lt hv,
    Nat.mod_eq_of_lt hv'] at this

/-- A number in front of other bytes can be read back. -/
theorem littleEndian_append_inj {n v v' : ℕ} {bs bs' : Bytes} (hv : v < 256 ^ n)
    (hv' : v' < 256 ^ n) (h : littleEndian n v ++ bs = littleEndian n v' ++ bs') :
    v = v' ∧ bs = bs' := by
  obtain ⟨hl, hr⟩ := List.append_inj h (by rw [length_littleEndian, length_littleEndian])
  exact ⟨littleEndian_inj hv hv' hl, hr⟩

/-- A byte sequence with its length in front of other bytes can be read back. -/
theorem encodeBytes_append_inj {xs xs' bs bs' : Bytes} (hx : xs.length < 256 ^ 8)
    (hx' : xs'.length < 256 ^ 8) (h : encodeBytes xs ++ bs = encodeBytes xs' ++ bs') :
    xs = xs' ∧ bs = bs' := by
  rw [encodeBytes, encodeBytes, List.append_assoc, List.append_assoc] at h
  obtain ⟨hlen, h⟩ := littleEndian_append_inj hx hx' h
  exact List.append_inj h hlen

/-! ### The highest byte first -/

theorem length_bigEndian (n v : ℕ) : (bigEndian n v).length = n := by
  rw [bigEndian, List.length_reverse, length_littleEndian]

theorem bigEndian_succ (n v : ℕ) :
    bigEndian (n + 1) v = bigEndian n (v / 256) ++ [Fin.ofNat 256 v] := by
  rw [bigEndian, littleEndian, List.reverse_cons, ← bigEndian]

theorem bigEndian_mod (n v : ℕ) : bigEndian n (v % 256 ^ n) = bigEndian n v := by
  induction n generalizing v with
  | zero => rfl
  | succ n ih =>
    have hdiv : v % 256 ^ (n + 1) / 256 = v / 256 % 256 ^ n := by
      rw [Nat.pow_succ', Nat.mod_mul_right_div_self]
    have hbyte : Fin.ofNat 256 (v % 256 ^ (n + 1)) = Fin.ofNat 256 v := by
      apply Fin.ext
      simp only [Fin.ofNat_eq_cast, Fin.val_natCast]
      exact Nat.mod_mod_of_dvd v (dvd_pow_self 256 n.succ_ne_zero)
    rw [bigEndian_succ, hdiv, hbyte, ih, ← bigEndian_succ]

theorem fromBigEndian_bigEndian {n v : ℕ} (hv : v < 256 ^ n) :
    fromBigEndian (bigEndian n v) = v := by
  rw [fromBigEndian, bigEndian, List.reverse_reverse, fromLittleEndian_littleEndian,
    Nat.mod_eq_of_lt hv]

theorem bigEndian_inj {n v v' : ℕ} (hv : v < 256 ^ n) (hv' : v' < 256 ^ n) :
    bigEndian n v = bigEndian n v' ↔ v = v' :=
  ⟨fun h => littleEndian_inj hv hv' (List.reverse_injective h), fun h => h ▸ rfl⟩

/-- Numbers are ordered as their bytes are. -/
theorem bigEndian_lt_bigEndian {n v v' : ℕ} (hv : v < 256 ^ n) (hv' : v' < 256 ^ n) :
    bigEndian n v < bigEndian n v' ↔ v < v' := by
  induction n generalizing v v' with
  | zero =>
    have hzero : v = v' := by
      rw [Nat.pow_zero] at hv hv'
      omega
    simp [hzero]
  | succ n ih =>
    rw [Nat.pow_succ] at hv hv'
    have hq : v / 256 < 256 ^ n := Nat.div_lt_of_lt_mul (by omega)
    have hq' : v' / 256 < 256 ^ n := Nat.div_lt_of_lt_mul (by omega)
    have hlast : ([Fin.ofNat 256 v] : Bytes) < [Fin.ofNat 256 v'] ↔ v % 256 < v' % 256 := by
      rw [Lexicographic.cons_lt_cons_iff]
      simp [Fin.lt_def]
    rw [bigEndian_succ, bigEndian_succ, Lexicographic.append_lt_append_iff
      (by rw [length_bigEndian, length_bigEndian]), ih hq hq', bigEndian_inj hq hq', hlast]
    omega

/-! ### Strings -/

theorem toList_loop (bs : ByteArray) (i : ℕ) (r : List UInt8) :
    ByteArray.toList.loop bs i r = r.reverse ++ bs.data.toList.drop i := by
  fun_induction ByteArray.toList.loop bs i r with
  | case1 i r h ih =>
    have hi : i < bs.data.toList.length := by simpa using h
    have hget : bs.get! i = bs.data.toList[i] := by
      show bs.data[i]! = _
      rw [getElem!_pos bs.data i (by simpa using h)]
      simp
    rw [ih, hget, List.reverse_cons, List.append_assoc, List.singleton_append,
      List.drop_eq_getElem_cons hi]
  | case2 i r h =>
    have hdrop : bs.data.toList.drop i = [] := List.drop_eq_nil_of_le (by simpa using h)
    rw [hdrop, List.append_nil]

theorem toList_eq (bs : ByteArray) : bs.toList = bs.data.toList := by
  rw [ByteArray.toList, toList_loop, List.reverse_nil, List.nil_append, List.drop_zero]

/-- A string can be read back from its bytes. -/
theorem utf8_injective : Function.Injective utf8 := by
  intro s s' h
  have hbyte : Function.Injective fun b : UInt8 => Fin.ofNat 256 b.toNat := by
    intro b b' hb
    have hval := congrArg Fin.val hb
    simp only [Fin.ofNat_eq_cast, Fin.val_natCast] at hval
    have := b.toNat_lt
    have := b'.toNat_lt
    exact UInt8.toNat_inj.mp (by omega)
  have hbytes := List.map_injective_iff.mpr hbyte h
  rw [toList_eq, toList_eq, Array.toList_inj, ByteArray.ext_iff.symm] at hbytes
  exact String.toByteArray_inj.mp hbytes

end Lootcoin
