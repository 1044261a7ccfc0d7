import Mathlib.Data.List.Basic
import Lootcoin.Library.Regroup

/-! The alias of an address: the bytes that the characters of an address spell, five bits each.  The
decoder shifts them through one signed integer of 32 bits.  The high bits of the address leave it at
the top, but a byte is taken from its low end, where the bits are those of the whole number. -/

namespace Lootcoin

/-! ### Strings -/

/-- A string as its UTF-16 code units. -/
abbrev JsString : Type := List UInt16

def codeUnits (s : String) : JsString :=
  s.toList.flatMap fun c =>
    if c.toNat < 0x10000 then [c.toNat.toUInt16]
    else [(0xd800 + (c.toNat - 0x10000) / 0x400).toUInt16,
      (0xdc00 + (c.toNat - 0x10000) % 0x400).toUInt16]

/-- The last index of a code unit, or none where the source says -1. -/
def lastIndexOf (s : JsString) (c : UInt16) : Option ℕ :=
  (s.reverse.idxOf? c).map fun i => s.length - 1 - i

/-- The code units from an index on, without the last ones. -/
def sliceOff (s : JsString) (start fromEnd : ℕ) : JsString :=
  (s.take (s.length - fromEnd)).drop start

/-! ### The decoder -/

def bech32Charset : JsString := codeUnits "qpzry9x8gf2tvdw0s3jn54khce6mua7l"

/-- The digit one, which ends the human-readable part. -/
def bech32Separator : UInt16 := 49

/-- The state of the loop: the accumulator, the number of its bits that no byte has taken, and the
bytes so far. -/
structure BitBuffer where
  bits : BitVec 32
  bitCount : ℕ
  bytes : List ℕ

namespace BitBuffer

def empty : BitBuffer := ⟨0, 0, []⟩

/-- Takes in one character.  Half of a surrogate pair is not in the character set, and neither is
the pair, which the source looks up as one. -/
def push (g : BitBuffer) (c : UInt16) : Option BitBuffer :=
  match bech32Charset.idxOf? c with
  | none => none
  | some val =>
    let bits := g.bits <<< 5 ||| BitVec.ofNat 32 val
    let bitCount := g.bitCount + 5
    if 8 ≤ bitCount then
      some ⟨bits, bitCount - 8, g.bytes ++ [(bits.sshiftRight (bitCount - 8) &&& 0xff).toNat]⟩
    else some ⟨bits, bitCount, g.bytes⟩

end BitBuffer

/-- The bytes of an address without its human-readable part and its checksum. -/
def bech32ToBytes (addr : JsString) : Option (List ℕ) :=
  match lastIndexOf addr bech32Separator with
  | none => none
  | some sepIdx =>
    if sepIdx < 1 then none
    else ((sliceOff addr (sepIdx + 1) 6).foldlM BitBuffer.push .empty).map fun g => g.bytes

/-! ### The accumulator -/

/-- A shift keeps what it can of the low bits. -/
theorem toNat_shift_or {x : BitVec 32} {val : ℕ} (hval : val < 32) :
    (x <<< 5 ||| BitVec.ofNat 32 val).toNat = (x.toNat * 32 + val) % 2 ^ 32 := by
  have hlow : val < 2 ^ 5 := hval
  have hor : (x.toNat <<< 5 ||| val) % 2 ^ 32 = (x.toNat * 32 + val) % 2 ^ 32 := by
    rw [← Nat.shiftLeft_add_eq_or_of_lt hlow, Nat.shiftLeft_eq]
  rw [BitVec.toNat_or, BitVec.toNat_shiftLeft, BitVec.toNat_ofNat, ← Nat.or_mod_two_pow, hor]

/-- The mask leaves no copies of the sign in a byte that lies below it. -/
theorem toNat_byte (x : BitVec 32) {s : ℕ} (hs : s ≤ 24) :
    (x.sshiftRight s &&& 0xff).toNat = Regroup.bitsAt 8 s x.toNat := by
  apply Nat.eq_of_testBit_eq
  intro i
  rw [BitVec.testBit_toNat, Regroup.bitsAt, Nat.testBit_mod_two_pow, Nat.testBit_div_two_pow,
    BitVec.testBit_toNat, BitVec.getLsbD_and, BitVec.getLsbD_sshiftRight]
  have hmask : (0xff : BitVec 32).getLsbD i = (decide (i < 32) && decide (i < 8)) := by
    rw [show (0xff : BitVec 32) = BitVec.ofNat 32 (2 ^ 8 - 1) from rfl, BitVec.getLsbD_ofNat,
      Nat.testBit_two_pow_sub_one]
  rw [hmask]
  by_cases hi : i < 8
  · simp [hi, show i < 32 by omega, show s + i < 32 by omega, Nat.add_comm]
  · simp [hi]

namespace BitBuffer

variable {g : BitBuffer} {ds : List ℕ} {c : UInt16} {val : ℕ}

/-- The buffer after digits of five bits: the low bits of the number that they spell, and the bytes
that are complete. -/
structure Spells (g : BitBuffer) (ds : List ℕ) : Prop where
  bits : g.bits.toNat = Regroup.value 5 ds % 2 ^ 32
  bitCount : g.bitCount = 5 * ds.length % 8
  bytes : g.bytes = Regroup.regroup 5 8 ds

theorem spells_empty : Spells empty [] := ⟨rfl, rfl, rfl⟩

theorem Spells.push (h : Spells g ds) (hc : bech32Charset.idxOf? c = some val) (hval : val < 32) :
    ∃ g', g.push c = some g' ∧ Spells g' (ds ++ [val]) := by
  have hbits : (g.bits <<< 5 ||| BitVec.ofNat 32 val).toNat =
      Regroup.value 5 (ds ++ [val]) % 2 ^ 32 := by
    rw [toNat_shift_or hval, h.bits, Regroup.value_append_singleton]
    omega
  have hcount : 5 * (ds ++ [val]).length % 8 = _ :=
    Regroup.rest_append_singleton (show 5 ≤ 8 by decide) (by decide)
  have hgroups : Regroup.regroup 5 8 (ds ++ [val]) = _ :=
    Regroup.regroup_append_singleton (show 0 < 8 by decide) (show 5 ≤ 8 by decide) hval
  have hlt : g.bitCount < 8 := h.bitCount ▸ Nat.mod_lt _ (by decide)
  rw [← h.bitCount] at hcount hgroups
  unfold BitBuffer.push
  simp only [hc]
  split
  · rename_i hfull
    refine ⟨_, rfl, hbits, ?_, ?_⟩
    · rw [hcount, if_pos hfull]
    · have hbyte := toNat_byte (g.bits <<< 5 ||| BitVec.ofNat 32 val) (s := g.bitCount + 5 - 8)
        (by omega)
      rw [hgroups, if_pos hfull, ← h.bytes]
      show g.bytes ++ [_] = _
      rw [hbyte, hbits, Regroup.bitsAt_congr (show g.bitCount + 5 - 8 + 8 ≤ 32 by omega)
        (Nat.mod_mod _ _)]
  · rename_i hopen
    refine ⟨_, rfl, hbits, ?_, ?_⟩
    · rw [hcount, if_neg hopen]
    · rw [hgroups, if_neg hopen, List.append_nil]
      exact h.bytes

/-- Characters of the character set are all taken in. -/
theorem Spells.foldlM_push {data : JsString} (h : Spells g ds)
    (hdata : ∀ c ∈ data, c ∈ bech32Charset) :
    ∃ g', data.foldlM BitBuffer.push g = some g' ∧
      Spells g' (ds ++ data.map bech32Charset.idxOf) := by
  induction data generalizing g ds with
  | nil => exact ⟨g, rfl, by simpa using h⟩
  | cons c data ih =>
    have hmem := hdata c List.mem_cons_self
    have hval : bech32Charset.idxOf c < 32 := List.idxOf_lt_length_of_mem hmem
    obtain ⟨val, hc⟩ := Option.isSome_iff_exists.mp (List.isSome_idxOf?.mpr hmem)
    have hidx : bech32Charset.idxOf c = val := by
      rw [List.idxOf_eq_getD_idxOf?, hc, Option.getD_some]
    obtain ⟨g', hpush, h'⟩ := h.push hc (hidx ▸ hval)
    obtain ⟨g'', hrest, h''⟩ := ih h' fun c' hc' => hdata c' (List.mem_cons_of_mem _ hc')
    refine ⟨g'', ?_, ?_⟩
    · rw [List.foldlM_cons, hpush]
      exact hrest
    · rw [List.map_cons, hidx, List.append_cons]
      exact h''

end BitBuffer

/-! ### The address -/

theorem lastIndexOf_append {s t : JsString} {c : UInt16} (h : c ∉ t) :
    lastIndexOf (s ++ c :: t) c = some s.length := by
  have hidx : (s ++ c :: t).reverse.idxOf? c = some t.length := by
    rw [List.idxOf?_eq_some_iff]
    refine ⟨by simp, by simp, fun j hj => ?_⟩
    have hlt : j < t.reverse.length := by simpa using hj
    have hmem : t.reverse[j] ∈ t := List.mem_reverse.mp (List.getElem_mem _)
    grind
  rw [lastIndexOf, hidx, Option.map_some]
  simp

theorem sliceOff_append (s data t : JsString) (c : UInt16) :
    sliceOff (s ++ c :: (data ++ t)) (s.length + 1) t.length = data := by
  have hlength : (s ++ c :: (data ++ t)).length - t.length = (s ++ [c] ++ data).length := by
    simp
    omega
  have hsplit : s ++ c :: (data ++ t) = s ++ [c] ++ data ++ t := by simp
  rw [sliceOff, hlength, hsplit, List.take_left, List.drop_left' (by simp)]

theorem separator_not_mem : bech32Separator ∉ bech32Charset := by decide

/-- The decoder finds the bytes of the number that the characters of the data part spell, however
many they are, and drops the bits that fill no byte. -/
theorem bech32ToBytes_eq {hrp data checksum : JsString} (hhrp : hrp ≠ [])
    (hdata : ∀ c ∈ data, c ∈ bech32Charset) (hchecksum : ∀ c ∈ checksum, c ∈ bech32Charset)
    (hlength : checksum.length = 6) :
    bech32ToBytes (hrp ++ bech32Separator :: (data ++ checksum)) =
        some (Regroup.regroup 5 8 (data.map bech32Charset.idxOf)) ∧
      (Regroup.regroup 5 8 (data.map bech32Charset.idxOf)).length = 5 * data.length / 8 := by
  refine ⟨?_, by rw [Regroup.length_regroup, List.length_map]⟩
  have hsep : bech32Separator ∉ data ++ checksum := by
    intro h
    rcases List.mem_append.mp h with h | h
    · exact separator_not_mem (hdata _ h)
    · exact separator_not_mem (hchecksum _ h)
  obtain ⟨g, hfold, hspells⟩ := BitBuffer.spells_empty.foldlM_push hdata
  rw [bech32ToBytes, lastIndexOf_append hsep]
  simp only
  rw [if_neg (Nat.not_lt.mpr (List.length_pos_of_ne_nil hhrp)), ← hlength, sliceOff_append, hfold,
    Option.map_some, hspells.bytes, List.nil_append]

namespace Sample

theorem mem_charset_of_all {s : JsString} (h : s.all bech32Charset.contains = true) :
    ∀ c ∈ s, c ∈ bech32Charset := by
  simpa using h

/-- The address of the genesis wallet, whose 260 bits are far more than the accumulator holds. -/
theorem genesisAddress_bytes : bech32ToBytes (codeUnits "loot" ++ bech32Separator ::
    (codeUnits "075w8yehjl4rvrdsuws6yn2f3sa8e7hhymr5q8ps9sa7gvulzpjq" ++ codeUnits "5dvlt3")) =
      some [127, 168, 227, 147, 55, 151, 234, 54, 13, 176, 227, 161, 162, 77, 73, 140, 58, 124, 250,
        247, 38, 199, 64, 28, 48, 44, 59, 228, 51, 159, 16, 100] := by
  refine Eq.trans (bech32ToBytes_eq ?_ ?_ ?_ ?_).1 ?_
  · decide
  · exact mem_charset_of_all (by decide)
  · exact mem_charset_of_all (by decide)
  · decide
  · decide +kernel

end Sample

end Lootcoin
