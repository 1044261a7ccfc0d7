import Mathlib.Tactic.FinCases
import Mathlib.Data.Fintype.Basic
import Mathlib.Data.List.GetD
import Lootcoin.Library.CubeHash
import Lootcoin.Gpu.Kernel

/-! The kernel computes CubeHash-256.  It never carries out the swaps of the high words: each half
round leaves its swap to the additions of the next one, which read the words in swapped order.
So a state of the kernel stands for a state of the hash function with one swap still to make. -/

namespace Lootcoin

namespace Kernel

open CubeHash (State)

/-- The word at an index of five bits. -/
def word (s : Words) (w : BitVec 5) : BitVec 32 := s.get w.toFin

/-- `s` holds the words of `x`, those of every vector in reverse, and the high words before the swap
of the indices that differ by `q`. -/
def Represents (q : BitVec 5) (s : Words) (x : State) : Prop :=
  ∀ w, x w = word s (if w.msb then w ^^^ 3 ^^^ q else w ^^^ 3)

variable {s s' : Words} {x : State} {p e d : BitVec 5} {n : ℕ}

theorem rotl32_eq (v : BitVec 32) (hn : n < 32) : rotl32 v n = v.rotateLeft n := by
  rw [rotl32, BitVec.rotateLeft_def, Nat.mod_eq_of_lt hn]

/-! ### Rounds -/

/-- The words after a half round of the kernel that swaps as it adds. -/
def HalfRound (n : ℕ) (d p : BitVec 5) (s s' : Words) : Prop :=
  ∀ w, word s' w =
    if w.msb then word s (w ^^^ 16) + word s (w ^^^ p)
    else rotl32 (word s (w ^^^ d)) n ^^^ (word s w + word s (w ^^^ 16 ^^^ p))

theorem halfRound1_words (s : Words) : HalfRound 7 8 1 s (halfRound1 s) := by
  rintro ⟨i⟩
  revert i
  intro (i : Fin 32)
  fin_cases i <;> rfl

theorem halfRound2_words (s : Words) : HalfRound 11 4 2 s (halfRound2 s) := by
  rintro ⟨i⟩
  revert i
  intro (i : Fin 32)
  fin_cases i <;> rfl

/-- A half round of the kernel makes the pending swap and leaves its own pending. -/
theorem Represents.halfRound (h : Represents p s x) (hs : HalfRound n d p s s') (hn : n < 32)
    (hd : d.msb = false) (he : e.msb = false) :
    Represents e s' (CubeHash.halfRound n d e x) := by
  intro w
  have h16 : (16#5).msb = true := by decide
  have h3 : (3#5).msb = false := by decide
  cases hw : w.msb with
  | true =>
    have hlow : w ^^^ e ^^^ 16 ^^^ 3 = w ^^^ 3 ^^^ e ^^^ 16 := by ac_rfl
    have hhigh : w ^^^ e ^^^ 3 ^^^ p = w ^^^ 3 ^^^ e ^^^ p := by ac_rfl
    rw [CubeHash.halfRound_high he hw, h, h, if_neg (by simp [hw, he, h16]),
      if_pos (by simp [hw, he]), hlow, hhigh, if_pos rfl, hs, if_pos (by simp [hw, he, h3])]
  | false =>
    have hswap : w ^^^ d ^^^ 3 = w ^^^ 3 ^^^ d := by ac_rfl
    have hhigh : w ^^^ 16 ^^^ 3 ^^^ p = w ^^^ 3 ^^^ 16 ^^^ p := by ac_rfl
    rw [CubeHash.halfRound_low hd hw, h, h, h, if_neg (by simp [hw, hd]), if_neg (by simp [hw]),
      if_pos (by simp [hw, h16]), hswap, hhigh, if_neg (by simp), hs,
      if_neg (by simp [hw, h3]), rotl32_eq _ hn]

theorem Represents.cubehashRound (h : Represents 1 s x) :
    Represents 1 (cubehashRound s) (CubeHash.round x) := by
  rw [CubeHash.round_eq]
  have hfirst : Represents 2 (halfRound1 s) (CubeHash.halfRound 7 8 2 x) :=
    h.halfRound (halfRound1_words s) (by decide) (by decide) (by decide)
  exact hfirst.halfRound (halfRound2_words _) (by decide) (by decide) (by decide)

theorem Represents.cubehashRounds (h : Represents 1 s x) :
    Represents 1 (cubehashRounds s) (CubeHash.round^[16] x) := by
  have hall : ∀ k, Represents 1 (Kernel.cubehashRound^[k] s) (CubeHash.round^[k] x) := by
    intro k
    induction k with
    | zero => exact h
    | succ k ih =>
      rw [Function.iterate_succ_apply', Function.iterate_succ_apply']
      exact ih.cubehashRound
  exact hall chRounds

/-! ### Blocks -/

theorem represents_cubehashInit :
    Represents 1 cubehashInit (CubeHash.round^[16] (CubeHash.parameters 16 32 256)) := by
  refine Represents.cubehashRounds ?_
  rintro ⟨i⟩
  revert i
  intro (i : Fin 32)
  fin_cases i <;> rfl

theorem le32_eq (p0 p1 p2 p3 : BitVec 8) : le32 p0 p1 p2 p3 = p3 ++ p2 ++ p1 ++ p0 := by
  apply BitVec.eq_of_getLsbD_eq
  intro i hi
  simp only [le32, BitVec.getLsbD_or, BitVec.getLsbD_shiftLeft, BitVec.getLsbD_setWidth,
    BitVec.getLsbD_append, hi]
  have hpast : ∀ (p : BitVec 8) (j : ℕ), 8 ≤ j → p.getLsbD j = false := fun p j h =>
    BitVec.getLsbD_of_ge p j h
  by_cases h8 : i < 8
  · simp [h8, show i < 16 by omega, show i < 24 by omega]
  by_cases h16 : i < 16
  · simp [h8, h16, show i < 24 by omega, hpast p0 i (by omega), show i - 8 < 8 by omega,
      show i - 8 < 32 by omega]
  by_cases h24 : i < 24
  · simp [h8, h16, h24, hpast p0 i (by omega), hpast p1 (i - 8) (by omega),
      show ¬ i - 8 < 8 by omega, show i - 8 - 8 = i - 16 by omega, show i - 16 < 8 by omega,
      show i - 16 < 32 by omega]
  · simp [h8, h16, h24, hpast p0 i (by omega), hpast p1 (i - 8) (by omega),
      hpast p2 (i - 16) (by omega), show ¬ i - 8 < 8 by omega, show ¬ i - 8 - 8 < 8 by omega,
      show i - 24 < 32 by omega, show i - 8 - 8 - 8 = i - 24 by omega]

/-- The byte of a block at a position, and zero past it. -/
def byteAt (blk : Vector (BitVec 8) 32) (j : ℕ) : BitVec 8 := if h : j < 32 then blk[j] else 0

theorem getD_toList (blk : Vector (BitVec 8) 32) (j : ℕ) : blk.toList.getD j 0 = byteAt blk j := by
  rw [byteAt]
  split
  · rename_i h
    rw [List.getD_eq_getElem _ _ (by simpa using h)]
    simp
  · rename_i h
    exact List.getD_eq_default _ _ (by simpa using h)

theorem blockWord_eq (blk : Vector (BitVec 8) 32) (w : BitVec 5) :
    CubeHash.blockWord blk.toList w = le32 (byteAt blk (4 * w.toNat)) (byteAt blk (4 * w.toNat + 1))
      (byteAt blk (4 * w.toNat + 2)) (byteAt blk (4 * w.toNat + 3)) := by
  rw [CubeHash.blockWord, getD_toList, getD_toList, getD_toList, getD_toList, le32_eq]

theorem blockWord_of_ge (blk : Vector (BitVec 8) 32) {w : BitVec 5} (hw : 8 ≤ w.toNat) :
    CubeHash.blockWord blk.toList w = 0 := by
  have hpast : ∀ k, byteAt blk (4 * w.toNat + k) = 0 := fun k => dif_neg (by omega)
  rw [blockWord_eq, hpast 1, hpast 2, hpast 3, ← Nat.add_zero (4 * w.toNat), hpast 0]
  rfl

/-- The words after the kernel has combined a block with the state. -/
theorem absorbBlock_words (s : Words) (blk : Vector (BitVec 8) 32) : ∃ t : Words,
    absorbBlock s blk = cubehashRounds t ∧ ∀ w, word t w =
      if w.toNat < 8 then word s w ^^^ le32 (byteAt blk (4 * (w ^^^ 3).toNat))
        (byteAt blk (4 * (w ^^^ 3).toNat + 1)) (byteAt blk (4 * (w ^^^ 3).toNat + 2))
        (byteAt blk (4 * (w ^^^ 3).toNat + 3))
      else word s w := by
  refine ⟨_, rfl, ?_⟩
  rintro ⟨i⟩
  revert i
  intro (i : Fin 32)
  fin_cases i <;> rfl

theorem Represents.absorbBlock (h : Represents 1 s x) (blk : Vector (BitVec 8) 32) :
    Represents 1 (absorbBlock s blk) (CubeHash.absorb 16 x blk.toList) := by
  obtain ⟨t, ht, hwords⟩ := absorbBlock_words s blk
  rw [ht]
  refine Represents.cubehashRounds fun w => ?_
  have hindex : ∀ w : BitVec 5, (w.msb = true → 8 ≤ w.toNat ∧ ¬ (w ^^^ 3 ^^^ 1).toNat < 8) ∧
      ((w ^^^ 3).toNat < 8 ↔ w.toNat < 8) ∧ w ^^^ 3 ^^^ 3 = w := by
    decide
  obtain ⟨hhigh, hlow, hback⟩ := hindex w
  cases hw : w.msb with
  | true =>
    rw [blockWord_of_ge blk (hhigh hw).1, h, if_pos hw, if_pos rfl, hwords, if_neg (hhigh hw).2]
    exact BitVec.xor_zero
  | false =>
    rw [h, if_neg (by simp [hw]), if_neg (by simp), hwords, hback]
    split
    · rw [blockWord_eq]
    · rename_i hge
      rw [blockWord_of_ge blk (Nat.not_lt.mp fun hlt => hge (hlow.mpr hlt))]
      exact BitVec.xor_zero

theorem word_set (s : Words) (v : BitVec 32) (w : BitVec 5) (hlt : 29 < 32) :
    word (s.set 29 v hlt) w = if w = 29 then v else word s w := by
  have hw : w = 29 ↔ 29 = w.toFin.val := by
    rw [← BitVec.toNat_inj]
    exact eq_comm
  show (s.set 29 v)[w.toFin.val] = if w = 29 then v else s[w.toFin.val]
  rw [Vector.getElem_set]
  simp only [hw]

/-- The kernel flips the word that the pending swap makes the last one. -/
theorem Represents.flag (h : Represents 1 s x) (hlt : 29 < 32) :
    Represents 1 (s.set 29 (getElem s 29 hlt ^^^ 1) hlt)
      fun w => if w = 31 then x w ^^^ 1 else x w := by
  intro w
  have hindex : ∀ w : BitVec 5, (if w.msb then w ^^^ 3 ^^^ 1 else w ^^^ 3) = 29 ↔ w = 31 := by
    decide
  show (if w = 31 then x w ^^^ 1 else x w) = _
  rw [word_set, h w]
  simp only [hindex]
  split
  · rename_i hw
    subst hw
    rfl
  · rfl

theorem Represents.finish (h : Represents 1 s x) (hlt : 29 < 32) :
    Represents 1 (Kernel.cubehashRounds (Kernel.cubehashRounds
      (s.set 29 (getElem s 29 hlt ^^^ 1) hlt))) (CubeHash.finish 32 x) := by
  have hrounds : CubeHash.finish 32 x = CubeHash.round^[16] (CubeHash.round^[16]
      fun w => if w = 31 then x w ^^^ 1 else x w) := by
    rw [← Function.iterate_add_apply]
    rfl
  rw [hrounds]
  exact (h.flag hlt).cubehashRounds.cubehashRounds

/-! ### Bytes -/

/-- The digest does not depend on the pending swap. -/
theorem Represents.extractHash (h : Represents p s x) :
    CubeHash.digest 256 x = Kernel.extractHash s := by
  obtain rfl : x = _ := funext h
  rfl

/-! ### Headers -/

theorem toList_blockAt (header : Vector (BitVec 8) 104) {offset : ℕ} (h : offset + 32 ≤ 104) :
    (blockAt header offset h).toList = (header.toList.drop offset).take 32 := by
  apply List.ext_getElem
  · simp
    omega
  · intro i hi hi'
    simp [blockAt]

theorem toList_paddedBlock (header : Vector (BitVec 8) 104) :
    (paddedBlock header).toList = header.toList.drop 96 ++ 0x80 :: List.replicate 23 0 := by
  apply List.ext_getElem
  · simp
  · intro i hi hi'
    by_cases h8 : i < 8
    · rw [List.getElem_append_left (by simpa using h8)]
      simp [paddedBlock, h8]
    · rw [List.getElem_append_right (by simpa using h8)]
      by_cases heq : i = 8
      · simp [paddedBlock, heq]
      · have hpos : i - (header.toList.drop 96).length = (i - 9) + 1 := by
          simp
          omega
        simp only [hpos, List.getElem_cons_succ, List.getElem_replicate]
        simp [paddedBlock, h8, heq]

theorem blocks_header (header : Vector (BitVec 8) 104) :
    CubeHash.blocks 32 (CubeHash.pad 32 header.toList) =
      [(blockAt header 0 (by decide)).toList, (blockAt header 32 (by decide)).toList,
        (blockAt header 64 (by decide)).toList, (paddedBlock header).toList] := by
  have hpad : CubeHash.pad 32 header.toList =
      header.toList ++ (0x80 :: List.replicate 23 0) := by
    rw [CubeHash.pad, Vector.length_toList]
  have hlength : header.toList.length = 104 := Vector.length_toList
  have hcut : ∀ offset, offset + 32 ≤ 104 →
      ((header.toList ++ (0x80 :: List.replicate 23 0)).drop offset).take 32 =
        (header.toList.drop offset).take 32 := by
    intro offset ho
    rw [List.drop_append_of_le_length (by omega), List.take_append_of_le_length (by simp; omega)]
  have hlast : ((header.toList ++ (0x80 :: List.replicate 23 0)).drop 96).take 32 =
      header.toList.drop 96 ++ 0x80 :: List.replicate 23 0 := by
    rw [List.drop_append_of_le_length (by omega), List.take_of_length_le (by simp)]
  rw [hpad, CubeHash.blocks, toList_blockAt, toList_blockAt, toList_blockAt, toList_paddedBlock,
    ← hlast, ← hcut 0 (by decide), ← hcut 32 (by decide), ← hcut 64 (by decide)]
  simp [hlength, List.range_succ]

/-- The kernel's hash of a loaded message is its CubeHash-256. -/
theorem cubehash256Header_of_toList {header : Vector (BitVec 8) 104} {message : List (BitVec 8)}
    (h : header.toList = message) :
    cubehash256Header header = CubeHash.cubeHash 16 16 32 32 256 message := by
  subst h
  rw [CubeHash.cubeHash, blocks_header, List.foldl_cons, List.foldl_cons, List.foldl_cons,
    List.foldl_cons, List.foldl_nil]
  have hinput := (((represents_cubehashInit.absorbBlock (blockAt header 0 (by decide))).absorbBlock
    (blockAt header 32 (by decide))).absorbBlock
      (blockAt header 64 (by decide))).absorbBlock (paddedBlock header)
  exact ((hinput.finish (by decide)).extractHash).symm

/-- The kernel's hash of a header is its CubeHash-256. -/
theorem cubehash256Header_eq (header : Vector (BitVec 8) 104) :
    cubehash256Header header = CubeHash.cubeHash 16 16 32 32 256 header.toList :=
  cubehash256Header_of_toList rfl

end Kernel

end Lootcoin
