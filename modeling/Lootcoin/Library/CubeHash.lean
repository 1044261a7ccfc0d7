import Mathlib.Logic.Function.Iterate

/-! CubeHash `i + r / b + f - h`, the hash function with `i` rounds of initialization, `r` rounds
after every block of `b` bytes, `f` rounds of finalization, and a digest of `h` bits.  The state is
32 words, each with an index of five bits `ijklm`.  The half with `i = 0` is called low and the
half with `i = 1` high. -/

namespace CubeHash

abbrev Word : Type := BitVec 32

abbrev Index : Type := BitVec 5

abbrev State : Type := Index → Word

/-! ### The ten steps -/

/-- Adds every low word to the high word above it. -/
def addIntoHigh (x : State) : State := fun w => if w.msb then x (w ^^^ 16) + x w else x w

def rotateLow (n : ℕ) (x : State) : State := fun w => if w.msb then x w else (x w).rotateLeft n

/-- Swaps the low words whose indices differ by `d`. -/
def swapLow (d : Index) (x : State) : State := fun w => if w.msb then x w else x (w ^^^ d)

/-- Combines every high word with the low word below it. -/
def xorIntoLow (x : State) : State := fun w => if w.msb then x w else x w ^^^ x (w ^^^ 16)

/-- Swaps the high words whose indices differ by `d`. -/
def swapHigh (d : Index) (x : State) : State := fun w => if w.msb then x (w ^^^ d) else x w

def round (x : State) : State :=
  let x := addIntoHigh x
  let x := rotateLow 7 x
  let x := swapLow 0b01000 x
  let x := xorIntoLow x
  let x := swapHigh 0b00010 x
  let x := addIntoHigh x
  let x := rotateLow 11 x
  let x := swapLow 0b00100 x
  let x := xorIntoLow x
  swapHigh 0b00001 x

/-! ### Messages -/

/-- The words before initialization hold the length of a digest and of a block in bytes and the
number of rounds. -/
def parameters (r b h : ℕ) : State := fun w =>
  if w = 0 then BitVec.ofNat 32 (h / 8)
  else if w = 1 then BitVec.ofNat 32 b
  else if w = 2 then BitVec.ofNat 32 r
  else 0

/-- The word that four bytes of a block make, the lowest first. Bytes past the block are zero. -/
def blockWord (block : List (BitVec 8)) (w : Index) : Word :=
  block.getD (4 * w.toNat + 3) 0 ++ block.getD (4 * w.toNat + 2) 0 ++
    block.getD (4 * w.toNat + 1) 0 ++ block.getD (4 * w.toNat) 0

def absorb (r : ℕ) (x : State) (block : List (BitVec 8)) : State :=
  round^[r] fun w => x w ^^^ blockWord block w

/-- A one bit, and zeros up to a whole number of blocks. -/
def pad (b : ℕ) (message : List (BitVec 8)) : List (BitVec 8) :=
  message ++ 0x80 :: List.replicate ((b - (message.length + 1) % b) % b) 0

def blocks (b : ℕ) (bytes : List (BitVec 8)) : List (List (BitVec 8)) :=
  (List.range (bytes.length / b)).map fun k => (bytes.drop (k * b)).take b

/-- Flips the lowest bit of the last word and runs the final rounds. -/
def finish (f : ℕ) (x : State) : State := round^[f] fun w => if w = 31 then x w ^^^ 1 else x w

/-- The first bytes of a state, the lowest of each word first. -/
def digest (h : ℕ) (x : State) : List (BitVec 8) :=
  (List.range (h / 8)).map fun p => (x (BitVec.ofNat 5 (p / 4))).extractLsb' (8 * (p % 4)) 8

def cubeHash (i r b f h : ℕ) (message : List (BitVec 8)) : List (BitVec 8) :=
  digest h (finish f ((blocks b (pad b message)).foldl (absorb r) (round^[i] (parameters r b h))))

/-! ### Half rounds -/

/-- Five steps. A round is two half rounds. -/
def halfRound (n : ℕ) (d e : Index) (x : State) : State :=
  swapHigh e (xorIntoLow (swapLow d (rotateLow n (addIntoHigh x))))

theorem round_eq (x : State) : round x = halfRound 11 4 1 (halfRound 7 8 2 x) := rfl

variable {n : ℕ} {d e w : Index} {x : State}

theorem halfRound_high (he : e.msb = false) (hw : w.msb = true) :
    halfRound n d e x w = x (w ^^^ e ^^^ 16) + x (w ^^^ e) := by
  simp [halfRound, swapHigh, xorIntoLow, swapLow, rotateLow, addIntoHigh, he, hw]

theorem halfRound_low (hd : d.msb = false) (hw : w.msb = false) :
    halfRound n d e x w = (x (w ^^^ d)).rotateLeft n ^^^ (x w + x (w ^^^ 16)) := by
  have htop : (16#5).msb = true := by decide
  have hback : w ^^^ 16#5 ^^^ 16#5 = w := by
    rw [BitVec.xor_assoc, BitVec.xor_self, BitVec.xor_zero]
  simp [halfRound, swapHigh, xorIntoLow, swapLow, rotateLow, addIntoHigh, hd, hw, htop, hback]

end CubeHash
