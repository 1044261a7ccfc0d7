import Mathlib.Data.Fintype.Prod
import Lootcoin.Gpu.CubeHash
import Lootcoin.Gpu.Header
import Lootcoin.Gpu.Target
import Lootcoin.Library.Race

/-! The search for a nonce on the graphics card.  A launch of the kernel runs a thread for every
nonce of a batch, in any interleaving, and the threads race to publish a nonce that meets the
difficulty.  The host launches batch after batch until one has been published.  So the search stops
in the first batch that has such a nonce, with one of them, and misses none before. -/

namespace Lootcoin

namespace Kernel

/-- The place of a thread: the index of its block of threads, and its index there. -/
abbrev Thread (grid blockSize : ℕ) : Type := Fin grid × Fin blockSize

/-- The index of a thread in the launch. -/
def tid {grid blockSize : ℕ} (t : Thread grid blockSize) : ℕ := t.1.val * blockSize + t.2.val

def threadNonce {grid blockSize : ℕ} (nonceBase : ℕ) (t : Thread grid blockSize) : ℕ :=
  Word.wrappingAdd 64 nonceBase (tid t)

/-- The bytes of a header in the registers of a thread. -/
def loadHeader (header : Bytes) : Vector (BitVec 8) 104 :=
  Vector.ofFn fun i => BitVec.ofFin (header.getD i.val 0)

/-- Whether the template with a nonce meets the difficulty. -/
def noncePasses (pow2 : ℚ → ℚ) (tmpl : Bytes) (difficulty : ℚ) (nonce : ℕ) : Bool :=
  meetsDifficultyGpu pow2
    ((cubehash256Header (loadHeader (patchNonce tmpl nonce))).map fun b => b.toFin) difficulty

/-- The memory that the kernel writes: whether a nonce has been found, and the nonce. -/
structure Output where
  found : Bool
  nonce : ℕ

/-- A launch after which all threads are done, in some interleaving of what they do to the memory:
each looks at the flag, tests its nonce, exchanges the flag, and writes its nonce. -/
def MineCubehash (grid blockSize : ℕ) (passes : ℕ → Bool) (nonceBase : ℕ) (out out' : Output) :
    Prop :=
  ∃ (ts : List (Thread grid blockSize)) (s : Race.State (Thread grid blockSize) ℕ),
    Runs.Run (Race.Steps (fun t => passes (threadNonce nonceBase t)) (threadNonce nonceBase))
      { Race.start out.nonce with flag := out.found } ts s ∧
    Race.Finished s ∧ out' = ⟨s.flag, s.cell⟩

end Kernel

namespace GpuMiner

/-- Threads in a block of threads. -/
def blockSize : ℕ := 256

/-- Nonces tested in a launch. -/
def batch : ℕ := 2 ^ 22

def grid : ℕ := batch / blockSize

/-- The search of the host from a launch on, with the base of its nonces, the number of nonces tried
before, and the memory of the kernel. `stopped` tells whether the miner is told to stop before a
launch. -/
inductive Mine (passes : ℕ → Bool) (stopped : ℕ → Bool) :
    ℕ → ℕ → ℕ → Kernel.Output → Option (ℕ × ℕ) → Prop
  | cancelled {launch nonceBase total : ℕ} {out : Kernel.Output} :
      stopped launch = true → Mine passes stopped launch nonceBase total out none
  | found {launch nonceBase total : ℕ} {out out' : Kernel.Output} :
      stopped launch = false →
      Kernel.MineCubehash grid blockSize passes nonceBase out out' → out'.found = true →
      Mine passes stopped launch nonceBase total out
        (some (out'.nonce, Word.saturatingAdd 64 total batch))
  | next {launch nonceBase total : ℕ} {out out' : Kernel.Output} {result : Option (ℕ × ℕ)} :
      stopped launch = false →
      Kernel.MineCubehash grid blockSize passes nonceBase out out' → out'.found = false →
      Mine passes stopped (launch + 1) (Word.wrappingAdd 64 nonceBase batch)
        (Word.saturatingAdd 64 total batch) out' result →
      Mine passes stopped launch nonceBase total out result

end GpuMiner

namespace Kernel

variable {grid blockSize nonceBase nonce : ℕ} {passes : ℕ → Bool} {out out' : Output}

theorem tid_lt (t : Thread grid blockSize) : tid t < grid * blockSize := by
  have hle : (t.1.val + 1) * blockSize ≤ grid * blockSize := Nat.mul_le_mul_right _ t.1.isLt
  have hlt := t.2.isLt
  rw [Nat.succ_mul] at hle
  unfold tid
  omega

/-- Every nonce of a batch has a thread. -/
theorem exists_tid {i : ℕ} (hi : i < grid * blockSize) :
    ∃ t : Thread grid blockSize, tid t = i := by
  have hpos : 0 < blockSize := by
    by_contra h
    rw [Nat.eq_zero_of_not_pos h, Nat.mul_zero] at hi
    exact absurd hi (Nat.not_lt_zero i)
  refine ⟨(⟨i / blockSize, Nat.div_lt_of_lt_mul (by rwa [Nat.mul_comm])⟩,
    ⟨i % blockSize, Nat.mod_lt i hpos⟩), ?_⟩
  rw [tid, Nat.mul_comm]
  exact Nat.div_add_mod i blockSize

/-- In every interleaving, a launch finds a nonce of its batch if there is one, and writes one that
passes. -/
theorem MineCubehash.spec (h : MineCubehash grid blockSize passes nonceBase ⟨false, nonce⟩ out') :
    (out'.found = true → ∃ i < grid * blockSize, out'.nonce = Word.wrappingAdd 64 nonceBase i ∧
      passes out'.nonce = true) ∧
    (out'.found = false → out'.nonce = nonce ∧
      ∀ i < grid * blockSize, passes (Word.wrappingAdd 64 nonceBase i) = false) := by
  obtain ⟨ts, s, hrun, hdone, rfl⟩ := h
  have hrun : Runs.Run (Race.Steps _ _) (Race.start nonce) ts s := hrun
  obtain ⟨hset, hclear⟩ := Race.finished_of_run hrun hdone
  refine ⟨fun hfound => ?_, fun hfound => ?_⟩
  · obtain ⟨t, ht, hcell⟩ := hset hfound
    exact ⟨tid t, tid_lt t, hcell, by rw [show s.cell = _ from hcell]; exact ht⟩
  · obtain ⟨hcell, hall⟩ := hclear hfound
    refine ⟨hcell, fun i hi => ?_⟩
    obtain ⟨t, rfl⟩ := exists_tid hi
    exact hall t

/-- A launch ends, whatever the interleaving so far. -/
theorem exists_mineCubehash (grid blockSize : ℕ) (passes : ℕ → Bool) (nonceBase : ℕ)
    (out : Output) : ∃ out', MineCubehash grid blockSize passes nonceBase out out' := by
  obtain ⟨ts, s, hrun, hdone⟩ := Race.exists_finishes
    (fun t : Thread grid blockSize => passes (threadNonce nonceBase t)) (threadNonce nonceBase)
    { Race.start out.nonce with flag := out.found }
  exact ⟨_, ts, s, hrun, hdone, rfl⟩

end Kernel

namespace GpuMiner

open Kernel (Output MineCubehash)

variable {passes stopped : ℕ → Bool} {start k : ℕ} {out : Output} {result : Option (ℕ × ℕ)}

theorem grid_mul_blockSize : grid * blockSize = batch := by decide

/-- The base of the nonces of a launch. -/
def baseOf (start k : ℕ) : ℕ := (start + k * batch) % 2 ^ 64

/-- The nonces tried before a launch, as they are counted. -/
def triedBefore (k : ℕ) : ℕ := min (k * batch) (Word.maxValue 64)

theorem wrappingAdd_baseOf (start k i : ℕ) :
    Word.wrappingAdd 64 (baseOf start k) i = (start + k * batch + i) % 2 ^ 64 := by
  rw [Word.wrappingAdd, baseOf, Nat.mod_add_mod]

theorem baseOf_succ (start k : ℕ) :
    Word.wrappingAdd 64 (baseOf start k) batch = baseOf start (k + 1) := by
  rw [wrappingAdd_baseOf, baseOf, Nat.succ_mul, Nat.add_assoc]

theorem triedBefore_succ (k : ℕ) :
    Word.saturatingAdd 64 (triedBefore k) batch = triedBefore (k + 1) := by
  rw [Word.saturatingAdd, triedBefore, triedBefore, Nat.succ_mul]
  omega

/-- No nonce of the batches before a launch passes. -/
def NoneBefore (passes : ℕ → Bool) (start k : ℕ) : Prop :=
  ∀ j < k * batch, passes ((start + j) % 2 ^ 64) = false

/-- What a launch without success adds. -/
theorem NoneBefore.succ (h : NoneBefore passes start k)
    (hbatch : ∀ i < batch, passes (Word.wrappingAdd 64 (baseOf start k) i) = false) :
    NoneBefore passes start (k + 1) := by
  intro j hj
  by_cases hlt : j < k * batch
  · exact h j hlt
  · rw [Nat.succ_mul] at hj
    have hnext := hbatch (j - k * batch) (by omega)
    rwa [wrappingAdd_baseOf, show start + k * batch + (j - k * batch) = start + j by omega] at hnext

/-- What the search returns: a nonce of the first batch that has one that passes, and the number of
nonces of the batches up to it, or nothing where the miner was told to stop before. -/
def Returns (passes stopped : ℕ → Bool) (start : ℕ) : Option (ℕ × ℕ) → Prop
  | some (nonce, total) => ∃ k, (∀ j ≤ k, stopped j = false) ∧ NoneBefore passes start k ∧
      (∃ i < batch, nonce = (start + k * batch + i) % 2 ^ 64) ∧ passes nonce = true ∧
      total = triedBefore (k + 1)
  | none => ∃ k, (∀ j < k, stopped j = false) ∧ stopped k = true ∧ NoneBefore passes start k

theorem returns_of_mine (hbefore : ∀ j < k, stopped j = false) (hnone : NoneBefore passes start k)
    (hout : out.found = false)
    (h : Mine passes stopped k (baseOf start k) (triedBefore k) out result) :
    Returns passes stopped start result := by
  generalize hbase : baseOf start k = base at h
  generalize htotal : triedBefore k = total at h
  induction h with
  | cancelled hstop => exact ⟨_, hbefore, hstop, hnone⟩
  | @found k _ _ out out' hgo hlaunch hfound =>
    subst hbase htotal
    obtain ⟨found, nonce⟩ := out
    subst hout
    obtain ⟨i, hi, hnonce, hpasses⟩ := hlaunch.spec.1 hfound
    rw [grid_mul_blockSize] at hi
    refine ⟨k, fun j hj => ?_, hnone, ⟨i, hi, ?_⟩, hpasses, triedBefore_succ k⟩
    · rcases Nat.lt_or_eq_of_le hj with hlt | rfl
      · exact hbefore j hlt
      · exact hgo
    · rw [hnonce, wrappingAdd_baseOf]
  | @next k _ _ out out' _ hgo hlaunch hfound _ ih =>
    subst hbase htotal
    obtain ⟨found, nonce⟩ := out
    subst hout
    obtain ⟨-, hbatch⟩ := hlaunch.spec.2 hfound
    rw [grid_mul_blockSize] at hbatch
    refine ih (fun j hj => ?_) (hnone.succ hbatch) hfound (baseOf_succ start k).symm
      (triedBefore_succ k).symm
    rcases Nat.lt_succ_iff_lt_or_eq.mp hj with hlt | rfl
    · exact hbefore j hlt
    · exact hgo

/-- A search that is not told to stop before the batch of a nonce that passes finds one. -/
theorem exists_mine {last : ℕ} (hgo : ∀ j ≤ last, stopped j = false)
    (hsome : ¬ NoneBefore passes start (last + 1)) (hk : k ≤ last) (hnone : NoneBefore passes start k)
    (hout : out.found = false) : ∃ nonce total,
      Mine passes stopped k (baseOf start k) (triedBefore k) out (some (nonce, total)) := by
  induction hd : last - k generalizing k out with
  | zero =>
    obtain rfl : k = last := by omega
    obtain ⟨out', hlaunch⟩ := Kernel.exists_mineCubehash grid blockSize passes (baseOf start k) out
    obtain ⟨found, nonce⟩ := out
    subst hout
    cases hfound : out'.found with
    | true => exact ⟨_, _, .found (hgo k hk) hlaunch hfound⟩
    | false =>
      have hbatch := (hlaunch.spec.2 hfound).2
      rw [grid_mul_blockSize] at hbatch
      exact absurd (hnone.succ hbatch) hsome
  | succ d ih =>
    obtain ⟨out', hlaunch⟩ := Kernel.exists_mineCubehash grid blockSize passes (baseOf start k) out
    obtain ⟨found, nonce⟩ := out
    subst hout
    cases hfound : out'.found with
    | true => exact ⟨_, _, .found (hgo k hk) hlaunch hfound⟩
    | false =>
      have hbatch := (hlaunch.spec.2 hfound).2
      rw [grid_mul_blockSize] at hbatch
      obtain ⟨nonce', total, hrest⟩ :=
        ih (k := k + 1) (by omega) (hnone.succ hbatch) hfound (by omega)
      refine ⟨nonce', total, .next (hgo k hk) hlaunch hfound ?_⟩
      rwa [baseOf_succ, triedBefore_succ]

end GpuMiner

namespace Kernel

/-! ### The header that a thread hashes -/

/-- The CubeHash-256 of a serialized header. -/
def headerDigest (h : Header) : Bytes :=
  (CubeHash.cubeHash 16 16 32 32 256 ((serializeHeader h).map BitVec.ofFin)).map fun b => b.toFin

theorem length_headerDigest (h : Header) : (headerDigest h).length = 32 := by
  simp [headerDigest, CubeHash.cubeHash, CubeHash.digest]

theorem toList_loadHeader {header : Bytes} (h : header.length = 104) :
    (loadHeader header).toList = header.map BitVec.ofFin := by
  apply List.ext_getElem
  · simp [h]
  · intro i hi hi'
    rw [List.length_map] at hi'
    simp [loadHeader, hi']

theorem headerDigest_eq {h : Header} (hlen : (serializeHeader h).length = 104) :
    headerDigest h =
      (cubehash256Header (loadHeader (serializeHeader h))).map fun b => b.toFin := by
  rw [cubehash256Header_of_toList (toList_loadHeader hlen), headerDigest]

/-- A thread tests the digest of the block's header with its nonce. -/
theorem noncePasses_template {b : Block} {tmpl : Bytes}
    (h : Miner.makeHeaderTemplate b = .ok tmpl) (pow2 : ℚ → ℚ) (difficulty : ℚ) (nonce : ℕ) :
    noncePasses pow2 tmpl difficulty nonce =
      meetsDifficultyGpu pow2 (headerDigest { b.toHeader with nonce := nonce }) difficulty := by
  rw [Miner.makeHeaderTemplate_eq] at h
  split at h
  · rename_i hlen
    cases h
    have hlength : (serializeHeader { b.toHeader with nonce := nonce }).length = 104 := by
      simp [serializeHeader, encodeBytes, length_littleEndian, hlen.1, hlen.2]
    rw [noncePasses, patchNonce_serializeHeader hlen.1, headerDigest_eq hlength]
  · cases h

end Kernel

namespace GpuMiner

open Kernel (noncePasses meetsDifficultyGpu headerDigest)

/-- Whatever the interleavings of the threads in its launches, the search for a nonce of a block
returns one of the first batch with a nonce whose header digest meets the difficulty, or nothing
where it was told to stop before. It does return one when it is not told to stop. -/
theorem mine_returns {b : Block} {tmpl : Bytes} (pow2 : ℚ → ℚ) (difficulty : ℚ) (stopped : ℕ → Bool)
    (hnonce : b.nonce < 2 ^ 64) (htmpl : Miner.makeHeaderTemplate b = .ok tmpl) :
    (∀ result, Mine (noncePasses pow2 tmpl difficulty) stopped 0 b.nonce 0 ⟨false, 0⟩ result →
      Returns (fun nonce => meetsDifficultyGpu pow2
        (headerDigest { b.toHeader with nonce := nonce }) difficulty) stopped b.nonce result) ∧
    ∀ last, (∀ k ≤ last, stopped k = false) →
      ¬ NoneBefore (fun nonce => meetsDifficultyGpu pow2
        (headerDigest { b.toHeader with nonce := nonce }) difficulty) b.nonce (last + 1) →
      ∃ nonce total, Mine (noncePasses pow2 tmpl difficulty) stopped 0 b.nonce 0 ⟨false, 0⟩
        (some (nonce, total)) := by
  have hpasses : noncePasses pow2 tmpl difficulty = fun nonce => meetsDifficultyGpu pow2
      (headerDigest { b.toHeader with nonce := nonce }) difficulty :=
    funext fun nonce => Kernel.noncePasses_template htmpl pow2 difficulty nonce
  have hbase : baseOf b.nonce 0 = b.nonce := by
    rw [baseOf, Nat.zero_mul, Nat.add_zero, Nat.mod_eq_of_lt hnonce]
  have htotal : triedBefore 0 = 0 := by simp [triedBefore]
  have hnone : ∀ passes : ℕ → Bool, NoneBefore passes b.nonce 0 := fun _ j hj => by
    simp at hj
  have hclear : (⟨false, 0⟩ : Kernel.Output).found = false := rfl
  rw [hpasses]
  refine ⟨fun result h => ?_, fun last hgo hsome => ?_⟩
  · refine returns_of_mine (k := 0) (fun j hj => absurd hj (Nat.not_lt_zero j)) (hnone _) hclear ?_
    rwa [hbase, htotal]
  · have h := exists_mine hgo hsome (Nat.zero_le last) (hnone _) hclear
    rwa [hbase, htotal] at h

end GpuMiner

namespace Sample

open Kernel (meetsDifficultyGpu headerDigest noncePasses roundedPower)
open GpuMiner (Mine NoneBefore Returns)

/-- A block of which a template can be made. -/
def launchedBlock : Block := { digestBlock with previousHash := List.replicate 32 0 }

/-- Whether the digest of the block with a nonce has four zero bits. -/
noncomputable def launchedPasses (nonce : ℕ) : Bool :=
  meetsDifficultyGpu roundedPower (headerDigest { launchedBlock.toHeader with nonce := nonce }) 4

theorem launchedPasses_iff (nonce : ℕ) : launchedPasses nonce = true ↔
    4 ≤ leadingZeroBits (headerDigest { launchedBlock.toHeader with nonce := nonce }) :=
  Kernel.meetsDifficultyGpu_natCast (k := 4) Kernel.doublePower_roundedPower
    (Kernel.length_headerDigest _) (by decide) (by decide)

/-- The digest with the nonce of the block has no zero bits, and one of those after it has four. -/
theorem leadingZeroBits_launchedBlock :
    leadingZeroBits (headerDigest { launchedBlock.toHeader with nonce := 32 }) = 0 ∧
      leadingZeroBits (headerDigest { launchedBlock.toHeader with nonce := 39 }) = 4 := by
  rw [Kernel.headerDigest_eq (by decide), Kernel.headerDigest_eq (by decide)]
  decide +kernel

/-- The nonce of the block does not pass at four bits, and the first launch finds one that does. -/
theorem launchedBlock_mined :
    ((∀ result, Mine (noncePasses roundedPower (serializeHeader launchedBlock.toHeader) 4)
        (fun _ => false) 0 launchedBlock.nonce 0 ⟨false, 0⟩ result →
      Returns launchedPasses (fun _ => false) launchedBlock.nonce result) ∧
    ∀ last : ℕ, (∀ k ≤ last, (fun _ => false) k = false) →
      ¬ NoneBefore launchedPasses launchedBlock.nonce (last + 1) →
      ∃ nonce total, Mine (noncePasses roundedPower (serializeHeader launchedBlock.toHeader) 4)
        (fun _ => false) 0 launchedBlock.nonce 0 ⟨false, 0⟩ (some (nonce, total))) ∧
    launchedPasses launchedBlock.nonce = false ∧
    ¬ NoneBefore launchedPasses launchedBlock.nonce 1 := by
  obtain ⟨hfirst, hlater⟩ := leadingZeroBits_launchedBlock
  refine ⟨?_, ?_, fun h => ?_⟩
  · refine GpuMiner.mine_returns roundedPower 4 (fun _ => false) (by decide) ?_
    rw [Miner.makeHeaderTemplate_eq, if_pos ⟨by decide, by decide⟩]
  · rw [← Bool.not_eq_true, launchedPasses_iff]
    show ¬ 4 ≤ leadingZeroBits (headerDigest { launchedBlock.toHeader with nonce := 32 })
    rw [hfirst]
    decide
  · have hpass : launchedPasses 39 = true := by
      rw [launchedPasses_iff, hlater]
    exact Bool.false_ne_true ((h 7 (by decide)).symm.trans hpass)

end Sample

end Lootcoin
