import Lootcoin.Node.Heights
import Lootcoin.Node.Median
import Lootcoin.Node.Work

/-! The difficulty along a chain.  The median rule keeps every block after block 1 later than block
1, so the elapsed time of the ASERT formula is never cut off, and the difficulty stays close to the
formula's value at the last block, whatever lies between.  So a fork is asked at its admission for
the difficulty that its replay asks for. -/

namespace Lootcoin

/-- What a new difficulty has to differ by to be taken. -/
def hysteresis : ℚ := 1 / 1000000000

/-- The difficulty of block `k` in exact arithmetic: that of block 1, moved by the time by which
the blocks since are ahead. -/
def asertClosedForm (d₀ : ℚ) (k first timestamp : ℕ) : ℚ :=
  max minDifficulty (min maxDifficulty
    (d₀ + (60 * ((k : ℚ) - 1) - ((timestamp : ℚ) - first)) / 3600))

/-- The most blocks that a vector holds: a block takes 120 bytes and a vector `2 ^ 63 - 1` at
most. -/
def vecCapacity : ℕ := (2 ^ 63 - 1) / 120

/-! ### The median -/

/-- Where all blocks but one are no earlier than `v`, and there are two blocks, a timestamp past
the median exceeds `v`. -/
theorem lt_of_pastMedian {blocks : List Block} {timestamp v : ℕ}
    (hcount : (blocks.map fun b => b.timestamp).countP (· < v) ≤ 1) (hlen : 2 ≤ blocks.length)
    (h : pastMedian blocks timestamp = true) : v < timestamp := by
  have hwindow : mtpWindow = 11 := rfl
  have hlength := length_recentTimestamps blocks
  have hfew : (recentTimestamps blocks).countP (· < v) ≤ 1 := by
    have hsub : (recentTimestamps blocks).Sublist (blocks.map fun b => b.timestamp).reverse := by
      rw [recentTimestamps, ← List.map_reverse]
      exact (List.take_sublist _ _).map _
    calc (recentTimestamps blocks).countP (· < v)
        ≤ (blocks.map fun b => b.timestamp).reverse.countP (· < v) := hsub.countP_le
      _ = (blocks.map fun b => b.timestamp).countP (· < v) := List.countP_reverse ..
      _ ≤ 1 := hcount
  obtain ⟨m, hm⟩ := exists_medianTimePast (List.ne_nil_of_length_pos (by omega : 0 < blocks.length))
  have hv : v ≤ m := by
    rw [medianTimePast_eq_ranked] at hm
    rw [OrderStatistic.le_ranked_iff hm]
    omega
  rw [pastMedian, hm] at h
  have := of_decide_eq_true h
  omega

/-! ### The formula -/

/-- While the multiplication fits and the block is not earlier than block 1, the difficulty is that
of exact arithmetic. -/
theorem asertTarget_eq {d₀ : ℚ} {k first timestamp : ℕ} (hk : 1 ≤ k) (hfits : 60 * k < 2 ^ 64)
    (htime : first ≤ timestamp) :
    asertTarget ⟨1, first, d₀⟩ k timestamp = asertClosedForm d₀ k first timestamp := by
  have hideal : Word.wrappingMul 64 (Word.wrappingSub 64 k 1) targetBlockTimeSecs =
      (k - 1) * 60 := by
    rw [Word.wrappingSub_of_le (by omega) hk]
    exact Word.wrappingMul_of_lt (show (k - 1) * 60 < 2 ^ 64 by omega)
  have hcast : (((k - 1) * 60 : ℕ) : ℚ) = 60 * ((k : ℚ) - 1) := by
    rw [Nat.cast_mul, Nat.cast_sub hk]
    push_cast
    ring
  rw [asertTarget, asertClosedForm]
  simp only [hideal, hcast, Nat.cast_sub htime, asertHalflifeSecs]

/-- At block 1, the formula gives the difficulty of the anchor. -/
theorem asertTarget_one {d₀ : ℚ} (hlo : minDifficulty ≤ d₀) (hhi : d₀ ≤ maxDifficulty)
    (first : ℕ) : asertTarget ⟨1, first, d₀⟩ 1 first = d₀ := by
  rw [asertTarget_eq (Nat.le_refl 1) (by decide) (Nat.le_refl first), asertClosedForm]
  simp [hlo, hhi]

namespace DerivedState

variable {s : DerivedState} {b : Block} {a : AsertAnchor}

/-- After block 1 the difficulty is close to the formula's. -/
theorem adjustDifficulty_close (hb : b.index ≠ 1) (ha : s.asertAnchor = some a)
    (hmin : minDifficulty ≤ a.difficulty) :
    |(s.adjustDifficulty b).currentDifficulty - asertTarget a b.index b.timestamp| ≤
      hysteresis := by
  have hpos : (0 : ℚ) ≤ hysteresis := by decide +kernel
  unfold adjustDifficulty
  simp only [if_neg hb, ha, if_neg (not_lt.mpr hmin)]
  split
  · simpa using hpos
  · rename_i hclose
    rw [abs_sub_comm]
    exact not_lt.mp hclose

/-- A chain whose anchor is below the minimum keeps its difficulty. -/
theorem adjustDifficulty_keeps (hb : b.index ≠ 1) (ha : s.asertAnchor = some a)
    (hmin : a.difficulty < minDifficulty) :
    (s.adjustDifficulty b).currentDifficulty = s.currentDifficulty := by
  unfold adjustDifficulty
  simp only [if_neg hb, ha, if_pos hmin]

theorem adjustDifficulty_anchors (hb : b.index = 1) :
    (s.adjustDifficulty b).currentDifficulty = s.currentDifficulty := by
  unfold adjustDifficulty
  rw [if_pos hb]

end DerivedState

namespace Blockchain

variable {core : Core} {c c' start : Blockchain} {b g first last : Block} {rest : List Block}

/-- A chain above block 1: block 1 is the anchor, the blocks above are later, and the difficulty is
that of the anchor if that is below the minimum, or close to the formula's. -/
structure Tuned (c : Blockchain) (g first : Block) (rest : List Block) : Prop where
  blocks : c.blocks = g :: first :: rest
  blocksOffset : c.blocksOffset = 0
  anchor : c.asertAnchor = some ⟨1, first.timestamp, c.initialDifficulty⟩
  later : ∀ x ∈ rest, first.timestamp < x.timestamp
  low : c.initialDifficulty < minDifficulty → c.currentDifficulty = c.initialDifficulty
  close : minDifficulty ≤ c.initialDifficulty → c.initialDifficulty ≤ maxDifficulty →
    ∀ last, c.blocks.getLast? = some last →
      |c.currentDifficulty - asertTarget ⟨1, first.timestamp, c.initialDifficulty⟩
        (rest.length + 1) last.timestamp| ≤ hysteresis

theorem Origin.tuned (ho : Origin start g) (ha : Appended core start first c) :
    Tuned c g first [] := by
  have hblocks : c.blocks = [g, first] := by rw [ha.blocks, ho.blocks, List.singleton_append]
  have hindex : first.index = 1 := by
    rw [ha.index, getHeight, ho.blocksOffset, ho.blocks, List.length_singleton]
  obtain ⟨payouts, hadv⟩ := ha.advance
  obtain ⟨hdiff, hanchor⟩ := DerivedState.advance_difficulty hadv
  rw [DerivedState.adjustDifficulty_anchors hindex, ho.currentDifficulty] at hdiff
  rw [DerivedState.adjustDifficulty_asertAnchor, if_pos hindex, ho.currentDifficulty] at hanchor
  refine ⟨hblocks, ha.blocksOffset.trans ho.blocksOffset, ?_, by simp, fun _ => ?_,
    fun hlo hhi last hlast => ?_⟩
  · rw [hanchor, ha.initialDifficulty]
  · rw [hdiff, ha.initialDifficulty]
  · obtain rfl : first = last := by simpa [hblocks] using hlast
    rw [List.length_nil, Nat.zero_add, asertTarget_one hlo hhi, hdiff, ha.initialDifficulty,
      sub_self, abs_zero]
    decide +kernel

/-- An appended block is past a median that at most the genesis block precedes block 1 for. -/
theorem Tuned.append (h : Tuned c g first rest) (ha : Appended core c b c') :
    Tuned c' g first (rest ++ [b]) := by
  have hlater : first.timestamp < b.timestamp := by
    have hpast := ha.pastMedian
    refine lt_of_pastMedian ?_ ?_ hpast
    · have hnone : ((first :: rest).map fun x => x.timestamp).countP (· < first.timestamp) = 0 := by
        rw [List.countP_eq_zero]
        simpa using fun x hx => (h.later x hx).le
      rw [h.blocks, List.map_cons, List.countP_cons, hnone]
      split <;> omega
    · simp [h.blocks]
  have hindex : b.index = rest.length + 2 := by
    rw [ha.index, getHeight, h.blocksOffset, h.blocks]
    simp
  obtain ⟨payouts, hadv⟩ := ha.advance
  obtain ⟨hdiff, hanchor⟩ := DerivedState.advance_difficulty hadv
  rw [DerivedState.adjustDifficulty_asertAnchor, if_neg (by omega), h.anchor] at hanchor
  refine ⟨by rw [ha.blocks, h.blocks]; rfl, ha.blocksOffset.trans h.blocksOffset, ?_, ?_,
    fun hlo => ?_, fun hlo hhi last hlast => ?_⟩
  · rw [hanchor, ha.initialDifficulty]
  · intro x hx
    rcases List.mem_append.mp hx with hx | hx
    · exact h.later x hx
    · exact List.mem_singleton.mp hx ▸ hlater
  · rw [ha.initialDifficulty] at hlo ⊢
    rw [hdiff, DerivedState.adjustDifficulty_keeps (by omega) h.anchor hlo, h.low hlo]
  · obtain rfl : b = last := by simpa [ha.blocks] using hlast
    rw [ha.initialDifficulty] at hlo ⊢
    have hclose := DerivedState.adjustDifficulty_close (b := b) (by omega) h.anchor hlo
    rwa [hdiff, List.length_append, List.length_singleton, ← hindex]

/-- Every chain that appends grow above a genesis block is tuned. -/
theorem Origin.tuned_of_grows (ho : Origin start g)
    (hgrow : Grows core start (first :: rest) c) : Tuned c g first rest := by
  induction rest using List.reverseRecOn generalizing c with
  | nil =>
    obtain _ | ⟨hstep, hnil⟩ := hgrow
    cases hnil
    exact ho.tuned hstep.appended
  | append_singleton rest b ih =>
    rw [← List.cons_append] at hgrow
    obtain ⟨mid, hmid, hlast⟩ := Runs.Run.split hgrow
    obtain _ | ⟨hstep, hnil⟩ := hlast
    cases hnil
    exact (ih hmid).append hstep.appended

/-! ### The closed form -/

/-- An append after which the vector of blocks is no longer than a vector can be. -/
def Pushes (core : Core) (c : Blockchain) (b : Block) (c' : Blockchain) : Prop :=
  Appends core c b c' ∧ c'.blocks.length ≤ vecCapacity

/-- Appends to a chain that fits in a vector in the end are pushes. -/
theorem Grows.pushes {bs : List Block} (h : Grows core c bs c')
    (hsize : c'.blocks.length ≤ vecCapacity) : Runs.Run (Pushes core) c bs c' := by
  induction h with
  | nil => exact .nil _
  | @cons c d c' b bs hstep hgrow ih =>
    have hle : d.blocks.length ≤ c'.blocks.length := by
      rw [Grows.blocks hgrow, List.length_append]
      exact Nat.le_add_right _ _
    exact .cons ⟨hstep, hle.trans hsize⟩ (ih hsize)

/-- Every block of a chain after block 1 is later than block 1, and the difficulty after a block
above the genesis block is close to its closed form. -/
theorem asert_of_run {bs : List Block} (ho : Origin start g)
    (hlo : minDifficulty ≤ start.initialDifficulty)
    (hhi : start.initialDifficulty ≤ Lootcoin.initialDifficulty)
    (run : Runs.Run (Pushes core) start bs c) (hfirst : bs.head? = some first) :
    (∀ k x, 2 ≤ k → c.blocks[k]? = some x → first.timestamp < x.timestamp) ∧
    ∀ x, c.blocks.getLast? = some x → |c.currentDifficulty -
      asertClosedForm start.initialDifficulty bs.length first.timestamp x.timestamp| ≤
        hysteresis := by
  obtain ⟨rest, rfl⟩ : ∃ rest, bs = first :: rest := by
    cases bs with
    | nil => simp at hfirst
    | cons b rest => exact ⟨rest, by simpa using hfirst⟩
  have hgrow : Grows core start (first :: rest) c := run.mono fun h => h.1
  have ht := ho.tuned_of_grows hgrow
  have hsize : c.blocks.length ≤ vecCapacity :=
    run.invariant (P := fun c => c.blocks.length ≤ vecCapacity) (fun h _ => h.2)
      (by rw [ho.blocks, List.length_singleton]; decide)
  constructor
  · intro k x hk hx
    obtain ⟨j, rfl⟩ : ∃ j, k = j + 2 := ⟨k - 2, by omega⟩
    rw [ht.blocks] at hx
    exact ht.later x (List.mem_of_getElem? (by simpa using hx))
  · intro x hx
    have hmax : Lootcoin.initialDifficulty ≤ maxDifficulty := by decide +kernel
    have hclose := ht.close (by rwa [hgrow.initialDifficulty])
      (by rw [hgrow.initialDifficulty]; exact hhi.trans hmax) x hx
    have hle : first.timestamp ≤ x.timestamp := by
      rw [ht.blocks, List.getLast?_cons_cons] at hx
      rcases List.mem_cons.mp (List.mem_of_getLast? hx) with rfl | hmem
      · exact Nat.le_refl _
      · exact (ht.later x hmem).le
    have hfits : 60 * (rest.length + 1) < 2 ^ 64 := by
      rw [ht.blocks] at hsize
      simp only [List.length_cons, vecCapacity] at hsize
      omega
    rw [asertTarget_eq (Nat.succ_pos _) hfits hle, hgrow.initialDifficulty] at hclose
    rwa [List.length_cons]

end Blockchain

theorem Node.origin_freshChain (env : Option ℚ) (pot : ℕ) (genesis : Block) :
    Blockchain.Origin (freshChain env pot genesis) genesis := ⟨rfl, rfl, rfl, rfl, rfl⟩

namespace Sample

theorem heights_asert : ∃ (first : Block) (c : Blockchain),
    Runs.Run (Blockchain.Pushes plainCore) node.chain [mainBlock, secondBlock] c ∧
    (∀ k x, 2 ≤ k → c.blocks[k]? = some x → first.timestamp < x.timestamp) ∧
    ∀ x, c.blocks.getLast? = some x → |c.currentDifficulty -
      asertClosedForm node.chain.initialDifficulty 2 first.timestamp x.timestamp| ≤
        hysteresis := by
  have hrun : (Blockchain.applyAll plainCore (fun _ => 1748000200) node.chain
      [mainBlock, secondBlock]).toOption.map (fun r => r.map fun c => c.blocks.length) =
      some (some 3) := by
    decide +kernel
  obtain ⟨r, happ, hobs⟩ := Fallible.exists_of_toOption_map hrun
  obtain ⟨c, rfl, hlen⟩ := Option.map_eq_some_iff.mp hobs
  have hpush := (Blockchain.applyAll_grows happ).pushes (by rw [hlen]; decide)
  have horigin : Blockchain.Origin node.chain genesis :=
    Node.origin_freshChain none Node.genesisPotAmount genesis
  have hfirst : [mainBlock, secondBlock].head? = some mainBlock := rfl
  have hasert := Blockchain.asert_of_run horigin (by decide +kernel) (by decide +kernel) hpush
    hfirst
  exact ⟨mainBlock, c, hpush, hasert⟩

end Sample

end Lootcoin
