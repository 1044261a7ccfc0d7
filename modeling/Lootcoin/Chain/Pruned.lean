import Lootcoin.Chain.Window

/-! Chains that agree but for the length of their windows.  `updateState` reads the window for the
median of the last timestamps and for the draws of the maturing tickets, so two such chains treat
a block alike when both give it the same median test and the same draws.  A window of a hundred
blocks always does. -/

namespace Lootcoin

theorem DerivedState.advance_congr {core : Core} {hashAt hashAt' : ℕ → Option Bytes}
    {s : DerivedState} {b : Block}
    (h : DerivedState.SameDraws core hashAt hashAt' (s.toSettle b.index)) :
    s.advance core hashAt b = s.advance core hashAt' b := by
  unfold DerivedState.advance
  rw [DerivedState.settleTickets_congr h]

namespace Blockchain

variable {core : Core} {now : ℕ} {b : Block} {c c' d d' full full' : Blockchain}

/-- Two chains have the same derived state and tip. -/
structure SameTip (c d : Blockchain) : Prop where
  derived : c.toDerivedState = d.toDerivedState
  getHeight : c.getHeight = d.getHeight
  getLatestHash : c.getLatestHash = d.getLatestHash

/-- The windows of two chains give a block the same median test and the same draws. -/
structure SameRules (core : Core) (c d : Blockchain) (b : Block) : Prop where
  pastMedian : Lootcoin.pastMedian c.blocks b.timestamp = Lootcoin.pastMedian d.blocks b.timestamp
  draws : DerivedState.SameDraws core c.blockHashAt d.blockHashAt (c.toSettle b.index)

theorem SameTip.symm (h : SameTip c d) : SameTip d c :=
  ⟨h.derived.symm, h.getHeight.symm, h.getLatestHash.symm⟩

theorem SameRules.symm (ht : SameTip c d) (h : SameRules core c d b) : SameRules core d c b where
  pastMedian := h.pastMedian.symm
  draws := by
    intro t hmem s
    rw [← ht.derived] at hmem
    exact (h.draws t hmem s).symm

theorem SameTip.acceptsBlock (h : SameTip c d)
    (hm : pastMedian c.blocks b.timestamp = pastMedian d.blocks b.timestamp) :
    c.acceptsBlock core now b = d.acceptsBlock core now b := by
  unfold Blockchain.acceptsBlock linksToTip
  rw [h.derived, h.getHeight, h.getLatestHash, hm]

/-- Chains with the same tip, under whose windows a block meets the same rules, both accept it or
both refuse it, and have the same tip afterwards. -/
theorem SameTip.updateState (h : SameTip c d) (hr : SameRules core c d b)
    (hc : c.updateState core now b = .ok (some c')) :
    ∃ d', d.updateState core now b = .ok (some d') ∧ SameTip c' d' := by
  obtain ⟨hacc, s, payouts, hadv, rfl⟩ := updateState_eq_some.mp hc
  rw [h.acceptsBlock hr.pastMedian] at hacc
  rw [DerivedState.advance_congr hr.draws, h.derived] at hadv
  refine ⟨d.commitBlock b s payouts, updateState_eq_some.mpr ⟨hacc, s, payouts, hadv, rfl⟩, rfl, ?_,
    ?_⟩
  · have := h.getHeight
    simp only [Blockchain.getHeight, commitBlock, List.length_append] at this ⊢
    omega
  · simp [Blockchain.getLatestHash, commitBlock]

/-- Both chains accept the block, or both refuse it, or both fail on it. -/
theorem SameTip.verdict (h : SameTip c d) (hr : SameRules core c d b) :
    (c.updateState core now b).map Option.isSome =
      (d.updateState core now b).map Option.isSome := by
  unfold Blockchain.updateState
  rw [h.acceptsBlock hr.pastMedian, DerivedState.advance_congr hr.draws, h.derived]
  split
  · cases d.advance core d.blockHashAt b <;> rfl
  · rfl

/-! ### A window of a whole chain -/

/-- `c` is the whole chain `full` with blocks dropped from the window, and with other tables. -/
structure EndOf (full c : Blockchain) : Prop where
  derived : c.toDerivedState = full.toDerivedState
  whole : full.blocksOffset = 0
  offset_lt : c.blocksOffset < full.blocks.length
  blocks : c.blocks = full.blocks.drop c.blocksOffset
  genesisPot : c.genesisPot = full.genesisPot
  initialDifficulty : c.initialDifficulty = full.initialDifficulty

/-- The window that blocks were dropped from is still as long as a reveal. -/
structure PrunedFrom (full c : Blockchain) : Prop extends EndOf full c where
  long : c.blocksOffset = 0 ∨ reorgWindow ≤ c.blocks.length

theorem EndOf.refl (hc : c.blocks ≠ []) (ho : c.blocksOffset = 0) : EndOf c c where
  derived := rfl
  whole := ho
  offset_lt := ho ▸ List.length_pos_of_ne_nil hc
  blocks := by rw [ho, List.drop_zero]
  genesisPot := rfl
  initialDifficulty := rfl

/-- A chain that has never been pruned is a pruned chain of itself. -/
theorem PrunedFrom.refl (hc : c.blocks ≠ []) (ho : c.blocksOffset = 0) : PrunedFrom c c :=
  ⟨.refl hc ho, .inl ho⟩

theorem EndOf.length (h : EndOf full c) :
    c.blocksOffset + c.blocks.length = full.blocks.length := by
  have := h.offset_lt
  rw [h.blocks, List.length_drop]
  omega

theorem EndOf.sameTip (h : EndOf full c) : SameTip c full where
  derived := h.derived
  getHeight := by rw [getHeight, getHeight, h.whole, h.length, Nat.zero_add]
  getLatestHash := by
    rw [getLatestHash, getLatestHash, h.blocks, List.getLast?_drop,
      if_neg (Nat.not_le.mpr h.offset_lt)]

theorem EndOf.blockHashAt (h : EndOf full c) {i : ℕ} (hi : c.blocksOffset ≤ i) :
    c.blockHashAt i = full.blockHashAt i := by
  unfold Blockchain.blockHashAt
  rw [if_neg (Nat.not_lt.mpr hi), h.whole, if_neg (Nat.not_lt_zero i), h.blocks, List.getElem?_drop,
    Nat.sub_zero, Nat.add_sub_cancel' hi]

theorem medianTimePast_drop {l : List Block} {k : ℕ} (h : k = 0 ∨ mtpWindow ≤ (l.drop k).length) :
    medianTimePast (l.drop k) = medianTimePast l := by
  have htake : (l.drop k).reverse.take mtpWindow = l.reverse.take mtpWindow := by
    rcases h with rfl | h
    · rw [List.drop_zero]
    · rw [List.length_drop] at h
      rw [List.reverse_drop, List.take_take, Nat.min_eq_left h]
  unfold medianTimePast
  rw [htake]

theorem revealEntropy_congr {hashAt hashAt' : ℕ → Option Bytes} {start : ℕ}
    (h : ∀ i < revealBlocks, hashAt (start + i) = hashAt' (start + i)) :
    revealEntropy hashAt start = revealEntropy hashAt' start := by
  unfold revealEntropy
  exact List.flatMap_congr fun i hi => by rw [h i (List.mem_range.mp hi)]

/-- A pruned window shows the next block the rules that the whole chain does. -/
theorem PrunedFrom.sameRules (h : PrunedFrom full c) (hb : b.index = c.getHeight) :
    SameRules core c full b where
  pastMedian := by
    have hlong := h.long
    have hmtp : mtpWindow ≤ reorgWindow := by decide
    rw [h.blocks] at hlong ⊢
    unfold Lootcoin.pastMedian
    rw [medianTimePast_drop (hlong.imp_right hmtp.trans)]
  draws := by
    refine DerivedState.sameDraws_of_revealEntropy fun t ht => revealEntropy_congr fun i _ => ?_
    apply h.blockHashAt
    -- a maturing ticket is as old as a whole reveal, and the window reaches that far back
    have hage : t.createdHeight + revealBlocks = b.index := by
      simpa using (List.mem_filter.mp ht).2
    have hle := revealBlocks_le_reorgWindow
    rw [getHeight] at hb
    rcases h.long with hz | hlong <;> omega

theorem EndOf.commit (h : EndOf full c) (hc : Appended core c b c')
    (hf : Appended core full b full') (hd : c'.toDerivedState = full'.toDerivedState) :
    EndOf full' c' where
  derived := hd
  whole := hf.blocksOffset.trans h.whole
  offset_lt := by
    have := h.offset_lt
    rw [hc.blocksOffset, hf.blocks, List.length_append]
    omega
  blocks := by
    rw [hc.blocksOffset, hc.blocks, hf.blocks, h.blocks,
      List.drop_append_of_le_length h.offset_lt.le]
  genesisPot := by rw [hc.genesisPot, hf.genesisPot, h.genesisPot]
  initialDifficulty := by rw [hc.initialDifficulty, hf.initialDifficulty, h.initialDifficulty]

/-- What the whole chain accepts, its end accepts where both show the block the same rules. -/
theorem EndOf.accepts (h : EndOf full c) (hr : SameRules core c full b)
    (hf : full.updateState core now b = .ok (some full')) :
    ∃ c', c.updateState core now b = .ok (some c') ∧ EndOf full' c' := by
  obtain ⟨c', hc, htip⟩ := h.sameTip.symm.updateState (hr.symm h.sameTip) hf
  exact ⟨c', hc, h.commit (appended_of_updateState hc) (appended_of_updateState hf)
    htip.derived.symm⟩

theorem PrunedFrom.commit (h : PrunedFrom full c) (hc : Appended core c b c')
    (hf : Appended core full b full') (hd : c'.toDerivedState = full'.toDerivedState) :
    PrunedFrom full' c' where
  toEndOf := h.toEndOf.commit hc hf hd
  long := by
    rw [hc.blocksOffset, hc.blocks, List.length_append]
    exact h.long.imp_right fun hl => hl.trans (Nat.le_add_right _ _)

/-- What a pruned chain accepts, the whole chain accepts. -/
theorem PrunedFrom.updateState (h : PrunedFrom full c)
    (hc : c.updateState core now b = .ok (some c')) :
    ∃ full', full.updateState core now b = .ok (some full') ∧ PrunedFrom full' c' := by
  have happ := appended_of_updateState hc
  obtain ⟨full', hf, htip⟩ := h.sameTip.updateState (h.sameRules happ.index) hc
  exact ⟨full', hf, h.commit happ (appended_of_updateState hf) htip.derived⟩

/-- What the whole chain accepts, a pruned chain accepts. -/
theorem PrunedFrom.accepts (h : PrunedFrom full c)
    (hf : full.updateState core now b = .ok (some full')) :
    ∃ c', c.updateState core now b = .ok (some c') ∧ PrunedFrom full' c' := by
  have hindex := (appended_of_updateState hf).index
  rw [← h.sameTip.getHeight] at hindex
  obtain ⟨c', hc, htip⟩ :=
    h.sameTip.symm.updateState ((h.sameRules hindex).symm h.sameTip) hf
  exact ⟨c', hc, h.commit (appended_of_updateState hc) (appended_of_updateState hf)
    htip.derived.symm⟩

theorem PrunedFrom.applyAll {clock : ℕ → ℕ} {bs : List Block} (h : PrunedFrom full c)
    (hf : applyAll core clock full bs = .ok (some full')) :
    ∃ c', applyAll core clock c bs = .ok (some c') ∧ PrunedFrom full' c' := by
  induction bs generalizing full c clock with
  | nil =>
    obtain rfl : full = full' := by simpa [Blockchain.applyAll] using hf
    exact ⟨c, rfl, h⟩
  | cons b bs ih =>
    obtain ⟨mid, hmid, hrest⟩ := applyAll_cons.mp hf
    obtain ⟨d, hd, hpruned⟩ := h.accepts hmid
    obtain ⟨c', happ, hpruned'⟩ := ih hpruned hrest
    exact ⟨c', applyAll_cons.mpr ⟨d, hd, happ⟩, hpruned'⟩

theorem PrunedFrom.grows {bs : List Block} (h : PrunedFrom full c) (hc : Grows core c bs c') :
    ∃ full', Grows core full bs full' ∧ PrunedFrom full' c' := by
  induction hc generalizing full with
  | nil => exact ⟨full, .nil _, h⟩
  | cons hs _ ih =>
    obtain ⟨now, hs⟩ := hs
    obtain ⟨mid, hmid, hpruned⟩ := h.updateState hs
    obtain ⟨full', hgrow, hpruned'⟩ := ih hpruned
    exact ⟨full', .cons ⟨now, hmid⟩ hgrow, hpruned'⟩

theorem PrunedFrom.prune (h : PrunedFrom full c) : PrunedFrom full c.pruneToWindow where
  derived := by rw [pruneToWindow_toDerivedState, h.derived]
  whole := h.whole
  offset_lt := by
    have hne : c.blocks ≠ [] := by
      rw [h.blocks, Ne, List.drop_eq_nil_iff, Nat.not_le]
      exact h.offset_lt
    have := excess_lt hne
    have := h.length
    rw [pruneToWindow_blocksOffset]
    omega
  blocks := by
    rw [pruneToWindow_blocks, pruneToWindow_blocksOffset, h.blocks, List.drop_drop]
  long := by
    rw [pruneToWindow_blocksOffset, pruneToWindow_blocks, List.length_drop]
    have := h.long
    unfold excess
    omega
  genesisPot := by rw [pruneToWindow_genesisPot, h.genesisPot]
  initialDifficulty := by rw [pruneToWindow_initialDifficulty, h.initialDifficulty]

/-- The tables outside the derived state and the window play no part. -/
theorem PrunedFrom.congr (h : PrunedFrom full c) (hd : d.toDerivedState = c.toDerivedState)
    (hb : d.blocks = c.blocks) (ho : d.blocksOffset = c.blocksOffset)
    (hp : d.genesisPot = c.genesisPot) (hi : d.initialDifficulty = c.initialDifficulty) :
    PrunedFrom full d where
  derived := hd.trans h.derived
  whole := h.whole
  offset_lt := ho ▸ h.offset_lt
  blocks := by rw [hb, ho, h.blocks]
  long := by
    rw [hb, ho]
    exact h.long
  genesisPot := hp.trans h.genesisPot
  initialDifficulty := hi.trans h.initialDifficulty

end Blockchain

end Lootcoin
