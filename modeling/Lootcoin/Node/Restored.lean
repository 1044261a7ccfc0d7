import Lootcoin.Node.Tickets

/-! A chain that knows its blocks only from some index on, as one restored from a checkpoint does.
`updateState` may treat a block otherwise there than on the whole chain, and does not once a whole
reveal of blocks is known. -/

namespace Lootcoin

/-- The tier that a ticket draws. -/
def drawTier (core : Core) (hashAt : ℕ → Option Bytes) (ticket : LootTicket) : Tier :=
  let bucket := lootBucketFromDigest (core.digest (drawData (revealEntropy hashAt
    ticket.createdHeight) ticket))
  if bucket < smallBucketStart then .none
  else if bucket < mediumBucketStart then .small
  else if bucket < largeBucketStart then .medium
  else if bucket < jackpotBucketStart then .large
  else .jackpot

/-- What a tier pays out of a pot. -/
def tierReward (pot : ℕ) : Tier → ℕ
  | .none => 0
  | .small => pot / smallDivisor
  | .medium => pot / mediumDivisor
  | .large => pot / largeDivisor
  | .jackpot => pot / jackpotDivisor

theorem DerivedState.computeTicketReward_eq (core : Core) (hashAt : ℕ → Option Bytes)
    (s : DerivedState) (ticket : LootTicket) :
    s.computeTicketReward core hashAt ticket.createdHeight ticket =
      (tierReward s.pot (drawTier core hashAt ticket), drawTier core hashAt ticket) := by
  simp only [DerivedState.computeTicketReward, drawTier]
  split
  · rfl
  · split
    · rfl
    · split
      · rfl
      · split <;> rfl

theorem DerivedState.sameDraws_of_drawTier {core : Core} {hashAt hashAt' : ℕ → Option Bytes}
    {ts : List LootTicket} (h : ∀ t ∈ ts, drawTier core hashAt t = drawTier core hashAt' t) :
    DerivedState.SameDraws core hashAt hashAt' ts := by
  intro t ht s
  rw [DerivedState.computeTicketReward_eq, DerivedState.computeTicketReward_eq, h t ht]

namespace Blockchain

/-- The hashes of the blocks from index `start` on. -/
def hashesFrom (start : ℕ) (blocks : List Block) (index : ℕ) : Option Bytes :=
  if index < start then none else blocks[index]?.map fun b => b.hash

/-- The tickets that the block above the given ones settles. -/
def maturing (blocks : List Block) : List LootTicket :=
  (ticketsDue blocks).filter fun t => t.createdHeight + revealBlocks = blocks.length

/-- A block above the given ones meets the same median test, and the tickets that it settles draw
the same tiers, whether all blocks are known or only those from index `start` on. -/
structure SeenAlike (core : Core) (start : ℕ) (blocks : List Block) (b : Block) : Prop where
  pastMedian : Lootcoin.pastMedian (blocks.drop start) b.timestamp =
    Lootcoin.pastMedian blocks b.timestamp
  draws : ∀ t ∈ maturing blocks,
    drawTier core (hashesFrom start blocks) t = drawTier core (hashesFrom 0 blocks) t

/-- The blocks that come up to a reveal above the one at `start` are seen alike with and without
the blocks below that. -/
def SeenAlikeFrom (core : Core) (start : ℕ) (blocks : List Block) : Prop :=
  ∀ i < start + revealBlocks, start < i → ∀ b, blocks[i]? = some b →
    SeenAlike core start (blocks.take i) b

section

variable {core : Core} {start : ℕ} {blocks : List Block} {b : Block}

/-- A whole reveal of known blocks is enough. -/
theorem seenAlike_of_le (h : start + revealBlocks ≤ blocks.length) :
    SeenAlike core start blocks b where
  pastMedian := by
    have hmtp : mtpWindow ≤ revealBlocks := by decide
    unfold Lootcoin.pastMedian
    rw [medianTimePast_drop (.inr (by rw [List.length_drop]; omega))]
  draws := by
    intro t ht
    have hage : t.createdHeight + revealBlocks = blocks.length := by
      simpa using (List.mem_filter.mp ht).2
    have hentropy : revealEntropy (hashesFrom start blocks) t.createdHeight =
        revealEntropy (hashesFrom 0 blocks) t.createdHeight := by
      apply revealEntropy_congr
      intro i _
      rw [hashesFrom, hashesFrom, if_neg (by omega), if_neg (by omega)]
    unfold drawTier
    rw [hentropy]

theorem SeenAlikeFrom.seenAlike {i : ℕ} (h : SeenAlikeFrom core start blocks) (hi : start < i)
    (hb : blocks[i]? = some b) : SeenAlike core start (blocks.take i) b := by
  by_cases hlt : i < start + revealBlocks
  · exact h i hlt hi b hb
  · apply seenAlike_of_le
    have := (List.getElem?_eq_some_iff.mp hb).1
    rw [List.length_take]
    omega

theorem SeenAlikeFrom.of_append {rest : List Block} (h : SeenAlikeFrom core start (blocks ++ rest)) :
    SeenAlikeFrom core start blocks := by
  intro i hi hstart b hb
  have hlt := (List.getElem?_eq_some_iff.mp hb).1
  have := h i hi hstart b (by rwa [List.getElem?_append_left hlt])
  rwa [List.take_append_of_le_length hlt.le] at this

end

/-! ### The steps of a restored chain -/

section

variable {core : Core} {now : ℕ} {b : Block} {c full full' : Blockchain} {bs : List Block}

/-- A whole chain with the tickets that its blocks leave due. -/
structure Whole (full : Blockchain) : Prop where
  offset : full.blocksOffset = 0
  tickets : full.pendingTickets = ticketsDue full.blocks

theorem Whole.getHeight (h : Whole full) : full.getHeight = full.blocks.length := by
  rw [Blockchain.getHeight, h.offset, Nat.zero_add]

theorem Whole.grows (h : Whole full) (hgrow : Grows core full bs full') : Whole full' :=
  ⟨hgrow.blocksOffset.trans h.offset, hgrow.pendingTickets h.offset h.tickets⟩

theorem EndOf.blockHashAt_eq (h : EndOf full c) (i : ℕ) :
    c.blockHashAt i = hashesFrom c.blocksOffset full.blocks i := by
  unfold Blockchain.blockHashAt hashesFrom
  split
  · rfl
  · rw [h.blocks, List.getElem?_drop, Nat.add_sub_cancel' (by omega)]

/-- A block that is seen alike meets the same rules at the end of a chain as on the whole of it. -/
theorem EndOf.sameRules (h : EndOf full c) (hw : Whole full) (hb : b.index = full.getHeight)
    (hs : SeenAlike core c.blocksOffset full.blocks b) : SameRules core c full b where
  pastMedian := by
    rw [h.blocks]
    exact hs.pastMedian
  draws := by
    apply DerivedState.sameDraws_of_drawTier
    intro t ht
    have hne : full.blocks ≠ [] := List.ne_nil_of_length_pos (Nat.zero_lt_of_lt h.offset_lt)
    have hfull : full.blockHashAt = hashesFrom 0 full.blocks := by
      funext i
      rw [(EndOf.refl hne hw.offset).blockHashAt_eq, hw.offset]
    rw [funext h.blockHashAt_eq, hfull]
    apply hs.draws t
    rw [h.derived, hb, hw.getHeight, DerivedState.toSettle, hw.tickets] at ht
    exact ht

/-- Blocks that the whole chain accepts and that are seen alike are accepted at its end. -/
theorem EndOf.grows (h : EndOf full c) (hw : Whole full) (hgrow : Grows core full bs full')
    (hs : SeenAlikeFrom core c.blocksOffset full'.blocks) :
    ∃ c', Grows core c bs c' ∧ EndOf full' c' := by
  induction hgrow generalizing c with
  | nil => exact ⟨c, .nil _, h⟩
  | @cons full mid full' b bs hstep hgrow ih =>
    obtain ⟨now, hup⟩ := hstep
    have ha := appended_of_updateState hup
    have hblocks : full'.blocks = full.blocks ++ b :: bs := by
      rw [Grows.blocks hgrow, ha.blocks, List.append_assoc, List.singleton_append]
    have hseen := hs.seenAlike h.offset_lt (b := b) (by
      rw [hblocks, List.getElem?_append_right (Nat.le_refl _), Nat.sub_self]
      rfl)
    rw [hblocks, List.take_left] at hseen
    obtain ⟨d, hd, hend⟩ := h.accepts (h.sameRules hw ha.index hseen) hup
    have hoffset := (appended_of_updateState hd).blocksOffset
    obtain ⟨c', hc', hend'⟩ := ih hend (hw.grows (.cons ⟨now, hup⟩ (.nil _))) (hoffset ▸ hs)
    exact ⟨c', .cons ⟨now, hd⟩ hc', hend'⟩

end

end Blockchain

end Lootcoin
