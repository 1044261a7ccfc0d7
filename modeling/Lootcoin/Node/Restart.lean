import Lootcoin.Node.Restored
import Lootcoin.Node.Archive

/-! The start of a node from a checkpoint.  The restored chain knows one block, and the rules read
more: the median of the last timestamps and the hashes of a reveal.  Where every stored block above
the checkpoint is seen alike without the blocks below, the start from the checkpoint and the start
by a full replay end alike. -/

namespace Lootcoin

namespace Blockchain

variable {core : Core} {ambient : Ambient} {c : Blockchain} {b : Block} {db : Option BlockReader}

/-- A block on the tip is applied or rejected, as `updateState` accepts it or not. -/
theorem outcome_of_linksToTip (h : c.linksToTip b = true) :
    (c.applyInMemory core ambient b db).map Prod.fst =
      ((c.updateState core (ambient.clock 0) b).map Option.isSome).map fun accepted =>
        if accepted then .applied else .rejected := by
  unfold applyInMemory
  cases hup : c.updateState core (ambient.clock 0) b with
  | error e => rfl
  | ok r =>
    cases r with
    | none =>
      simp only [h, if_true, bind, Except.bind]
      rfl
    | some c' => rfl

end Blockchain

namespace Node

open Blockchain (Grows EndOf Whole SeenAlikeFrom)

variable {core : Core} {env : Option ℚ} {pot : ℕ} {genesis b : Block} {full full' c : Blockchain}
  {ambients ambients' : ℕ → Ambient}

theorem grown_blocks {path : List Block} (h : Grows core (freshChain env pot genesis) path full) :
    full.blocks = genesis :: path :=
  h.blocks

/-- Stored blocks that a chain accepts one after the other are all applied. -/
theorem applyStored_of_grows {bs : List Block} {d : Blockchain} (h : Grows core c bs d)
    (htime : ∀ b ∈ bs, ∀ j k, b.timestamp ≤ (ambients j).clock k + 120) :
    applyStored core ambients c bs = .ok (List.replicate bs.length .applied, d) := by
  induction h generalizing ambients with
  | nil => rfl
  | @cons c mid d b bs hs _ ih =>
    have hup := Blockchain.updateState_at hs.choose_spec (htime b List.mem_cons_self 0 0)
    have happ : c.applyInMemory core (ambients 0) b none = .ok (.applied, mid) :=
      Blockchain.applyInMemory_eq_ok.mpr (.inl ⟨rfl, hup⟩)
    rw [applyStored, happ]
    simp only [bind, Except.bind]
    rw [ih fun x hx j k => htime x (List.mem_cons_of_mem _ hx) (j + 1) k]
    rfl

/-- A chain restored from a snapshot is the end of the chain that the snapshot is of. -/
theorem endOf_restored {path : List Block} {whole : Blockchain} {x : Block}
    (hgrow : Grows core (freshChain env pot genesis) path whole)
    (hx : whole.blocks[path.length]? = some x) : EndOf whole
      ((freshChain env pot genesis).restoreFromCheckpoint path.length whole.snapshot x) where
  derived := rfl
  whole := hgrow.blocksOffset
  offset_lt := (List.getElem?_eq_some_iff.mp hx).1
  blocks := by
    obtain ⟨hlt, hget⟩ := List.getElem?_eq_some_iff.mp hx
    show [x] = whole.blocks.drop path.length
    rw [List.drop_eq_getElem_cons hlt, hget, List.drop_eq_nil_of_le]
    rw [grown_blocks hgrow]
    exact Nat.le_refl _
  genesisPot := hgrow.genesisPot.symm
  initialDifficulty := hgrow.initialDifficulty.symm

theorem bootByReplay_eq {db : Db} {rest : List Block}
    (hstored : db.loadCanonicalChain = genesis :: rest)
    (hgrow : Grows core (freshChain env genesisPotAmount genesis) rest full)
    (htime : ∀ b ∈ rest, ∀ j k, b.timestamp ≤ (ambients j).clock k + 120) :
    bootByReplay core ambients env db = .ok (List.replicate rest.length .applied, full) := by
  rw [bootByReplay, hstored]
  exact applyStored_of_grows hgrow htime

theorem bootFromCheckpoint_eq {db : Db} {path post : List Block} {state : CheckpointState}
    {x : Block} (hstored : db.loadCanonicalChain = genesis :: (path ++ post))
    (hget : ∀ i, db.blocks.get i = (genesis :: (path ++ post))[i]?)
    (hbound : path.length + 1 < 2 ^ 64) (hx : (genesis :: (path ++ post))[path.length]? = some x) :
    bootFromCheckpoint core ambients env db path.length state = applyStored core ambients
      ((freshChain env genesisPotAmount genesis).restoreFromCheckpoint path.length state x)
      post := by
  have hrange : db.getBlocksRange path.length 1 = [x] := by
    rw [Db.getBlocksRange, Word.saturatingAdd_of_lt hbound, OrderedTable.range_eq_filterMap,
      List.range'_one, List.filterMap_cons, hget, hx, List.filterMap_nil]
  have hdrop : db.loadBlocksFrom (path.length + 1) = post := by
    rw [Db.loadBlocksFrom, OrderedTable.rangeFrom_eq_drop hget, List.drop_succ_cons, List.drop_left]
  rw [bootFromCheckpoint, hrange, hdrop, hstored]

/-- The start from a checkpoint and the start by a full replay both apply every stored block, and
end with the same derived state. From then on, while the blocks are seen alike, both accept the
same blocks and give every block on the tip the same outcome. -/
def StartsAlike (core : Core) (env : Option ℚ) (ambients ambients' : ℕ → Ambient) (db : Db)
    (height : ℕ) (state : CheckpointState) : Prop :=
  ∃ full c,
    bootByReplay core ambients env db =
      .ok (List.replicate (db.loadCanonicalChain.length - 1) .applied, full) ∧
    bootFromCheckpoint core ambients' env db height state =
      .ok (List.replicate (db.loadCanonicalChain.length - 1 - height) .applied, c) ∧
    (db.blocks.get height).map (fun b => b.hash) = some state.blockHash ∧
    c.toDerivedState = full.toDerivedState ∧
    ∀ bs full' b, Grows core full bs full' → SeenAlikeFrom core height (full'.blocks ++ [b]) →
      full'.linksToTip b = true → ∃ c', Grows core c bs c' ∧
        c'.toDerivedState = full'.toDerivedState ∧ c'.linksToTip b = true ∧
        ∀ ambient db', (c'.applyInMemory core ambient b db').map Prod.fst =
          (full'.applyInMemory core ambient b db').map Prod.fst

/-- Where a whole chain and its end have come to agree, they keep agreeing on what is seen alike. -/
theorem keepsAlike {bs : List Block} (hend : EndOf full c) (hw : Whole full)
    (hgrow : Grows core full bs full')
    (hs : SeenAlikeFrom core c.blocksOffset (full'.blocks ++ [b]))
    (hlink : full'.linksToTip b = true) : ∃ c', Grows core c bs c' ∧
      c'.toDerivedState = full'.toDerivedState ∧ c'.linksToTip b = true ∧
      ∀ ambient db', (c'.applyInMemory core ambient b db').map Prod.fst =
        (full'.applyInMemory core ambient b db').map Prod.fst := by
  obtain ⟨c', hc', hend'⟩ := hend.grows hw hgrow hs.of_append
  have htip := hend'.sameTip
  have hlink' : c'.linksToTip b = true := by
    rw [Blockchain.linksToTip_iff] at hlink ⊢
    exact ⟨hlink.1.trans htip.getHeight.symm, hlink.2.trans htip.getLatestHash.symm⟩
  have hoffset : c'.blocksOffset = c.blocksOffset := hc'.blocksOffset
  have hseen := hs.seenAlike (i := full'.blocks.length) (b := b)
    (hoffset ▸ hend'.offset_lt) List.getElem?_concat_length
  rw [List.take_left, ← hoffset] at hseen
  have hrules := hend'.sameRules (hw.grows hgrow) (Blockchain.linksToTip_iff.mp hlink).1 hseen
  refine ⟨c', hc', hend'.derived, hlink', fun ambient db' => ?_⟩
  rw [Blockchain.outcome_of_linksToTip hlink, Blockchain.outcome_of_linksToTip hlink',
    htip.verdict hrules]

/-- A checkpoint of a stored chain starts a node alike, when the blocks above it are seen alike
without those below. -/
theorem startsAlike_of_stored {db : Db} {path post : List Block} {whole : Blockchain} {time : ℕ}
    (hstored : db.loadCanonicalChain = genesis :: (path ++ post))
    (hget : ∀ i, db.blocks.get i = (genesis :: (path ++ post))[i]?)
    (hbound : path.length + 1 < 2 ^ 64) (hw : Whole (freshChain env genesisPotAmount genesis))
    (hgrow : Grows core (freshChain env genesisPotAmount genesis) path whole)
    (hpost : Grows core whole post full) (hseen : SeenAlikeFrom core path.length full.blocks)
    (htime : ∀ b ∈ path ++ post, b.timestamp ≤ time + 120)
    (hclock : ∀ j k, time ≤ (ambients j).clock k)
    (hclock' : ∀ j k, time ≤ (ambients' j).clock k) :
    StartsAlike core env ambients ambients' db path.length whole.snapshot := by
  -- the block of the checkpoint
  have hblocks := grown_blocks hgrow
  obtain ⟨x, hx⟩ : ∃ x, whole.blocks[path.length]? = some x :=
    ⟨_, List.getElem?_eq_getElem (by simp [hblocks])⟩
  have hxs : (genesis :: (path ++ post))[path.length]? = some x := by
    rw [← List.cons_append, List.getElem?_append_left (by simp), ← hblocks, hx]
  have hwhole := hw.grows hgrow
  obtain ⟨c, hc, hend⟩ := (endOf_restored hgrow hx).grows hwhole hpost hseen
  have hoffset : c.blocksOffset = path.length := hc.blocksOffset
  refine ⟨full, c, ?_, ?_, ?_, hend.derived, fun bs full' b hgrow' hs hlink => ?_⟩
  · rw [hstored, List.length_cons, Nat.add_sub_cancel]
    apply bootByReplay_eq hstored (hgrow.append hpost)
    intro b hb j k
    have := htime b hb
    have := hclock j k
    omega
  · rw [hstored, List.length_cons, Nat.add_sub_cancel, List.length_append, Nat.add_sub_cancel_left,
      bootFromCheckpoint_eq hstored hget hbound hxs]
    apply applyStored_of_grows hc
    intro b hb j k
    have := htime b (List.mem_append_right _ hb)
    have := hclock' j k
    omega
  · have hlast : whole.blocks.getLast? = some x := by
      rw [List.getLast?_eq_getElem?, hblocks, List.length_cons, Nat.add_sub_cancel, ← hblocks, hx]
    rw [hget, hxs]
    unfold Blockchain.snapshot Blockchain.getLatestHash
    rw [hlast]
    rfl
  · exact keepsAlike hend (hwhole.grows hpost) hgrow' (hoffset ▸ hs) hlink

/-- A stored checkpoint of a run whose forks replay completely cuts the stored chain in two: the
snapshot is that of the chain of the blocks up to it, and the blocks above lead to the end. -/
theorem exists_cut_of_run {root : Bytes} {ds : List Delivery} {start : ℕ} {s : Timed}
    (run : Runs.Run (DeliversBetween core)
      ⟨fresh env genesisPotAmount (mainnetGenesis root), start⟩ ds s)
    {height : ℕ} {state : CheckpointState}
    (hcheckpoint : s.node.db.checkpoints.get height = some state)
    (hstored : s.node.db.loadCanonicalChain = s.node.canonicalChain) :
    ∃ path post whole full, height = path.length ∧ state = whole.snapshot ∧
      s.node.canonicalChain = full.blocks ∧
      s.node.db.loadCanonicalChain = mainnetGenesis root :: (path ++ post) ∧
      (∀ i, s.node.db.blocks.get i = (mainnetGenesis root :: (path ++ post))[i]?) ∧
      path.length + 1 < 2 ^ 64 ∧
      Grows core (freshChain env genesisPotAmount (mainnetGenesis root)) path whole ∧
      Grows core whole post full ∧ ∀ b ∈ path ++ post, b.timestamp ≤ s.time + 120 := by
  have hi : (mainnetGenesis root).index = 0 := rfl
  obtain ⟨full, ht, htimes⟩ := tracks_of_timed_run hi (by decide) run
  obtain ⟨hdue, path, whole, htake, rfl, hgrow, rfl⟩ :=
    snapshots_of_run hi (by decide) (run_untimed run) height state hcheckpoint
  obtain ⟨rest, hrest, hfull⟩ := ht.blocks
  rw [ht.canonicalChain] at hstored htake
  have hget := OrderedTable.get_of_values hstored ht.stored
  -- a height at which a checkpoint is due is not the last number of 64 bits
  have hbound : path.length + 1 < 2 ^ 64 := by
    have := ht.length_le
    have hlength := congrArg List.length htake
    rw [List.length_take, List.length_cons] at hlength
    unfold checkpointInterval at hdue
    omega
  -- the blocks above the checkpoint
  obtain ⟨post, rfl⟩ : ∃ post, rest = path ++ post := by
    rw [hrest, List.take_succ_cons, List.cons.injEq] at htake
    have hsplit := List.take_append_drop path.length rest
    rw [htake.2] at hsplit
    exact ⟨rest.drop path.length, hsplit.symm⟩
  obtain ⟨whole', hgrow', hpost⟩ := hfull.split
  obtain rfl := Grows.unique hgrow' hgrow
  rw [hrest] at hstored hget
  rw [hrest, List.tail_cons] at htimes
  exact ⟨path, post, whole', full, rfl, rfl, ht.canonicalChain, hstored, hget, hbound, hgrow,
    hpost, htimes⟩

/-- A stored checkpoint of a run whose forks replay completely starts a node alike, when the stored
chain is the canonical one and its blocks above the checkpoint are seen alike without those
below. -/
theorem startsAlike_of_run {root : Bytes} {ds : List Delivery} {start : ℕ} {s : Timed}
    (run : Runs.Run (DeliversBetween core)
      ⟨fresh env genesisPotAmount (mainnetGenesis root), start⟩ ds s)
    {height : ℕ} {state : CheckpointState}
    (hcheckpoint : s.node.db.checkpoints.get height = some state)
    (hstored : s.node.db.loadCanonicalChain = s.node.canonicalChain)
    (hseen : SeenAlikeFrom core height s.node.canonicalChain)
    (hclock : ∀ j k, s.time ≤ (ambients j).clock k)
    (hclock' : ∀ j k, s.time ≤ (ambients' j).clock k) :
    StartsAlike core env ambients ambients' s.node.db height state := by
  obtain ⟨path, post, whole, full, rfl, rfl, hchain, hload, hget, hbound, hgrow, hpost, htimes⟩ :=
    exists_cut_of_run run hcheckpoint hstored
  rw [hchain] at hseen
  exact startsAlike_of_stored hload hget hbound ⟨rfl, (ticketsDue_mainnetGenesis root).symm⟩ hgrow
    hpost hseen htimes hclock hclock'

end Node

namespace Sample

open Blockchain (Grows SeenAlike SeenAlikeFrom maturing)

/-! ### An even chain

Empty blocks a minute apart keep the difficulty as it is, so the chain goes on for ever. -/

/-- The block at a height of the even chain. -/
def evenBlock : ℕ → Block
  | 0 => genesis
  | k + 1 => block (k + 1) (evenBlock k).hash (Node.genesisTimestamp + 60 * (k + 1)) 25

/-- The blocks of the even chain above the genesis block. -/
def evenBlocks (k : ℕ) : List Block := (List.range k).map fun i => evenBlock (i + 1)

theorem evenBlock_timestamp (k : ℕ) : (evenBlock k).timestamp = 1748000000 + 60 * k := by
  cases k <;> rfl

theorem evenBlock_index (k : ℕ) : (evenBlock k).index = k := by
  cases k <;> rfl

theorem evenBlocks_succ (k : ℕ) : evenBlocks (k + 1) = evenBlocks k ++ [evenBlock (k + 1)] := by
  rw [evenBlocks, List.range_succ, List.map_append]
  rfl

theorem length_evenBlocks (k : ℕ) : (evenBlocks k).length = k := by
  rw [evenBlocks, List.length_map, List.length_range]

theorem getLast?_even (k : ℕ) : (genesis :: evenBlocks k).getLast? = some (evenBlock k) := by
  cases k with
  | zero => rfl
  | succ k => rw [evenBlocks_succ, ← List.cons_append, List.getLast?_concat]

theorem mem_even {k : ℕ} {b : Block} (h : b ∈ genesis :: evenBlocks k) :
    ∃ i ≤ k, b = evenBlock i := by
  rcases List.mem_cons.mp h with rfl | h
  · exact ⟨0, Nat.zero_le k, rfl⟩
  · obtain ⟨i, hi, rfl⟩ := List.mem_map.mp h
    exact ⟨i + 1, List.mem_range.mp hi, rfl⟩

theorem length_plainHash (h : Header) : (plainHash h).length =
    h.nonce / 8 + h.previousHash.length + h.txRoot.length + 41 := by
  simp only [plainHash, headerBytes, encodeBytes, List.length_append, List.length_replicate,
    List.length_cons, length_littleEndian, List.length_nil]
  omega

/-- The hashes of the even chain grow slowly. -/
theorem length_evenBlock_hash (k : ℕ) : (evenBlock k).hash.length ≤ 60 * k := by
  induction k with
  | zero => exact Nat.le_refl 0
  | succ k ih =>
    show (plainHash _).length ≤ 60 * (k + 1)
    rw [length_plainHash]
    show 25 / 8 + (evenBlock k).hash.length + (littleEndian 8 0).length + 41 ≤ 60 * (k + 1)
    rw [length_littleEndian]
    omega

/-- A timestamp after all others is after their median. -/
theorem pastMedian_of_lt {blocks : List Block} {t : ℕ} (h : ∀ b ∈ blocks, b.timestamp < t) :
    pastMedian blocks t = true := by
  unfold pastMedian
  cases hm : medianTimePast blocks with
  | none => rfl
  | some median =>
    have hmem := (List.perm_insertionSort _ _).mem_iff.mp (List.mem_of_getElem? hm)
    obtain ⟨b, hb, rfl⟩ := List.mem_map.mp hmem
    exact decide_eq_true (h b (List.mem_reverse.mp (List.mem_of_mem_take hb)))

/-- The next block of the chain, without transactions. -/
def emptyBlock (c : Blockchain) (t : ℕ) : Block := block c.getHeight c.getLatestHash t 25

theorem validBody_emptyBlock {c : Blockchain} {t : ℕ} (hdifficulty : c.currentDifficulty ≤ 25)
    (hfits : HeaderFits (emptyBlock c t).toHeader) :
    c.validBody plainCore (emptyBlock c t) = true := by
  have hbits : leadingZeroBits (emptyBlock c t).hash = 25 := leadingZeroBits_plainHash _
  have hwork : plainCore.meetsDifficulty (emptyBlock c t).hash c.currentDifficulty = true := by
    apply decide_eq_true
    rw [hbits]
    exact hdifficulty
  exact DerivedState.validBody_iff.mpr ⟨if_pos hfits, hwork, Nat.zero_le _,
    fun tx htx => absurd htx List.not_mem_nil, rfl, rfl, _, rfl⟩

theorem advance_emptyBlock {c : Blockchain} {t : ℕ} (htickets : c.pendingTickets = [])
    (hashAt : ℕ → Option Bytes) :
    ∃ s payouts, c.advance plainCore hashAt (emptyBlock c t) = .ok (s, payouts) := by
  have hsettle : (c.settleTickets plainCore hashAt (emptyBlock c t).index).1 = c.toDerivedState := by
    simp only [DerivedState.settleTickets, DerivedState.toSettle, DerivedState.stillPending,
      htickets, List.filter_nil, List.foldl_nil]
    rw [← htickets]
  have hpay : c.payMiner (emptyBlock c t) = c.toDerivedState := by
    have hshare : minerFeeShare (emptyBlock c t) = 0 := by
      show totalBlockFees [] / 2 = 0
      decide
    simp [DerivedState.payMiner, hshare]
  refine ⟨_, _, DerivedState.advance_eq_ok.mpr ⟨c.toDerivedState, ?_, ?_, rfl, rfl⟩⟩
  · rw [hsettle]
    rfl
  · rw [hpay]
    rfl

/-- What holds of the chain of the first blocks of the even chain. -/
structure Even (k : ℕ) (c : Blockchain) : Prop where
  blocks : c.blocks = genesis :: evenBlocks k
  offset : c.blocksOffset = 0
  tickets : c.pendingTickets = []
  difficulty : c.currentDifficulty = 25
  anchor : c.asertAnchor = if k = 0 then none else some ⟨1, 1748000060, 25⟩

/-- An empty block on the tip is accepted when no ticket is pending. -/
theorem updateState_emptyBlock {c : Blockchain} {now t : ℕ} (htickets : c.pendingTickets = [])
    (hdifficulty : c.currentDifficulty ≤ 25) (hfits : HeaderFits (emptyBlock c t).toHeader)
    (hnow : t ≤ now + 120) (hmedian : pastMedian c.blocks t = true) :
    ∃ c', c.updateState plainCore now (emptyBlock c t) = .ok (some c') := by
  obtain ⟨s, payouts, hadv⟩ := advance_emptyBlock (t := t) htickets c.blockHashAt
  exact ⟨_, Blockchain.updateState_eq_some.mpr ⟨Blockchain.acceptsBlock_iff.mpr
    ⟨Blockchain.linksToTip_iff.mpr ⟨rfl, rfl⟩, hnow, hmedian,
      validBody_emptyBlock hdifficulty hfits⟩, s, payouts, hadv, rfl⟩⟩

theorem Even.getHeight {k : ℕ} {c : Blockchain} (h : Even k c) : c.getHeight = k + 1 := by
  rw [Blockchain.getHeight, h.offset, h.blocks, List.length_cons, length_evenBlocks, Nat.zero_add]

theorem Even.emptyBlock_eq {k : ℕ} {c : Blockchain} (h : Even k c) (t : ℕ) :
    emptyBlock c t = block (k + 1) (evenBlock k).hash t 25 := by
  rw [emptyBlock, h.getHeight, Blockchain.getLatestHash, h.blocks, getLast?_even]
  rfl

/-- The even chain accepts an empty block after the median. -/
theorem Even.accepts {k : ℕ} {c : Blockchain} (h : Even k c) (hk : k < 10000) {t : ℕ}
    (ht : t < 2 ^ 32) (hmedian : pastMedian c.blocks t = true) :
    ∃ c', Blockchain.Appends plainCore c (block (k + 1) (evenBlock k).hash t 25) c' := by
  have hfits : HeaderFits (emptyBlock c t).toHeader := by
    rw [h.emptyBlock_eq]
    have := length_evenBlock_hash k
    refine ⟨?_, ?_, ?_, ?_, ?_⟩
    · show k + 1 < 256 ^ 8
      omega
    · show (evenBlock k).hash.length < 256 ^ 8
      omega
    · show t < 256 ^ 8
      omega
    · show 25 < 256 ^ 8
      omega
    · show (littleEndian 8 0).length < 256 ^ 8
      rw [length_littleEndian]
      omega
  have hnow : t ≤ t + 120 := Nat.le_add_right t 120
  obtain ⟨c', hc'⟩ := updateState_emptyBlock h.tickets h.difficulty.le hfits hnow hmedian
  exact ⟨c', t, by rwa [h.emptyBlock_eq] at hc'⟩

/-- A minute a block is what the formula asks for. -/
theorem asertTarget_even {k : ℕ} (hk : k < 10000) :
    asertTarget ⟨1, 1748000060, 25⟩ (k + 1) (1748000000 + 60 * (k + 1)) = 25 := by
  have hideal : Word.wrappingMul 64 (Word.wrappingSub 64 (k + 1) 1) targetBlockTimeSecs =
      60 * k := by
    rw [Word.wrappingSub_of_le (by omega) (by omega), Nat.add_sub_cancel,
      Word.wrappingMul_of_lt (by unfold targetBlockTimeSecs; omega), targetBlockTimeSecs,
      Nat.mul_comm]
  have hactual : 1748000000 + 60 * (k + 1) - 1748000060 = 60 * k := by omega
  unfold asertTarget
  simp only [hideal, hactual, sub_self, zero_div, add_zero]
  norm_num [minDifficulty, maxDifficulty]

/-- The difficulty of the even chain stays. -/
theorem adjustDifficulty_even {k : ℕ} (hk : k < 10000) {s : DerivedState}
    (hdifficulty : s.currentDifficulty = 25)
    (hanchor : s.asertAnchor = if k = 0 then none else some ⟨1, 1748000060, 25⟩) :
    (s.adjustDifficulty (evenBlock (k + 1))).currentDifficulty = 25 := by
  unfold DerivedState.adjustDifficulty
  rw [evenBlock_index, evenBlock_timestamp, hanchor]
  by_cases hz : k = 0
  · rw [if_pos (by omega)]
    exact hdifficulty
  · simp only [hz, if_false, Nat.add_eq_right, asertTarget_even hk, hdifficulty, sub_self, abs_zero]
    norm_num [minDifficulty, hdifficulty]

theorem Even.step {k : ℕ} {c : Blockchain} (h : Even k c) (hk : k < 10000) :
    ∃ c', Blockchain.Appends plainCore c (evenBlock (k + 1)) c' ∧ Even (k + 1) c' := by
  obtain ⟨c', hc'⟩ := h.accepts (t := 1748000000 + 60 * (k + 1)) hk (by omega)
    (pastMedian_of_lt fun b hb => by
      obtain ⟨i, hi, rfl⟩ := mem_even (h.blocks ▸ hb)
      rw [evenBlock_timestamp]
      omega)
  refine ⟨c', hc', ?_⟩
  have ha := hc'.appended
  obtain ⟨payouts, hadv⟩ := ha.advance
  refine ⟨?_, ha.blocksOffset.trans h.offset, ?_, ?_, ?_⟩
  · rw [ha.blocks, h.blocks, evenBlocks_succ, List.cons_append]
    rfl
  · rw [DerivedState.advance_pendingTickets hadv, DerivedState.stillPending, h.tickets]
    rfl
  · obtain ⟨paid, hpaid, -, hdifficulty, hanchor, -⟩ := DerivedState.advance_paid hadv
    rw [hpaid]
    exact adjustDifficulty_even hk (hdifficulty.trans h.difficulty) (hanchor.trans h.anchor)
  · rw [DerivedState.advance_asertAnchor hadv, h.difficulty, h.anchor]
    by_cases hz : k = 0
    · subst hz
      rfl
    · have hindex : (block (k + 1) (evenBlock k).hash (1748000000 + 60 * (k + 1)) 25).index ≠ 1 := by
        show k + 1 ≠ 1
        omega
      rw [if_neg hindex, if_neg hz, if_neg (Nat.succ_ne_zero k)]

/-- The even chain grows to any height. -/
theorem even_grows (k : ℕ) (hk : k ≤ 10000) : ∃ c,
    Grows plainCore (Node.freshChain none Node.genesisPotAmount genesis) (evenBlocks k) c ∧
      Even k c := by
  induction k with
  | zero => exact ⟨_, .nil _, rfl, rfl, rfl, rfl, rfl⟩
  | succ k ih =>
    obtain ⟨c, hgrow, heven⟩ := ih (by omega)
    obtain ⟨c', hstep, heven'⟩ := heven.step (by omega)
    rw [evenBlocks_succ]
    exact ⟨c', hgrow.snoc hstep, heven'⟩

theorem block_fits {index timestamp zeroBits : ℕ} {previousHash : Bytes} (hi : index < 2 ^ 64)
    (ht : timestamp < 2 ^ 64) (hz : zeroBits < 2 ^ 64) :
    (block index previousHash timestamp zeroBits).Fits :=
  ⟨hi, ht, hz, fun _ htx => absurd htx List.not_mem_nil⟩

theorem evenBlock_fits {k : ℕ} (hk : k ≤ 10000) : (evenBlock k).Fits := by
  cases k with
  | zero => decide
  | succ k => exact block_fits (by omega) (by unfold Node.genesisTimestamp; omega) (by decide)

/-! ### A restart in the middle of the even chain -/

/-- The clock of the runs and starts, after all blocks of the even chain. -/
def afterEven : ℕ := 1748000000 + 60 * 10000

/-- A node that is given blocks that a chain accepts one after the other. -/
theorem archived {path : List Block} {full : Blockchain}
    (hgrow : Grows plainCore (Node.freshChain none Node.genesisPotAmount genesis) path full)
    (h : ∀ b ∈ path, b.Fits ∧ b.timestamp ≤ afterEven + 120) : ∃ n,
      Runs.Run (Node.DeliversBetween plainCore)
        ⟨Node.fresh none Node.genesisPotAmount genesis, afterEven⟩
        (path.map fun b => ⟨b, around afterEven⟩) ⟨n, afterEven⟩ ∧
      Node.Archives plainCore none Node.genesisPotAmount genesis n full ∧
      n.chain.orphanPool = ∅ := by
  have htime : ∀ b ∈ path, b.timestamp ≤ (around afterEven).clock 0 + 120 := fun b hb => (h b hb).2
  obtain ⟨n, hrun, ha, hpool⟩ := Node.archives_of_grows rfl hgrow (fun b hb => (h b hb).1) htime
  refine ⟨n, Node.run_between (fun d hd j => ?_) hrun, ha, hpool⟩
  obtain ⟨b, -, rfl⟩ := List.mem_map.mp hd
  rfl

theorem evenBlocks_timely {k : ℕ} (hk : k ≤ 10000) :
    ∀ b ∈ evenBlocks k, b.Fits ∧ b.timestamp ≤ afterEven + 120 := by
  intro b hb
  obtain ⟨i, hi, rfl⟩ := mem_even (List.mem_cons_of_mem genesis hb)
  refine ⟨evenBlock_fits (hi.trans hk), ?_⟩
  rw [evenBlock_timestamp, afterEven]
  omega

theorem even_eq_map (k : ℕ) : genesis :: evenBlocks k = (List.range (k + 1)).map evenBlock := by
  rw [List.range_succ_eq_map, List.map_cons, List.map_map]
  rfl

theorem getElem?_even {k i : ℕ} (hi : i ≤ k) :
    (genesis :: evenBlocks k)[i]? = some (evenBlock i) := by
  rw [even_eq_map, List.getElem?_map, List.getElem?_range (by omega)]
  rfl

/-- The even chain is seen alike from anywhere: its timestamps rise and it has no tickets. -/
theorem seenAlikeFrom_even (start k : ℕ) :
    SeenAlikeFrom plainCore start (genesis :: evenBlocks k) := by
  intro i _ hstart b hb
  have hi : i ≤ k := by
    have := (List.getElem?_eq_some_iff.mp hb).1
    rw [List.length_cons, length_evenBlocks] at this
    omega
  cases (getElem?_even hi).symm.trans hb
  have hbefore : ∀ x ∈ (genesis :: evenBlocks k).take i, x.timestamp < (evenBlock i).timestamp ∧
      ticketOf x = none := by
    intro x hx
    obtain ⟨j, hj⟩ := List.mem_iff_getElem?.mp hx
    have hlt := (List.getElem?_eq_some_iff.mp hj).1
    rw [List.length_take] at hlt
    rw [List.getElem?_take_of_lt (by omega), getElem?_even (by omega)] at hj
    cases hj
    rw [evenBlock_timestamp, evenBlock_timestamp]
    refine ⟨by omega, ?_⟩
    cases j <;> rfl
  have hnone : ((genesis :: evenBlocks k).take i).filterMap ticketOf = [] :=
    List.filterMap_eq_nil_iff.mpr fun x hx => (hbefore x hx).2
  refine ⟨?_, fun t ht => ?_⟩
  · rw [pastMedian_of_lt fun x hx => (hbefore x hx).1,
      pastMedian_of_lt fun x hx => (hbefore x (List.mem_of_mem_drop hx)).1]
  · rw [maturing, Blockchain.ticketsDue, hnone] at ht
    simp at ht

theorem even_startsAlike : ∃ (n : Node) (state : CheckpointState),
    n.canonicalChain = genesis :: evenBlocks 1001 ∧
    n.db.checkpoints.get 1000 = some state ∧
    Node.StartsAlike plainCore none (fun _ => around afterEven) (fun _ => around afterEven) n.db
      1000 state := by
  obtain ⟨full, hgrow, heven⟩ := even_grows 1001 (by omega)
  have hblocks := heven.blocks
  obtain ⟨n, hrun, ha, -⟩ := archived hgrow (evenBlocks_timely (by omega))
  obtain ⟨state, hstate⟩ := ha.checkpoints 1000
    (by rw [hblocks, List.length_cons, length_evenBlocks]; omega) (by omega) (by decide)
  have hchain : n.canonicalChain = genesis :: evenBlocks 1001 :=
    ha.tracks.canonicalChain.trans hblocks
  exact ⟨n, state, hchain, hstate, Node.startsAlike_of_run hrun hstate ha.loadCanonicalChain
    (hchain ▸ seenAlikeFrom_even 1000 1001) (fun _ _ => Nat.le_refl _) fun _ _ => Nat.le_refl _⟩

/-- A block with the timestamp of the block before it, which is after the median. -/
def lateBlock : Block := block 1001 (evenBlock 1000).hash (1748000000 + 60 * 1000) 25

theorem medianTimePast_even : medianTimePast (genesis :: evenBlocks 1000) = some 1748059700 := by
  have hlength : mtpWindow ≤ ((genesis :: evenBlocks 1000).drop 990).length := by
    rw [List.length_drop, List.length_cons, length_evenBlocks]
    decide
  rw [← Blockchain.medianTimePast_drop (.inr hlength), even_eq_map, ← List.map_drop,
    List.range_eq_range', List.drop_range']
  decide +kernel

/-- A chain restored at the block before rejects the late block. -/
theorem restored_rejects_lateBlock (c : Blockchain) (state : CheckpointState) :
    (c.restoreFromCheckpoint 1000 state (evenBlock 1000)).applyInMemory plainCore
      (around afterEven) lateBlock none =
        .ok (.rejected, c.restoreFromCheckpoint 1000 state (evenBlock 1000)) := by
  have hlink : (c.restoreFromCheckpoint 1000 state (evenBlock 1000)).linksToTip lateBlock = true :=
    Blockchain.linksToTip_iff.mpr ⟨rfl, rfl⟩
  have hmedian : pastMedian [evenBlock 1000] (1748000000 + 60 * 1000) = false := by
    decide +kernel
  refine Blockchain.applyInMemory_eq_ok.mpr (.inr (.inl ⟨rfl, rfl, ?_, .inl hlink⟩))
  refine Blockchain.updateState_eq_none.mpr (Bool.eq_false_iff.mpr fun hacc => ?_)
  have hpast := (Blockchain.acceptsBlock_iff.mp hacc).2.2.1
  exact absurd (hmedian.symm.trans hpast) Bool.false_ne_true

/-- The blocks stored in the failing run. -/
def lateBlocks : List Block := evenBlocks 1000 ++ [lateBlock]

theorem length_lateBlocks : lateBlocks.length = 1001 := by
  rw [lateBlocks, List.length_append, length_evenBlocks, List.length_singleton]

theorem late_grows : ∃ full, Grows plainCore
    (Node.freshChain none Node.genesisPotAmount genesis) lateBlocks full := by
  obtain ⟨mid, hmid, heven⟩ := even_grows 1000 (by omega)
  have hmedian : pastMedian mid.blocks (1748000000 + 60 * 1000) = true := by
    rw [pastMedian, heven.blocks, medianTimePast_even]
    rfl
  obtain ⟨full, hlate⟩ := heven.accepts (by omega) (by omega) hmedian
  exact ⟨full, hmid.snoc hlate⟩

theorem lateBlocks_timely : ∀ b ∈ lateBlocks, b.Fits ∧ b.timestamp ≤ afterEven + 120 := by
  intro b hb
  rcases List.mem_append.mp hb with hb | hb
  · exact evenBlocks_timely (by omega) b hb
  · rw [List.mem_singleton.mp hb]
    exact ⟨block_fits (by decide) (by decide) (by decide),
      show 1748000000 + 60 * 1000 ≤ afterEven + 120 by decide⟩

theorem getElem?_late : (genesis :: lateBlocks)[1000]? = some (evenBlock 1000) := by
  rw [lateBlocks, ← List.cons_append, List.getElem?_append_left (by simp [length_evenBlocks]),
    getElem?_even (Nat.le_refl _)]

/-- A database that stores the late block above the checkpoint rejects it at the start. -/
theorem bootFromCheckpoint_late {db : Db} (state : CheckpointState)
    (hload : db.loadCanonicalChain = genesis :: lateBlocks)
    (hstored : ∀ i, db.blocks.get i = (genesis :: lateBlocks)[i]?) :
    Node.bootFromCheckpoint plainCore (fun _ => around afterEven) none db 1000 state =
      .ok ([.rejected], (Node.freshChain none Node.genesisPotAmount genesis).restoreFromCheckpoint
        1000 state (evenBlock 1000)) := by
  have hx : (genesis :: lateBlocks)[(evenBlocks 1000).length]? = some (evenBlock 1000) := by
    rw [length_evenBlocks, getElem?_late]
  have hboot : Node.bootFromCheckpoint plainCore (fun _ => around afterEven) none db
      (evenBlocks 1000).length state = Node.applyStored plainCore (fun _ => around afterEven)
        ((Node.freshChain none Node.genesisPotAmount genesis).restoreFromCheckpoint
          (evenBlocks 1000).length state (evenBlock 1000)) [lateBlock] :=
    Node.bootFromCheckpoint_eq hload hstored (by rw [length_evenBlocks]; decide) hx
  rw [length_evenBlocks] at hboot
  rw [hboot, Node.applyStored, restored_rejects_lateBlock]
  rfl

/-- The late block is stored above the checkpoint. The full replay applies it and the start from the
checkpoint rejects it. -/
theorem lateBlock_not_startsAlike : ∃ (ds : List Node.Delivery) (n : Node) (state : CheckpointState)
      (full c : Blockchain),
    Runs.Run (Node.DeliversBetween plainCore)
      ⟨Node.fresh none Node.genesisPotAmount genesis, afterEven⟩ ds ⟨n, afterEven⟩ ∧
    n.db.loadCanonicalChain = genesis :: (evenBlocks 1000 ++ [lateBlock]) ∧
    n.canonicalChain = n.db.loadCanonicalChain ∧
    n.db.checkpoints.get 1000 = some state ∧
    Node.bootByReplay plainCore (fun _ => around afterEven) none n.db =
      .ok (List.replicate 1001 .applied, full) ∧
    Node.bootFromCheckpoint plainCore (fun _ => around afterEven) none n.db 1000 state =
      .ok ([.rejected], c) ∧
    ¬ Node.StartsAlike plainCore none (fun _ => around afterEven) (fun _ => around afterEven) n.db
      1000 state := by
  obtain ⟨full, hgrow⟩ := late_grows
  obtain ⟨n, hrun, ha, -⟩ := archived hgrow lateBlocks_timely
  have hblocks := Node.grown_blocks hgrow
  have hload := ha.loadCanonicalChain.trans (ha.tracks.canonicalChain.trans hblocks)
  obtain ⟨state, hstate⟩ := ha.checkpoints 1000
    (by rw [hblocks, List.length_cons, length_lateBlocks]; omega) (by omega) (by decide)
  have hreplay : Node.bootByReplay plainCore (fun _ => around afterEven) none n.db =
      .ok (List.replicate lateBlocks.length .applied, full) :=
    Node.bootByReplay_eq hload hgrow fun b hb _ _ => (lateBlocks_timely b hb).2
  rw [length_lateBlocks] at hreplay
  have hrejected := bootFromCheckpoint_late state hload fun i => hblocks ▸ ha.stored i
  refine ⟨_, n, state, full, _, hrun, hload, ha.loadCanonicalChain.symm, hstate, hreplay,
    hrejected, ?_⟩
  rintro ⟨full', c', -, happlied, -⟩
  have houtcomes := (Prod.mk.inj (Except.ok.inj (happlied.symm.trans hrejected))).1
  have hmem : BlockOutcome.rejected ∈ List.replicate (n.db.loadCanonicalChain.length - 1 - 1000)
      BlockOutcome.applied := houtcomes ▸ List.mem_singleton_self _
  cases (List.mem_replicate.mp hmem).2

end Sample

end Lootcoin
