import Lootcoin.Library.Fallible
import Lootcoin.Library.Runs
import Lootcoin.Chain.Reorg

/-! What `updateState` does, said once: the conditions under which it accepts a block and the
chain that it then returns.  `Grows` relates a chain to those that accepted blocks lead to, and
the replays of a reorganization are its runs. -/

namespace Lootcoin

theorem DerivedState.validBody_iff {core : Core} {s : DerivedState} {b : Block} :
    s.validBody core b = true ↔
      core.calculateHash b.toHeader = some b.hash ∧
      core.meetsDifficulty b.hash s.currentDifficulty = true ∧
      nonCoinbaseCount b ≤ maxBlockTxs ∧
      (∀ tx ∈ b.transactions.drop 1, tx.isCoinbase = false) ∧
      DerivedState.validCoinbase core b = true ∧
      core.computeTxRoot b.transactions = some b.txRoot ∧
      ∃ acc, s.prevalidate core b.transactions = some acc := by
  simp [DerivedState.validBody, and_assoc, Option.isSome_iff_exists]

/-- An advance settles tickets, applies the transactions, pays the miner, and finds the books
balanced. -/
theorem DerivedState.advance_eq_ok {core : Core} {hashAt : ℕ → Option Bytes} {s s' : DerivedState}
    {b : Block} {payouts : List Payout} : s.advance core hashAt b = .ok (s', payouts) ↔
      ∃ applied, (s.settleTickets core hashAt b.index).1.applyTransactions b.transactions =
          .ok applied ∧
        (applied.payMiner b).totalSupply = s.totalSupply + minted b ∧
        s' = (((applied.payMiner b).issueTicket b).accumulateWork).adjustDifficulty b ∧
        payouts = (s.settleTickets core hashAt b.index).2 := by
  unfold DerivedState.advance
  simp only [Fallible.bind_eq_ok]
  refine exists_congr fun applied => and_congr_right fun _ => ?_
  by_cases hbooks : (applied.payMiner b).totalSupply = s.totalSupply + minted b
  · simp [hbooks, pure, Except.pure, eq_comm]
  · simp [hbooks, bind, Except.bind, throw, throwThe, MonadExceptOf.throw]

section

variable {core : Core} {hashAt : ℕ → Option Bytes} {s s' : DerivedState} {b : Block}
  {payouts : List Payout}

/-- Before the ticket of a block is issued, its application has changed only balances, the pot,
and signatures, and has settled the tickets that mature. -/
theorem DerivedState.advance_paid (h : s.advance core hashAt b = .ok (s', payouts)) :
    ∃ paid : DerivedState, s' = ((paid.issueTicket b).accumulateWork).adjustDifficulty b ∧
      paid.pendingTickets = s.stillPending b.index ∧
      paid.currentDifficulty = s.currentDifficulty ∧ paid.asertAnchor = s.asertAnchor ∧
      paid.chainWork = s.chainWork := by
  obtain ⟨applied, happly, -, rfl, -⟩ := DerivedState.advance_eq_ok.mp h
  have hall := ((s.settleTickets_sameButCoins core hashAt b.index).sameButBooks.trans
    (DerivedState.applyTransactions_sameButBooks happly)).trans
    (applied.payMiner_sameButCoins b).sameButBooks
  exact ⟨_, rfl, hall.pendingTickets, hall.currentDifficulty, hall.asertAnchor, hall.chainWork⟩

theorem DerivedState.advance_pendingTickets (h : s.advance core hashAt b = .ok (s', payouts)) :
    s'.pendingTickets = s.stillPending b.index ++ (ticketOf b).toList := by
  obtain ⟨paid, rfl, htickets, -⟩ := DerivedState.advance_paid h
  simp [DerivedState.accumulateWork, DerivedState.issueTicket, htickets]

theorem DerivedState.advance_chainWork (h : s.advance core hashAt b = .ok (s', payouts)) :
    s'.chainWork = Word.saturatingAdd 128 s.chainWork
      (Word.shiftOne 128 ⌊s.currentDifficulty⌋.toNat) := by
  obtain ⟨paid, rfl, -, hdiff, -, hwork⟩ := DerivedState.advance_paid h
  simp [DerivedState.accumulateWork, DerivedState.issueTicket, hdiff, hwork]

theorem DerivedState.advance_asertAnchor (h : s.advance core hashAt b = .ok (s', payouts)) :
    s'.asertAnchor =
      if b.index = 1 then some ⟨1, b.timestamp, s.currentDifficulty⟩ else s.asertAnchor := by
  obtain ⟨paid, rfl, -, hdiff, hanchor, -⟩ := DerivedState.advance_paid h
  rw [DerivedState.adjustDifficulty_asertAnchor]
  simp [DerivedState.accumulateWork, DerivedState.issueTicket, hdiff, hanchor]

end

namespace Blockchain

variable {core : Core} {now : ℕ} {c c' : Blockchain} {b : Block}

theorem linksToTip_iff : c.linksToTip b = true ↔
    b.index = c.getHeight ∧ b.previousHash = c.getLatestHash := by
  simp [linksToTip]

theorem acceptsBlock_iff : c.acceptsBlock core now b = true ↔
    c.linksToTip b = true ∧ b.timestamp ≤ now + 120 ∧ pastMedian c.blocks b.timestamp = true ∧
      c.validBody core b = true := by
  simp [acceptsBlock, and_assoc]

theorem updateState_eq_some : c.updateState core now b = .ok (some c') ↔
    c.acceptsBlock core now b = true ∧ ∃ s payouts,
      c.advance core c.blockHashAt b = .ok (s, payouts) ∧ c' = c.commitBlock b s payouts := by
  unfold updateState
  split
  · rename_i h
    rw [Fallible.bind_eq_ok]
    constructor
    · rintro ⟨⟨s, payouts⟩, hadv, heq⟩
      exact ⟨h, s, payouts, hadv, Option.some.inj (Fallible.pure_eq_ok.mp heq).symm⟩
    · rintro ⟨-, s, payouts, hadv, rfl⟩
      exact ⟨(s, payouts), hadv, rfl⟩
  · rename_i h
    simp [h]

theorem updateState_eq_none : c.updateState core now b = .ok none ↔
    c.acceptsBlock core now b = false := by
  unfold updateState
  split
  · rename_i h
    rw [Fallible.bind_eq_ok]
    simp [h]
  · rename_i h
    simpa using h

/-- A block whose timestamp lies in the future now or at another time is judged alike then, but
for that. -/
theorem updateState_at {now' : ℕ} (h : c.updateState core now b = .ok (some c'))
    (ht : b.timestamp ≤ now' + 120) : c.updateState core now' b = .ok (some c') := by
  rw [updateState_eq_some, acceptsBlock_iff] at h ⊢
  exact ⟨⟨h.1.1, ht, h.1.2.2⟩, h.2⟩

/-- `c'` is `c` with `b` appended by `updateState` at some time. -/
def Appends (core : Core) (c : Blockchain) (b : Block) (c' : Blockchain) : Prop :=
  ∃ now, c.updateState core now b = .ok (some c')

/-- The time of an append leaves no trace. -/
theorem Appends.unique {d d' : Blockchain} (h : Appends core c b d) (h' : Appends core c b d') :
    d = d' := by
  obtain ⟨_, h⟩ := h
  obtain ⟨_, h'⟩ := h'
  obtain ⟨-, s, payouts, hadv, rfl⟩ := updateState_eq_some.mp h
  obtain ⟨-, s', payouts', hadv', rfl⟩ := updateState_eq_some.mp h'
  cases hadv.symm.trans hadv'
  rfl

/-- What an append checks and does. -/
structure Appended (core : Core) (c : Blockchain) (b : Block) (c' : Blockchain) : Prop where
  index : b.index = c.getHeight
  previousHash : b.previousHash = c.getLatestHash
  pastMedian : Lootcoin.pastMedian c.blocks b.timestamp = true
  validBody : c.validBody core b = true
  advance : ∃ payouts, c.advance core c.blockHashAt b = .ok (c'.toDerivedState, payouts)
  blocks : c'.blocks = c.blocks ++ [b]
  blocksOffset : c'.blocksOffset = c.blocksOffset
  blockHashes : c'.blockHashes = c.blockHashes.insert b.hash b.index
  orphanPool : c'.orphanPool = c.orphanPool
  genesisPot : c'.genesisPot = c.genesisPot
  initialDifficulty : c'.initialDifficulty = c.initialDifficulty

theorem appended_of_updateState (h : c.updateState core now b = .ok (some c')) :
    Appended core c b c' := by
  obtain ⟨hacc, s, payouts, hadv, rfl⟩ := updateState_eq_some.mp h
  obtain ⟨hlink, -, hmed, hbody⟩ := acceptsBlock_iff.mp hacc
  obtain ⟨hi, hp⟩ := linksToTip_iff.mp hlink
  exact ⟨hi, hp, hmed, hbody, ⟨payouts, hadv⟩, rfl, rfl, rfl, rfl, rfl, rfl⟩

theorem Appends.appended (h : Appends core c b c') : Appended core c b c' :=
  appended_of_updateState h.choose_spec

theorem Appended.calculateHash (h : Appended core c b c') :
    core.calculateHash b.toHeader = some b.hash :=
  (DerivedState.validBody_iff.mp h.validBody).1

theorem Appended.getHeight (h : Appended core c b c') : c'.getHeight = c.getHeight + 1 := by
  rw [Blockchain.getHeight, Blockchain.getHeight, h.blocks, h.blocksOffset, List.length_append,
    List.length_singleton, Nat.add_assoc]

theorem Appended.getLatestHash (h : Appended core c b c') : c'.getLatestHash = b.hash := by
  simp [Blockchain.getLatestHash, h.blocks]

/-- The runs of appends. -/
abbrev Grows (core : Core) : Blockchain → List Block → Blockchain → Prop := Runs.Run (Appends core)

/-- The blocks determine the chain that they grow. -/
theorem Grows.unique {bs : List Block} {d d' : Blockchain} (h : Grows core c bs d)
    (h' : Grows core c bs d') : d = d' :=
  Runs.Run.unique h h' Appends.unique

theorem Grows.blocks {bs : List Block} (h : Grows core c bs c') : c'.blocks = c.blocks ++ bs := by
  induction h with
  | nil => simp
  | cons hs _ ih => rw [ih, hs.appended.blocks, List.append_assoc, List.singleton_append]

theorem Grows.blocksOffset {bs : List Block} (h : Grows core c bs c') :
    c'.blocksOffset = c.blocksOffset :=
  h.invariant (P := fun d => d.blocksOffset = c.blocksOffset)
    (fun hs hd => hs.appended.blocksOffset.trans hd) rfl

theorem Grows.getHeight {bs : List Block} (h : Grows core c bs c') :
    c'.getHeight = c.getHeight + bs.length := by
  rw [Blockchain.getHeight, Blockchain.getHeight, h.blocks, h.blocksOffset, List.length_append,
    Nat.add_assoc]

theorem Grows.orphanPool {bs : List Block} (h : Grows core c bs c') :
    c'.orphanPool = c.orphanPool :=
  h.invariant (P := fun d => d.orphanPool = c.orphanPool)
    (fun hs hd => hs.appended.orphanPool.trans hd) rfl

theorem Grows.genesisPot {bs : List Block} (h : Grows core c bs c') :
    c'.genesisPot = c.genesisPot :=
  h.invariant (P := fun d => d.genesisPot = c.genesisPot)
    (fun hs hd => hs.appended.genesisPot.trans hd) rfl

theorem Grows.initialDifficulty {bs : List Block} (h : Grows core c bs c') :
    c'.initialDifficulty = c.initialDifficulty :=
  h.invariant (P := fun d => d.initialDifficulty = c.initialDifficulty)
    (fun hs hd => hs.appended.initialDifficulty.trans hd) rfl

/-! ### Replays -/

theorem applyAll_cons {clock : ℕ → ℕ} {bs : List Block} :
    applyAll core clock c (b :: bs) = .ok (some c') ↔ ∃ d,
      c.updateState core (clock 0) b = .ok (some d) ∧
      applyAll core (laterReadings clock) d bs = .ok (some c') := by
  simp only [applyAll, Fallible.bind_eq_ok]
  constructor
  · rintro ⟨_ | d, h, h'⟩
    · simp at h'
    · exact ⟨d, h, h'⟩
  · rintro ⟨d, h, h'⟩
    exact ⟨some d, h, h'⟩

theorem replay_cons {clock : ℕ → ℕ} {bs : List Block} :
    replay core clock c (b :: bs) = .ok c' ↔
      (c.updateState core (clock 0) b = .ok none ∧ c' = c) ∨
      ∃ d, c.updateState core (clock 0) b = .ok (some d) ∧
        replay core (laterReadings clock) d bs = .ok c' := by
  simp only [replay, Fallible.bind_eq_ok]
  constructor
  · rintro ⟨_ | d, h, h'⟩
    · exact .inl ⟨h, (Fallible.pure_eq_ok.mp h').symm⟩
    · exact .inr ⟨d, h, h'⟩
  · rintro (⟨h, rfl⟩ | ⟨d, h, h'⟩)
    · exact ⟨none, h, rfl⟩
    · exact ⟨some d, h, h'⟩

theorem applyAll_grows {clock : ℕ → ℕ} {bs : List Block}
    (h : applyAll core clock c bs = .ok (some c')) : Grows core c bs c' := by
  induction bs generalizing c clock with
  | nil =>
    obtain rfl : c = c' := by simpa [applyAll] using h
    exact .nil _
  | cons b bs ih =>
    obtain ⟨d, hd, h'⟩ := applyAll_cons.mp h
    exact .cons ⟨_, hd⟩ (ih h')

/-- Blocks that were appended one after the other are all accepted again, from the same chain, at
times when none of them lies in the future. -/
theorem Grows.applyAll {clock : ℕ → ℕ} {bs : List Block} (h : Grows core c bs c')
    (ht : ∀ b ∈ bs, ∀ k, b.timestamp ≤ clock k + 120) :
    applyAll core clock c bs = .ok (some c') := by
  induction h generalizing clock with
  | nil => rfl
  | cons hs _ ih =>
    refine applyAll_cons.mpr ⟨_, updateState_at hs.choose_spec (ht _ List.mem_cons_self 0), ih ?_⟩
    exact fun b hb k => ht b (List.mem_cons_of_mem _ hb) (k + 1)

/-- A replay appends a prefix of its blocks. -/
theorem replay_grows {clock : ℕ → ℕ} {bs : List Block} (h : replay core clock c bs = .ok c') :
    ∃ done, done <+: bs ∧ Grows core c done c' := by
  induction bs generalizing c clock with
  | nil =>
    obtain rfl : c = c' := by simpa [replay] using h
    exact ⟨[], List.prefix_rfl, .nil _⟩
  | cons b bs ih =>
    rcases replay_cons.mp h with ⟨-, rfl⟩ | ⟨d, hd, h'⟩
    · exact ⟨[], List.nil_prefix, .nil _⟩
    · obtain ⟨done, hpre, hgrow⟩ := ih h'
      exact ⟨b :: done, List.cons_prefix_cons.mpr ⟨rfl, hpre⟩, .cons ⟨_, hd⟩ hgrow⟩

/-- The blocks that a replay appends: those before the first that is refused. -/
def acceptedBy (core : Core) : (ℕ → ℕ) → Blockchain → List Block → List Block
  | _, _, [] => []
  | clock, c, b :: bs =>
    match c.updateState core (clock 0) b with
    | .ok (some c') => b :: acceptedBy core (laterReadings clock) c' bs
    | _ => []

theorem replay_blocks {clock : ℕ → ℕ} {bs : List Block} (h : replay core clock c bs = .ok c') :
    c'.blocks = c.blocks ++ acceptedBy core clock c bs := by
  induction bs generalizing c clock with
  | nil =>
    obtain rfl : c = c' := by simpa [replay] using h
    simp [acceptedBy]
  | cons b bs ih =>
    rw [acceptedBy]
    rcases replay_cons.mp h with ⟨hno, rfl⟩ | ⟨d, hd, h'⟩
    · simp [hno]
    · rw [hd, ih h', (appended_of_updateState hd).blocks, List.append_assoc, List.singleton_append]

/-- A replay that appends every block is one in which all are accepted. -/
theorem replay_complete_iff {clock : ℕ → ℕ} {bs : List Block} :
    applyAll core clock c bs = .ok (some c') ↔
      replay core clock c bs = .ok c' ∧ c'.blocks = c.blocks ++ bs := by
  induction bs generalizing c clock with
  | nil => simp +contextual [applyAll, replay, eq_comm]
  | cons b bs ih =>
    rw [applyAll_cons, replay_cons]
    constructor
    · rintro ⟨d, hd, h⟩
      obtain ⟨hr, hb⟩ := ih.mp h
      refine ⟨.inr ⟨d, hd, hr⟩, ?_⟩
      rw [hb, (appended_of_updateState hd).blocks, List.append_assoc, List.singleton_append]
    · rintro ⟨⟨-, rfl⟩ | ⟨d, hd, h⟩, hb⟩
      · simp at hb
      · refine ⟨d, hd, ih.mpr ⟨h, ?_⟩⟩
        rw [hb, (appended_of_updateState hd).blocks, List.append_assoc, List.singleton_append]

end Blockchain

end Lootcoin
