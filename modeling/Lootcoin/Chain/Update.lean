import Mathlib.Data.List.Sort
import Lootcoin.Chain.Lottery

/-! Appending a block: the rules that `updateState` checks against the tip, and the effect of an
accepted block on the derived state and the window. -/

namespace Lootcoin

/-- The receiver of the first transaction, when that is a coinbase. -/
def extractMinerAddress (b : Block) : Option Address :=
  b.transactions.head?.bind fun tx => if tx.isCoinbase then some tx.receiver else none

/-- The number of transactions of a block that are not coinbases. -/
def nonCoinbaseCount (b : Block) : ℕ := b.transactions.countP fun tx => !tx.isCoinbase

/-- The coins that a block creates: the amount of its coinbase. -/
def minted (b : Block) : ℕ :=
  ((b.transactions.head?.filter fun tx => tx.isCoinbase).map fun tx => tx.amount).getD 0

/-- The fees of a block, saturating. -/
def totalBlockFees (txs : List Transaction) : ℕ :=
  Word.saturatingSum 64 ((txs.filter fun tx => !tx.isCoinbase).map fun tx => tx.fee)

/-- The half of the fees that the miner receives. The odd coin stays in the pot. -/
def minerFeeShare (b : Block) : ℕ := totalBlockFees b.transactions / 2

/-- The ticket that a block earns its miner: one with a transfer and a coinbase does. -/
def ticketOf (b : Block) : Option LootTicket :=
  if b.transactions.any fun tx => !tx.isCoinbase then
    (extractMinerAddress b).map fun miner => ⟨miner, b.index⟩
  else none

/-- The median of the last timestamps: the element at half the length, of the sorted list. -/
def medianTimePast (blocks : List Block) : Option ℕ :=
  let recent := ((blocks.reverse.take mtpWindow).map fun b => b.timestamp).insertionSort (· ≤ ·)
  recent[recent.length / 2]?

/-- A timestamp exceeds the median of the blocks before it. -/
def pastMedian (blocks : List Block) (timestamp : ℕ) : Bool :=
  match medianTimePast blocks with
  | none => true
  | some median => median < timestamp

/-- The difficulty that the ASERT formula gives after a block at `index` with `timestamp`. -/
def asertTarget (anchor : AsertAnchor) (index timestamp : ℕ) : ℚ :=
  let ideal := Word.wrappingMul 64 (Word.wrappingSub 64 index anchor.height) targetBlockTimeSecs
  let actual := timestamp - anchor.timestamp
  max minDifficulty (min maxDifficulty
    (anchor.difficulty + ((ideal : ℚ) - (actual : ℚ)) / asertHalflifeSecs))

namespace DerivedState

/-! ### The rules -/

/-- What the pre-validation of a block has seen so far: the debits of each sender and the
signatures. -/
structure Prevalidation where
  pendingDebits : HashTable Address ℕ
  blockSigs : Finset Bytes

def Prevalidation.start : Prevalidation := ⟨∅, ∅⟩

/-- Checks one transaction against the balances at the start of the block and the transactions
before it. -/
def prevalidateTransaction (core : Core) (s : DerivedState) (acc : Prevalidation)
    (tx : Transaction) : Option Prevalidation :=
  if tx.isCoinbase then some acc
  else if !core.verify tx then none
  else if tx.fee < minTxFee then none
  else if (core.decodeAddress tx.receiver).isNone then none
  else if tx.signature ∈ s.confirmedSignatures ∨ tx.signature ∈ acc.blockSigs then none
  else
    let alreadyDebited := HashTable.getD acc.pendingDebits tx.sender 0
    match Word.checkedAdd 64 tx.amount tx.fee with
    | none => none
    | some total =>
      if s.getBalance tx.sender - alreadyDebited < total then none
      else some {
        pendingDebits := HashTable.addAt 64 acc.pendingDebits tx.sender total
        blockSigs := insert tx.signature acc.blockSigs }

/-- The pre-validation of a transaction list. -/
def prevalidate (core : Core) (s : DerivedState) (txs : List Transaction) : Option Prevalidation :=
  txs.foldlM (prevalidateTransaction core s) Prevalidation.start

/-- The coinbase creates at most one coin, pays no fee, and names an address that decodes. -/
def validCoinbase (core : Core) (b : Block) : Bool :=
  match b.transactions.head? with
  | none => true
  | some tx =>
    !tx.isCoinbase || (decide (tx.amount ≤ 1) && tx.fee == 0 &&
      (core.decodeAddress tx.receiver).isSome)

/-- The rules on a block that the derived state decides: hash, proof of work, transaction counts,
coinbase, commitment, and transactions. -/
def validBody (core : Core) (s : DerivedState) (b : Block) : Bool :=
  core.calculateHash b.toHeader == some b.hash &&
  core.meetsDifficulty b.hash s.currentDifficulty &&
  decide (nonCoinbaseCount b ≤ maxBlockTxs) &&
  !(b.transactions.drop 1).any (fun tx => tx.isCoinbase) &&
  validCoinbase core b &&
  core.computeTxRoot b.transactions == some b.txRoot &&
  (s.prevalidate core b.transactions).isSome

/-! ### The effect -/

/-- Applies one transaction. A transfer that its sender cannot cover changes nothing but that the
sender gets an entry, and its signature is not recorded. -/
def applyTransaction (s : DerivedState) (tx : Transaction) : DerivedState :=
  if tx.isCoinbase then
    { s with balances := HashTable.addAt 64 s.balances tx.receiver tx.amount }
  else
    let senderBalance := s.getBalance tx.sender
    let balances := s.balances.insert tx.sender senderBalance
    match Word.checkedAdd 64 tx.amount tx.fee with
    | none => { s with balances := balances }
    | some total =>
      if senderBalance < total then { s with balances := balances }
      else
        { s with
          balances := HashTable.addAt 64 (balances.insert tx.sender (senderBalance - total))
            tx.receiver tx.amount
          pot := Word.saturatingAdd 64 s.pot tx.fee
          confirmedSignatures := insert tx.signature s.confirmedSignatures }

/-- Applies the transactions of a block, and aborts on a transfer that leaves no signature. -/
def applyTransactions : DerivedState → List Transaction → Except Fault DerivedState
  | s, [] => .ok s
  | s, tx :: txs =>
    let s' := s.applyTransaction tx
    if !tx.isCoinbase ∧ tx.signature ∉ s'.confirmedSignatures then .error .unappliedTransaction
    else applyTransactions s' txs

/-- `s'` has the tickets, the difficulty, and the work of `s`. -/
structure SameButBooks (s s' : DerivedState) : Prop where
  pendingTickets : s'.pendingTickets = s.pendingTickets
  currentDifficulty : s'.currentDifficulty = s.currentDifficulty
  asertAnchor : s'.asertAnchor = s.asertAnchor
  chainWork : s'.chainWork = s.chainWork

theorem SameButBooks.trans {s t u : DerivedState} (h : SameButBooks s t) (h' : SameButBooks t u) :
    SameButBooks s u :=
  ⟨h'.1.trans h.1, h'.2.trans h.2, h'.3.trans h.3, h'.4.trans h.4⟩

theorem SameButCoins.sameButBooks {s s' : DerivedState} (h : SameButCoins s s') :
    SameButBooks s s' :=
  ⟨h.pendingTickets, h.currentDifficulty, h.asertAnchor, h.chainWork⟩

theorem applyTransaction_sameButBooks (s : DerivedState) (tx : Transaction) :
    SameButBooks s (s.applyTransaction tx) := by
  unfold applyTransaction
  split
  · exact ⟨rfl, rfl, rfl, rfl⟩
  · simp only
    split
    · exact ⟨rfl, rfl, rfl, rfl⟩
    · split <;> exact ⟨rfl, rfl, rfl, rfl⟩

theorem applyTransactions_sameButBooks {s s' : DerivedState} {txs : List Transaction}
    (h : s.applyTransactions txs = .ok s') : SameButBooks s s' := by
  induction txs generalizing s with
  | nil =>
    cases h
    exact ⟨rfl, rfl, rfl, rfl⟩
  | cons tx txs ih =>
    rw [applyTransactions] at h
    split at h
    · cases h
    · exact (s.applyTransaction_sameButBooks tx).trans (ih h)

/-- Moves the miner's half of the fees from the pot to the miner. -/
def payMiner (s : DerivedState) (b : Block) : DerivedState :=
  match if 0 < minerFeeShare b then extractMinerAddress b else none with
  | none => s
  | some miner =>
    { s with
      pot := s.pot - minerFeeShare b
      balances := HashTable.addAt 64 s.balances miner (minerFeeShare b) }

theorem payMiner_sameButCoins (s : DerivedState) (b : Block) : SameButCoins s (s.payMiner b) := by
  unfold payMiner
  split
  · exact .refl s
  · exact ⟨rfl, rfl, rfl, rfl, rfl⟩

def issueTicket (s : DerivedState) (b : Block) : DerivedState :=
  { s with pendingTickets := s.pendingTickets ++ (ticketOf b).toList }

/-- Adds the work of a block at the current difficulty. -/
def accumulateWork (s : DerivedState) : DerivedState :=
  { s with
    chainWork := Word.saturatingAdd 128 s.chainWork
      (Word.shiftOne 128 ⌊s.currentDifficulty⌋.toNat) }

/-- Sets the anchor at block 1 and moves the difficulty at every later block. A chain whose anchor
is below the minimum keeps its difficulty. -/
def adjustDifficulty (s : DerivedState) (b : Block) : DerivedState :=
  if b.index = 1 then { s with asertAnchor := some ⟨1, b.timestamp, s.currentDifficulty⟩ }
  else
    match s.asertAnchor with
    | none => s
    | some anchor =>
      if anchor.difficulty < minDifficulty then s
      else
        let newDifficulty := asertTarget anchor b.index b.timestamp
        if 1 / 1000000000 < |newDifficulty - s.currentDifficulty| then
          { s with currentDifficulty := newDifficulty }
        else s

/-- The adjustment changes the anchor and the difficulty at most. -/
theorem adjustDifficulty_eq (s : DerivedState) (b : Block) : ∃ anchor difficulty,
    s.adjustDifficulty b = { s with asertAnchor := anchor, currentDifficulty := difficulty } := by
  unfold adjustDifficulty
  split
  · exact ⟨_, _, rfl⟩
  · split
    · exact ⟨s.asertAnchor, s.currentDifficulty, rfl⟩
    · split
      · exact ⟨s.asertAnchor, s.currentDifficulty, rfl⟩
      · simp only
        split
        · exact ⟨s.asertAnchor, _, rfl⟩
        · exact ⟨s.asertAnchor, s.currentDifficulty, rfl⟩

@[simp] theorem adjustDifficulty_balances (s : DerivedState) (b : Block) :
    (s.adjustDifficulty b).balances = s.balances := by
  obtain ⟨_, _, h⟩ := s.adjustDifficulty_eq b
  rw [h]

@[simp] theorem adjustDifficulty_confirmedSignatures (s : DerivedState) (b : Block) :
    (s.adjustDifficulty b).confirmedSignatures = s.confirmedSignatures := by
  obtain ⟨_, _, h⟩ := s.adjustDifficulty_eq b
  rw [h]

@[simp] theorem adjustDifficulty_pendingTickets (s : DerivedState) (b : Block) :
    (s.adjustDifficulty b).pendingTickets = s.pendingTickets := by
  obtain ⟨_, _, h⟩ := s.adjustDifficulty_eq b
  rw [h]

@[simp] theorem adjustDifficulty_pot (s : DerivedState) (b : Block) :
    (s.adjustDifficulty b).pot = s.pot := by
  obtain ⟨_, _, h⟩ := s.adjustDifficulty_eq b
  rw [h]

@[simp] theorem adjustDifficulty_chainWork (s : DerivedState) (b : Block) :
    (s.adjustDifficulty b).chainWork = s.chainWork := by
  obtain ⟨_, _, h⟩ := s.adjustDifficulty_eq b
  rw [h]

theorem adjustDifficulty_asertAnchor (s : DerivedState) (b : Block) :
    (s.adjustDifficulty b).asertAnchor =
      if b.index = 1 then some ⟨1, b.timestamp, s.currentDifficulty⟩ else s.asertAnchor := by
  unfold adjustDifficulty
  split
  · rfl
  · split
    · rfl
    · split
      · rfl
      · simp only
        split <;> rfl

/-- The derived state after a valid block, with the payouts settled in it. -/
def advance (core : Core) (hashAt : ℕ → Option Bytes) (s : DerivedState) (b : Block) :
    Except Fault (DerivedState × List Payout) := do
  let (settled, payouts) := s.settleTickets core hashAt b.index
  let applied ← settled.applyTransactions b.transactions
  let paid := applied.payMiner b
  if paid.totalSupply ≠ s.totalSupply + minted b then throw .conservation
  return (((paid.issueTicket b).accumulateWork).adjustDifficulty b, payouts)

end DerivedState

namespace Blockchain

/-- The block follows the tip. -/
def linksToTip (c : Blockchain) (b : Block) : Bool :=
  b.index == c.getHeight && b.previousHash == c.getLatestHash

/-- All the rules of `updateState`, at the time `now`. -/
def acceptsBlock (core : Core) (now : ℕ) (c : Blockchain) (b : Block) : Bool :=
  c.linksToTip b && decide (b.timestamp ≤ now + 120) && pastMedian c.blocks b.timestamp &&
  c.validBody core b

/-- The chain with an accepted block recorded, its derived state `s`, and its payouts. -/
def commitBlock (c : Blockchain) (b : Block) (s : DerivedState) (payouts : List Payout) :
    Blockchain :=
  { c with
    toDerivedState := s
    blocks := c.blocks ++ [b]
    blockHashes := c.blockHashes.insert b.hash b.index
    settledPayoutsByBlock :=
      if payouts.isEmpty then c.settledPayoutsByBlock
      else c.settledPayoutsByBlock.insert b.index payouts
    metrics := c.metrics.map fun m =>
      (payouts.foldl Metrics.recordLotteryWin m).recordFees (totalBlockFees b.transactions)
        (minerFeeShare b) }

/-- Appends a block if the rules allow it. The result is `none` where the source returns
`false`. -/
def updateState (core : Core) (now : ℕ) (c : Blockchain) (b : Block) :
    Except Fault (Option Blockchain) :=
  if c.acceptsBlock core now b then do
    let (s, payouts) ← c.advance core c.blockHashAt b
    return some (c.commitBlock b s payouts)
  else .ok none

end Blockchain

end Lootcoin
