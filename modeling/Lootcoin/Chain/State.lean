import Lootcoin.Types

/-! The state of a chain: the part derived from its blocks, which checkpoints store, and the
window of recent blocks with the tables that index it, the orphan pool, and the settled payouts. -/

namespace Lootcoin

/-- The ASERT reference point: height, timestamp, and difficulty. -/
structure AsertAnchor where
  height : ℕ
  timestamp : ℕ
  difficulty : ℚ
  deriving DecidableEq

/-- The state that the blocks of a chain determine. -/
structure DerivedState where
  balances : HashTable Address ℕ
  confirmedSignatures : Finset Bytes
  pendingTickets : List LootTicket
  pot : ℕ
  currentDifficulty : ℚ
  asertAnchor : Option AsertAnchor
  chainWork : ℕ

/-- The counters of the metrics sink that block application increments, without the wrap of their 64
bits. -/
structure Metrics where
  lotteryWinsTotal : Tier → ℕ
  lotteryPayoutsCoinsTotal : Tier → ℕ
  feesCollectedTotal : ℕ
  feesToMinersTotal : ℕ
  feesToPotTotal : ℕ
  blocksTotal : ℕ

def Metrics.recordLotteryWin (m : Metrics) (p : Payout) : Metrics :=
  { m with
    lotteryWinsTotal := Function.update m.lotteryWinsTotal p.tier (m.lotteryWinsTotal p.tier + 1)
    lotteryPayoutsCoinsTotal := Function.update m.lotteryPayoutsCoinsTotal p.tier
      (m.lotteryPayoutsCoinsTotal p.tier + p.amount) }

def Metrics.recordFees (m : Metrics) (totalFees minerShare : ℕ) : Metrics :=
  { m with
    feesCollectedTotal := m.feesCollectedTotal + totalFees
    feesToMinersTotal := m.feesToMinersTotal + minerShare
    feesToPotTotal := m.feesToPotTotal + (totalFees - minerShare)
    blocksTotal := m.blocksTotal + 1 }

/-- `blocks` is the window of recent blocks and `blocksOffset` the index of its first one.
`blockHashes` maps the hashes of the window to indices, and `orphanPool` holds fork blocks under
their hashes. -/
structure Blockchain extends DerivedState where
  blocks : List Block
  blocksOffset : ℕ
  blockHashes : HashTable Bytes ℕ
  orphanPool : HashTable Bytes Block
  genesisPot : ℕ
  settledPayoutsByBlock : HashTable ℕ (List Payout)
  initialDifficulty : ℚ
  metrics : Option Metrics

/-- A checkpoint: the derived state at a block and the hash of that block. -/
structure CheckpointState extends DerivedState where
  blockHash : Bytes

/-- The ways in which a call does not return: the two aborts of `updateState`, a panic, and a walk
through the orphan pool that never ends. -/
inductive Fault where
  | unappliedTransaction
  | conservation
  | panic
  | divergence
  deriving DecidableEq

namespace DerivedState

def getBalance (s : DerivedState) (address : Address) : ℕ := HashTable.getD s.balances address 0

/-- Every balance plus the pot. -/
def totalSupply (s : DerivedState) : ℕ := HashTable.total s.balances + s.pot

end DerivedState

/-- The balances that the transactions of a genesis block allocate. -/
def genesisBalances (txs : List Transaction) : HashTable Address ℕ :=
  txs.foldl (fun t tx => HashTable.addAt 64 t tx.receiver tx.amount) ∅

/-- The derived state of a chain that holds only its genesis block. -/
def genesisState (difficulty : ℚ) (pot : ℕ) (genesis : Block) : DerivedState where
  balances := genesisBalances genesis.transactions
  confirmedSignatures := ∅
  pendingTickets := []
  pot := pot
  currentDifficulty := difficulty
  asertAnchor := none
  chainWork := 0

/-- The difficulty of a fresh chain: the protocol's, unless the environment sets one, which is
brought into `[1, 25]`. -/
def initialDifficultyFromEnv : Option ℚ → ℚ
  | none => initialDifficulty
  | some d => max 1 (min initialDifficulty d)

namespace Blockchain

/-- The chain of one genesis block. `env` is the difficulty that the environment sets. -/
def new (env : Option ℚ) (genesis : Block) : Blockchain where
  toDerivedState := genesisState (initialDifficultyFromEnv env) 0 genesis
  blocks := [genesis]
  blocksOffset := 0
  blockHashes := (∅ : HashTable Bytes ℕ).insert genesis.hash 0
  orphanPool := ∅
  genesisPot := 0
  settledPayoutsByBlock := ∅
  initialDifficulty := initialDifficultyFromEnv env
  metrics := none

def seedPot (c : Blockchain) (amount : ℕ) : Blockchain :=
  { c with genesisPot := amount, pot := Word.saturatingAdd 64 c.pot amount }

/-- The hash of the last block. The window is never empty. -/
def getLatestHash (c : Blockchain) : Bytes := (c.blocks.getLast?.map (·.hash)).getD []

def getHeight (c : Blockchain) : ℕ := c.blocksOffset + c.blocks.length

def getChainWork (c : Blockchain) : ℕ := c.chainWork

/-- The hash of the block at an absolute index, if it is in the window. -/
def blockHashAt (c : Blockchain) (index : ℕ) : Option Bytes :=
  if index < c.blocksOffset then none else (c.blocks[index - c.blocksOffset]?).map (·.hash)

def snapshot (c : Blockchain) : CheckpointState where
  toDerivedState := c.toDerivedState
  blockHash := c.getLatestHash

/-- The chain with its derived state replaced by a checkpoint's and its window by the block of
that checkpoint. -/
def restoreFromCheckpoint (c : Blockchain) (height : ℕ) (state : CheckpointState)
    (checkpointBlock : Block) : Blockchain :=
  { c with
    toDerivedState := state.toDerivedState
    blocks := [checkpointBlock]
    blocksOffset := height
    blockHashes := ∅
    orphanPool := ∅
    settledPayoutsByBlock := ∅ }

/-- Drops all but the last `reorgWindow` blocks, their hashes, and the payouts below them. -/
def pruneToWindow (c : Blockchain) : Blockchain :=
  if reorgWindow < c.blocks.length then
    let toDrop := c.blocks.length - reorgWindow
    let offset := c.blocksOffset + toDrop
    { c with
      blocks := c.blocks.drop toDrop
      blocksOffset := offset
      blockHashes := (c.blocks.take toDrop).foldl (fun t b => t.erase b.hash) c.blockHashes
      settledPayoutsByBlock := (c.settledPayoutsByBlock.keys.filter (· < offset)).foldl
        (fun t k => t.erase k) c.settledPayoutsByBlock }
  else c

/-- Takes out the payouts settled in one block. -/
def drainPayoutsForBlock (c : Blockchain) (index : ℕ) : List Payout × Blockchain :=
  (HashTable.getD c.settledPayoutsByBlock index [],
    { c with settledPayoutsByBlock := c.settledPayoutsByBlock.erase index })

/-- Takes out every settled payout. -/
def takeAllSettledPayouts (c : Blockchain) : HashTable ℕ (List Payout) × Blockchain :=
  (c.settledPayoutsByBlock, { c with settledPayoutsByBlock := ∅ })

end Blockchain

end Lootcoin
