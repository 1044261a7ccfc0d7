import Lootcoin.Library.Fallible
import Lootcoin.Library.Runs
import Lootcoin.Chain.Reorg
import Lootcoin.Db

/-! The node: a chain in memory with its database.  `applyBlock` applies a block and stores what
changed, a fresh node holds the genesis block, and a node starts again from a stored checkpoint or
by replaying the stored chain. -/

namespace Lootcoin

structure Node where
  chain : Blockchain
  db : Db

/-- The reads of a database, which succeed. -/
def Db.reader (db : Db) : BlockReader := fun start limit => some (db.getBlocksRange start limit)

namespace Blockchain

/-- Takes out the payouts of a block, and adds them to those taken out before unless empty. -/
def drainInto (acc : HashTable ℕ (List Payout) × Blockchain) (b : Block) :
    HashTable ℕ (List Payout) × Blockchain :=
  let (payouts, c) := acc.2.drainPayoutsForBlock b.index
  (if payouts.isEmpty then acc.1 else acc.1.insert b.index payouts, c)

/-- Takes out the payouts of the given blocks, keeping those that are not empty. -/
def drainPayouts (c : Blockchain) (blocks : List Block) : HashTable ℕ (List Payout) × Blockchain :=
  blocks.foldl drainInto (∅, c)

end Blockchain

namespace Node

/-- Stores an appended block, and the derived state at every interval of checkpoints. -/
def persistApplied (core : Core) (n : Node) (b : Block) : Node :=
  let (payouts, chain) := n.chain.drainPayoutsForBlock b.index
  let db := n.db.saveAppliedBlock core b chain.pendingTickets payouts
  let db :=
    if 0 < b.index ∧ b.index % checkpointInterval = 0 then db.saveCheckpoint b.index chain.snapshot
    else db
  ⟨chain.pruneToWindow, db⟩

/-- Stores a reorganization: the difference, or everything when no displaced block is known. -/
def persistReorged (core : Core) (n : Node) (oldBlocks newBlocks : List Block) : Node :=
  match oldBlocks with
  | first :: _ =>
    let db := n.db.deleteCheckpointsFrom first.index
    let (newPayouts, chain) := n.chain.drainPayouts newBlocks
    ⟨chain.pruneToWindow,
      db.applyReorgIncremental core oldBlocks newBlocks chain.pendingTickets newPayouts⟩
  | [] =>
    let db := n.db.deleteCheckpointsFrom 0
    let (allPayouts, chain) := n.chain.takeAllSettledPayouts
    ⟨chain.pruneToWindow,
      (newBlocks.foldl Db.saveBlockIndexed db).rebuildIndicesWithTickets core chain.pendingTickets
        allPayouts⟩

/-- Applies a block and stores the result. -/
def applyBlock (core : Core) (ambient : Ambient) (n : Node) (b : Block) :
    Except Fault (BlockOutcome × Node) := do
  let (outcome, chain) ← n.chain.applyInMemory core ambient b (some n.db.reader)
  match outcome with
  | .applied =>
    match chain.blocks.getLast? with
    | none => throw .panic
    | some last => return (outcome, persistApplied core ⟨chain, n.db⟩ last)
  | .reorged oldBlocks newBlocks =>
    return (outcome, persistReorged core ⟨chain, n.db⟩ oldBlocks newBlocks)
  | .orphaned | .rejected => return (outcome, ⟨chain, n.db⟩)

/-! ### The start of a node -/

/-- The chain of a genesis block with a seeded pot. -/
def freshChain (env : Option ℚ) (pot : ℕ) (genesis : Block) : Blockchain :=
  (Blockchain.new env genesis).seedPot pot

/-- A node with a fresh database. -/
def fresh (env : Option ℚ) (pot : ℕ) (genesis : Block) : Node where
  chain := freshChain env pot genesis
  db := Db.empty.saveBlockIndexed genesis

def genesisAddress : Address := "loot1075w8yehjl4rvrdsuws6yn2f3sa8e7hhymr5q8ps9sa7gvulzpjq5dvlt3"
def genesisTimestamp : ℕ := 1748000000
def genesisWalletAmount : ℕ := 1000000
def genesisPotAmount : ℕ := 99000000

def genesisTxs : List Transaction :=
  [{ sender := ""
     receiver := genesisAddress
     amount := genesisWalletAmount
     fee := 0
     nonce := 0
     publicKey := List.replicate 32 0
     signature := [] }]

/-- The genesis block of the main network, with the commitment to its transactions. -/
def mainnetGenesis (txRoot : Bytes) : Block where
  index := 0
  previousHash := List.replicate 32 0
  timestamp := genesisTimestamp
  nonce := 0
  txRoot := txRoot
  transactions := genesisTxs
  hash := []

/-- Applies stored blocks one after the other, in memory and without a database. -/
def applyStored (core : Core) : (ℕ → Ambient) → Blockchain → List Block →
    Except Fault (List BlockOutcome × Blockchain)
  | _, c, [] => .ok ([], c)
  | ambients, c, b :: bs => do
    let (outcome, c') ← c.applyInMemory core (ambients 0) b none
    let (outcomes, c'') ← applyStored core (fun k => ambients (k + 1)) c' bs
    return (outcome :: outcomes, c'')

/-- The start by a full replay of the stored chain. -/
def bootByReplay (core : Core) (ambients : ℕ → Ambient) (env : Option ℚ) (db : Db) :
    Except Fault (List BlockOutcome × Blockchain) :=
  match db.loadCanonicalChain with
  | [] => .error .panic
  | genesis :: rest => applyStored core ambients (freshChain env genesisPotAmount genesis) rest

/-- The start from a checkpoint stored at a height: the derived state of the checkpoint, and a
replay of the blocks above it. -/
def bootFromCheckpoint (core : Core) (ambients : ℕ → Ambient) (env : Option ℚ) (db : Db)
    (height : ℕ) (state : CheckpointState) : Except Fault (List BlockOutcome × Blockchain) :=
  match db.loadCanonicalChain, db.getBlocksRange height 1 with
  | genesis :: _, checkpointBlock :: _ =>
    applyStored core ambients
      ((freshChain env genesisPotAmount genesis).restoreFromCheckpoint height state checkpointBlock)
      (db.loadBlocksFrom (height + 1))
  | _, _ => .error .panic

/-! ### Runs -/

/-- The canonical chain of a node: what is stored below the window, and the window. -/
def canonicalChain (n : Node) : List Block :=
  n.db.getBlocksRange 0 n.chain.blocksOffset ++ n.chain.blocks

/-- A block handed to a node, in its surroundings. -/
structure Delivery where
  block : Block
  ambient : Ambient

/-- Applies blocks one after the other, with the outcomes. -/
def applyBlocks (core : Core) : Node → List Delivery → Except Fault (List BlockOutcome × Node)
  | n, [] => .ok ([], n)
  | n, d :: ds => do
    let (outcome, n') ← n.applyBlock core d.ambient d.block
    let (outcomes, n'') ← applyBlocks core n' ds
    return (outcome :: outcomes, n'')

/-- The node returns from the application of a block. -/
def Delivers (core : Core) (n : Node) (d : Delivery) (n' : Node) : Prop :=
  d.block.Fits ∧ ∃ outcome, n.applyBlock core d.ambient d.block = .ok (outcome, n')

/-- A delivery after which the chosen fork, if any, has replayed completely. -/
def DeliversCompletely (core : Core) (n : Node) (d : Delivery) (n' : Node) : Prop :=
  n.Delivers core d n' ∧ n.chain.ForkReplays core d.ambient d.block (some n.db.reader)

/-- The application of blocks one after the other is a run. -/
theorem run_of_applyBlocks {core : Core} {n n' : Node} {ds : List Delivery}
    {outcomes : List BlockOutcome} (hfits : ∀ d ∈ ds, d.block.Fits)
    (h : applyBlocks core n ds = .ok (outcomes, n')) : Runs.Run (Delivers core) n ds n' := by
  induction ds generalizing n outcomes with
  | nil =>
    cases h
    exact .nil _
  | cons d ds ih =>
    obtain ⟨⟨outcome, m⟩, hstep, h⟩ := Fallible.bind_eq_ok.mp h
    obtain ⟨⟨outcomes', n''⟩, hrest, h⟩ := Fallible.bind_eq_ok.mp h
    cases Fallible.pure_eq_ok.mp h
    exact .cons ⟨hfits d List.mem_cons_self, outcome, hstep⟩
      (ih (fun e he => hfits e (List.mem_cons_of_mem _ he)) hrest)

end Node

end Lootcoin
