import Lootcoin.Node
import Lootcoin.Sync

/-! The start of the node.  With an empty database it asks its peers for a snapshot at a trusted
checkpoint, or begins with the genesis block.  Otherwise it restores the latest checkpoint and
replays the blocks above it, or replays all blocks where there is no checkpoint or a stale one.  At
the end the tickets are loaded from the database.  Stored checkpoints decode, and writes succeed. -/

namespace Lootcoin

namespace Db

def loadTickets (db : Db) : List LootTicket :=
  db.tickets.entries.map fun e => ⟨e.2, e.1⟩

/-- Rebuilds the transaction index and the payouts from the given blocks. -/
def rebuildTxIndex (core : Core) (db : Db) (blocks : List Block)
    (payoutsByBlock : HashTable ℕ (List Payout)) : Db :=
  blocks.foldl (fun db b =>
    savePayouts core { db with txIndex := indexTransactions core db.txIndex b } b.index
      (HashTable.getD payoutsByBlock b.index [])) { db with
        txIndex := .empty
        lotteryPayouts := .empty }

end Db

def Blockchain.restoreTickets (c : Blockchain) (tickets : List LootTicket) : Blockchain :=
  { c with pendingTickets := tickets }

/-! ### Snapshots of peers -/

/-- A snapshot in the list that a peer offers. -/
structure SnapshotInfo where
  height : ℕ
  blockHashHex : String

structure SnapshotPayload where
  height : ℕ
  blockHashHex : String
  balances : HashTable Address ℕ
  confirmedSignatures : List Bytes
  pot : ℕ
  chainWorkHex : String
  currentDifficulty : ℚ
  asertAnchor : Option AsertAnchor
  tickets : List LootTicket

/-- A height with the hash of the block there, in hexadecimal digits. -/
abbrev TrustedCheckpoint : Type := ℕ × String

/-- The answers that a node gets: from the peer at each position its list of snapshots, and in each
attempt, counted from zero, a payload and blocks. A request that fails, or whose answer does not
decode, has none. -/
structure SnapshotAnswers where
  snapshots : ℕ → Option (List SnapshotInfo)
  payload : ℕ → Option SnapshotPayload
  blocks : ℕ → Option (List Block)

/-- A snapshot that a peer lists with the trusted hash. -/
structure SnapshotCandidate where
  peer : String
  height : ℕ
  blockHashHex : String

/-- The digits of a hash without `0x` in front. -/
def hashDigits (hex : String) : List Char := trimStart0x hex.toList

/-- The snapshots of a list that carry the hash of a trusted checkpoint. -/
def matchingSnapshots (trusted : List TrustedCheckpoint) (peer : String)
    (infos : List SnapshotInfo) : List SnapshotCandidate :=
  infos.filterMap fun s =>
    match trusted.find? fun checkpoint => checkpoint.1 = s.height with
    | some (_, trustedHash) =>
      if hashDigits s.blockHashHex = hashDigits trustedHash then
        some ⟨peer, s.height, s.blockHashHex⟩
      else none
    | none => none

/-- The matching snapshots of all peers, the highest first. -/
def snapshotCandidates (trusted : List TrustedCheckpoint) (peers : List String)
    (answers : SnapshotAnswers) : List SnapshotCandidate :=
  let candidates := peers.zipIdx.flatMap fun (peer, i) =>
    matchingSnapshots trusted peer ((answers.snapshots i).getD [])
  candidates.insertionSort fun candidate candidate' => candidate'.height ≤ candidate.height

/-- The state that a payload spells, with the hash of the checkpoint block. -/
def SnapshotPayload.state (payload : SnapshotPayload) (cpBlock : Block) : CheckpointState where
  balances := payload.balances
  confirmedSignatures := payload.confirmedSignatures.toFinset
  pendingTickets := payload.tickets
  pot := payload.pot
  currentDifficulty := payload.currentDifficulty
  asertAnchor := payload.asertAnchor
  chainWork := (fromStrRadix16 128 (hashDigits payload.chainWorkHex)).getD 0
  blockHash := cpBlock.hash

/-- One attempt: the payload and the first block of the answers, where both carry the hash. -/
def verifiedSnapshot (expected : List Char) (payload : Option SnapshotPayload)
    (cpBlocks : Option (List Block)) : Option (SnapshotPayload × Block) :=
  match payload with
  | none => none
  | some payload =>
    if hashDigits payload.blockHashHex ≠ expected then none
    else
      match cpBlocks with
      | none | some [] => none
      | some (cpBlock :: _) =>
        if (hexEncode cpBlock.hash).toList ≠ expected then none else some (payload, cpBlock)

/-- Tries the candidates in order, from an attempt on. -/
def trySnapshots (answers : SnapshotAnswers) :
    ℕ → List SnapshotCandidate → Option (ℕ × SnapshotPayload × Block)
  | _, [] => none
  | attempt, candidate :: candidates =>
    match verifiedSnapshot (hashDigits candidate.blockHashHex) (answers.payload attempt)
      (answers.blocks attempt) with
    | some (payload, cpBlock) => some (candidate.height, payload, cpBlock)
    | none => trySnapshots answers (attempt + 1) candidates

/-- Downloads the highest snapshot that matches a trusted checkpoint, and stores it. -/
def fetchPeerSnapshot (trusted : List TrustedCheckpoint) (peers : List String)
    (answers : SnapshotAnswers) (db : Db) : Option (ℕ × CheckpointState × Block) × Db :=
  if trusted.isEmpty || peers.isEmpty then (none, db)
  else
    match trySnapshots answers 0 (snapshotCandidates trusted peers answers) with
    | none => (none, db)
    | some (height, payload, cpBlock) =>
      let state := payload.state cpBlock
      (some (height, state, cpBlock), (db.saveBlockIndexed cpBlock).saveCheckpoint height state)

/-! ### The start -/

/-- What a start reads from its surroundings: the environment, the answers of peers, and the
surroundings of each replayed block. -/
structure Environment where
  difficulty : Option ℚ
  archive : Bool
  peers : List String
  answers : SnapshotAnswers
  ambients : ℕ → Ambient

/-- A started node, whether it began at a checkpoint, and the lowest height that it claims to have
data for. -/
structure Started where
  chain : Blockchain
  db : Db
  usedCheckpoint : Bool
  historyStart : ℕ

namespace Started

/-- The block in the place of the genesis block while a snapshot is restored. -/
def dummyGenesis : Block where
  index := 0
  previousHash := List.replicate 32 0
  timestamp := Node.genesisTimestamp
  nonce := 0
  txRoot := []
  transactions := []
  hash := []

/-- The chain of a snapshot, which the database has stored. -/
def fromSnapshot (env : Environment) (db : Db) (height : ℕ) (state : CheckpointState)
    (cpBlock : Block) : Started where
  chain := (Node.freshChain env.difficulty Node.genesisPotAmount
    dummyGenesis).restoreFromCheckpoint height state cpBlock
  db := db
  usedCheckpoint := true
  historyStart := height

/-- The chain of a genesis block, which is stored. -/
def fromGenesis (env : Environment) (db : Db) (genesis : Block) : Started where
  chain := Node.freshChain env.difficulty Node.genesisPotAmount genesis
  db := db.saveBlockIndexed genesis
  usedCheckpoint := false
  historyStart := 0

/-- The start with an empty database. -/
def startEmpty (core : Core) (trusted : List TrustedCheckpoint) (env : Environment) (db : Db) :
    Except Fault Started :=
  match if env.archive then (none, db) else fetchPeerSnapshot trusted env.peers env.answers db with
  | (some (height, state, cpBlock), db) => .ok (fromSnapshot env db height state cpBlock)
  | (none, db) =>
    match core.computeTxRoot Node.genesisTxs with
    | none => .error .panic
    | some txRoot => .ok (fromGenesis env db (Node.mainnetGenesis txRoot))

/-- The start by a full replay. -/
def startReplay (core : Core) (env : Environment) (db : Db) : Except Fault Started := do
  let (_, chain) ← Node.bootByReplay core env.ambients env.difficulty db
  return ⟨chain, db, false, 0⟩

/-- The chain as the node restores it. A checkpoint is stale where its hash is not that of the block
stored at its height. -/
def startChain (core : Core) (trusted : List TrustedCheckpoint) (env : Environment) (db : Db) :
    Except Fault Started :=
  if db.loadCanonicalChain.isEmpty then startEmpty core trusted env db
  else
    match db.loadLatestCheckpoint with
    | none => startReplay core env db
    | some (height, state) =>
      match db.getBlocksRange height 1 with
      | [] => .error .panic
      | cpBlock :: _ =>
        if state.blockHash = cpBlock.hash then do
          let (_, chain) ← Node.bootFromCheckpoint core env.ambients env.difficulty db height state
          return ⟨chain, db, true, 0⟩
        else startReplay core env (db.deleteCheckpointsFrom 0)

/-- What the start does with the restored chain: the transaction index follows a replay, the chain
is pruned, and the tickets are those of the database. -/
def finish (core : Core) (s : Started) : Started :=
  let (allPayouts, chain) := s.chain.takeAllSettledPayouts
  let db := if s.usedCheckpoint then s.db else s.db.rebuildTxIndex core chain.blocks allPayouts
  { s with
    chain := chain.pruneToWindow.restoreTickets db.loadTickets
    db := db }

end Started

open Started in
/-- The start of a node up to where it synchronizes with its peers. -/
def startNode (core : Core) (trusted : List TrustedCheckpoint) (env : Environment) (db : Db) :
    Except Fault Started := do
  let s ← startChain core trusted env db
  return s.finish core

namespace Started

def node (s : Started) : Node := ⟨s.chain, s.db⟩

/-! ### What a start does -/

variable {core : Core} {trusted : List TrustedCheckpoint} {env : Environment} {db : Db}
  {s : Started}

/-- Rebuilding the transaction index leaves the other tables. -/
theorem rebuildTxIndex_eq (core : Core) (db : Db) (blocks : List Block)
    (payoutsByBlock : HashTable ℕ (List Payout)) : ∃ txIndex lotteryPayouts,
    db.rebuildTxIndex core blocks payoutsByBlock =
      { db with txIndex := txIndex, lotteryPayouts := lotteryPayouts } := by
  have hpayouts : ∀ (db : Db) (i : ℕ) (ps : List Payout), ∃ txIndex lotteryPayouts,
      Db.savePayouts core db i ps =
        { db with txIndex := txIndex, lotteryPayouts := lotteryPayouts } := by
    intro db i ps
    unfold Db.savePayouts
    split <;> exact ⟨_, _, rfl⟩
  have h : ∀ (db : Db), ∃ txIndex lotteryPayouts, blocks.foldl (fun db b => Db.savePayouts core
      { db with txIndex := indexTransactions core db.txIndex b } b.index
      (HashTable.getD payoutsByBlock b.index [])) db =
        { db with txIndex := txIndex, lotteryPayouts := lotteryPayouts } := by
    induction blocks with
    | nil => exact fun db => ⟨db.txIndex, db.lotteryPayouts, rfl⟩
    | cons b blocks ih =>
      intro db
      obtain ⟨txIndex, lotteryPayouts, hstep⟩ := hpayouts
        { db with txIndex := indexTransactions core db.txIndex b } b.index
        (HashTable.getD payoutsByBlock b.index [])
      obtain ⟨txIndex', lotteryPayouts', hrest⟩ := ih
        { db with txIndex := txIndex, lotteryPayouts := lotteryPayouts }
      exact ⟨txIndex', lotteryPayouts', by rw [List.foldl_cons, hstep]; exact hrest⟩
  exact h { db with txIndex := .empty, lotteryPayouts := .empty }

/-- The last step of a start prunes the chain, and leaves the stored blocks and checkpoints. -/
theorem finish_eq (core : Core) (s : Started) : ∃ tickets txIndex lotteryPayouts,
    s.finish core = { s with
      chain := (Blockchain.pruneToWindow { s.chain with settledPayoutsByBlock := ∅ }).restoreTickets
        tickets
      db := { s.db with txIndex := txIndex, lotteryPayouts := lotteryPayouts } } := by
  unfold finish
  simp only [Blockchain.takeAllSettledPayouts]
  split
  · exact ⟨_, _, _, rfl⟩
  · obtain ⟨txIndex, lotteryPayouts, h⟩ := rebuildTxIndex_eq core s.db s.chain.blocks
      s.chain.settledPayoutsByBlock
    exact ⟨_, txIndex, lotteryPayouts, by rw [h]⟩

/-- The start with stored blocks: a replay, which purges a stale checkpoint, or a checkpoint and the
blocks above it. -/
inductive Restores (core : Core) (env : Environment) (db : Db) : Started → Prop
  | replay {outcomes : List BlockOutcome} {chain : Blockchain} {db' : Db} :
      Node.bootByReplay core env.ambients env.difficulty db = .ok (outcomes, chain) →
      db' = db ∨ db' = db.deleteCheckpointsFrom 0 → Restores core env db ⟨chain, db', false, 0⟩
  | checkpoint {height : ℕ} {state : CheckpointState} {cpBlock : Block} {stored : List Block}
      {outcomes : List BlockOutcome} {chain : Blockchain} :
      db.loadLatestCheckpoint = some (height, state) →
      db.getBlocksRange height 1 = cpBlock :: stored → state.blockHash = cpBlock.hash →
      Node.bootFromCheckpoint core env.ambients env.difficulty db height state =
        .ok (outcomes, chain) → Restores core env db ⟨chain, db, true, 0⟩

theorem startChain_of_empty (h : db.loadCanonicalChain = []) :
    startChain core trusted env db = startEmpty core trusted env db := by
  rw [startChain, h]
  rfl

theorem restores_of_startReplay {db' : Db} (hdb : db' = db ∨ db' = db.deleteCheckpointsFrom 0)
    (h : startReplay core env db' = .ok s) : Restores core env db s := by
  obtain ⟨⟨outcomes, chain⟩, hboot, h⟩ := Fallible.bind_eq_ok.mp h
  cases Fallible.pure_eq_ok.mp h
  refine Restores.replay (show Node.bootByReplay core env.ambients env.difficulty db =
    .ok (outcomes, chain) from ?_) hdb
  rcases hdb with rfl | rfl <;> exact hboot

theorem restores_of_startChain (hne : db.loadCanonicalChain ≠ [])
    (h : startChain core trusted env db = .ok s) : Restores core env db s := by
  rw [startChain, if_neg (by simpa using hne)] at h
  split at h
  · exact restores_of_startReplay (.inl rfl) h
  rename_i height state hlatest
  split at h
  · cases h
  rename_i cpBlock stored hget
  split at h
  · rename_i hhash
    obtain ⟨⟨outcomes, chain⟩, hboot, h⟩ := Fallible.bind_eq_ok.mp h
    cases Fallible.pure_eq_ok.mp h
    exact .checkpoint hlatest hget hhash hboot
  · exact restores_of_startReplay (.inr rfl) h

end Started

end Lootcoin
