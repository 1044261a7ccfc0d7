import Mathlib.Data.List.Lex
import Lootcoin.Library.OrderedTable
import Lootcoin.Chain.State

/-! The database of the node: blocks, tickets, payouts, and checkpoints by number, and the
transaction index by address, with the writes that block application makes and the reads that
reorganizations and the start of the node make.  Writes succeed, and values are stored as what
they decode to. -/

namespace Lootcoin

/-- What the transaction index stores about a transaction or payout. -/
structure TxValue where
  sender : Address
  receiver : Address
  amount : ℕ
  fee : ℕ
  txidHex : String
  deriving DecidableEq

/-- What a query of the transaction index returns about a transaction or payout. -/
structure TxRecord where
  blockIndex : ℕ
  txidHex : String
  sender : Address
  receiver : Address
  amount : ℕ
  fee : ℕ
  deriving DecidableEq

structure Db where
  blocks : OrderedTable ℕ Block
  txIndex : OrderedTable Bytes TxValue
  tickets : OrderedTable ℕ Address
  lotteryPayouts : OrderedTable ℕ (List Payout)
  checkpoints : OrderedTable ℕ CheckpointState

def hexDigit (n : ℕ) : Char := "0123456789abcdef".toList.getD n '0'

def hexEncode (bs : Bytes) : String :=
  String.ofList (bs.flatMap fun b => [hexDigit (b.val / 16), hexDigit (b.val % 16)])

/-- The position from which the payouts of a block are numbered. -/
def payoutPosition : ℕ := 0xFFFF0000

/-- The key of an index entry: the address, a zero byte, the block index, and the position. -/
def makeTxKey (address : Address) (blockIndex txPos : ℕ) : Bytes :=
  utf8 address ++ 0 :: (bigEndian 8 blockIndex ++ bigEndian 4 txPos)

/-- The digest that identifies what has no transaction identifier: coinbases and payouts. -/
def syntheticTxid (core : Core) (tag : String) (blockIndex pos : ℕ) : String :=
  hexEncode (core.digest (encodeBytes (utf8 tag) ++ littleEndian 8 blockIndex ++
    littleEndian 4 pos)).val

def makeTxValue (core : Core) (tx : Transaction) (blockIndex txPos : ℕ) : TxValue where
  sender := tx.sender
  receiver := tx.receiver
  amount := tx.amount
  fee := tx.fee
  txidHex :=
    if tx.isCoinbase then syntheticTxid core "coinbase" blockIndex txPos
    else hexEncode (core.txid tx)

def makeLotteryValue (core : Core) (receiver : Address) (amount blockIndex payoutPos : ℕ) :
    TxValue where
  sender := "lottery"
  receiver := receiver
  amount := amount
  fee := 0
  txidHex := syntheticTxid core "lottery" blockIndex payoutPos

/-- Adds the transactions of a block to the index, under receivers and senders. -/
def indexTransactions (core : Core) (t : OrderedTable Bytes TxValue) (b : Block) :
    OrderedTable Bytes TxValue :=
  b.transactions.zipIdx.foldl (fun t (tx, pos) =>
    let value := makeTxValue core tx b.index pos
    let t := t.insert (makeTxKey tx.receiver b.index pos) value
    if tx.isCoinbase then t else t.insert (makeTxKey tx.sender b.index pos) value) t

/-- Adds the payouts of a block to the index, under their receivers. -/
def indexPayouts (core : Core) (t : OrderedTable Bytes TxValue) (blockIndex : ℕ)
    (payouts : List Payout) : OrderedTable Bytes TxValue :=
  payouts.zipIdx.foldl (fun t (p, i) =>
    t.insert (makeTxKey p.receiver blockIndex (payoutPosition + i))
      (makeLotteryValue core p.receiver p.amount blockIndex i)) t

/-- Removes the transactions of a block from the index. -/
def unindexTransactions (t : OrderedTable Bytes TxValue) (b : Block) : OrderedTable Bytes TxValue :=
  b.transactions.zipIdx.foldl (fun t (tx, pos) =>
    let t := t.remove (makeTxKey tx.receiver b.index pos)
    if tx.isCoinbase then t else t.remove (makeTxKey tx.sender b.index pos)) t

/-- Removes the payouts of a block from the index. -/
def unindexPayouts (t : OrderedTable Bytes TxValue) (blockIndex : ℕ) (payouts : List Payout) :
    OrderedTable Bytes TxValue :=
  payouts.zipIdx.foldl (fun t (p, i) =>
    t.remove (makeTxKey p.receiver blockIndex (payoutPosition + i))) t

/-- The ticket table that holds exactly the given tickets. -/
def ticketTable (tickets : List LootTicket) : OrderedTable ℕ Address :=
  tickets.foldl (fun t ticket => t.insert ticket.createdHeight ticket.miner) .empty

namespace Db

def empty : Db := ⟨.empty, .empty, .empty, .empty, .empty⟩

/-! ### Reads -/

/-- The stored blocks with an index from `start` to before `start + limit`. -/
def getBlocksRange (db : Db) (start limit : ℕ) : List Block :=
  db.blocks.range start (Word.saturatingAdd 64 start limit)

def loadCanonicalChain (db : Db) : List Block := db.blocks.values

def loadBlocksFrom (db : Db) (start : ℕ) : List Block := db.blocks.rangeFrom start

def loadLatestCheckpoint (db : Db) : Option (ℕ × CheckpointState) := db.checkpoints.last

/-- The record of an index entry that a query for an address of `prefixLen - 1` bytes has found. The
block index is read after the prefix, and a key that is too short for it panics. -/
def txRecordAt (prefixLen : ℕ) (e : Bytes × TxValue) : Except Fault TxRecord :=
  if e.1.length < prefixLen + 8 then .error .panic
  else .ok {
    blockIndex := fromBigEndian ((e.1.drop prefixLen).take 8)
    txidHex := e.2.txidHex
    sender := e.2.sender
    receiver := e.2.receiver
    amount := e.2.amount
    fee := e.2.fee }

/-- A page of the records of an address, the newest first. -/
def getTransactionsForAddress (db : Db) (address : Address) (offset limit : ℕ) :
    Except Fault (List TxRecord) :=
  let prefixLen := (utf8 address).length + 1
  let entries := db.txIndex.entriesBetween (utf8 address ++ [0]) (utf8 address ++ [1])
  ((entries.reverse.drop offset).take limit).mapM (txRecordAt prefixLen)

/-! ### Writes -/

def saveBlockIndexed (db : Db) (b : Block) : Db := { db with blocks := db.blocks.insert b.index b }

/-- Stores the payouts of a block and their index entries, when there are any. -/
def savePayouts (core : Core) (db : Db) (blockIndex : ℕ) (payouts : List Payout) : Db :=
  if payouts.isEmpty then db
  else
    { db with
      lotteryPayouts := db.lotteryPayouts.insert blockIndex payouts
      txIndex := indexPayouts core db.txIndex blockIndex payouts }

/-- Stores an appended block, the pending tickets, and the payouts settled in the block. -/
def saveAppliedBlock (core : Core) (db : Db) (b : Block) (tickets : List LootTicket)
    (payouts : List Payout) : Db :=
  savePayouts core
    { db with
      blocks := db.blocks.insert b.index b
      txIndex := indexTransactions core db.txIndex b
      tickets := ticketTable tickets }
    b.index payouts

/-- Removes a displaced block from every table. -/
def removeDisplaced (db : Db) (b : Block) : Db :=
  { db with
    blocks := db.blocks.remove b.index
    txIndex := unindexTransactions
      (unindexPayouts db.txIndex b.index ((db.lotteryPayouts.get b.index).getD [])) b
    lotteryPayouts := db.lotteryPayouts.remove b.index }

/-- Adds a block of the new branch to every table. -/
def insertCanonical (core : Core) (payoutsByBlock : HashTable ℕ (List Payout)) (db : Db)
    (b : Block) : Db :=
  savePayouts core
    { db with
      blocks := db.blocks.insert b.index b
      txIndex := indexTransactions core db.txIndex b }
    b.index (HashTable.getD payoutsByBlock b.index [])

/-- Replaces the displaced blocks by the new ones, with their index entries, and the tickets. -/
def applyReorgIncremental (core : Core) (db : Db) (oldBlocks newBlocks : List Block)
    (tickets : List LootTicket) (newPayoutsByBlock : HashTable ℕ (List Payout)) : Db :=
  let db := oldBlocks.foldl removeDisplaced db
  let db := newBlocks.foldl (insertCanonical core newPayoutsByBlock) db
  { db with tickets := ticketTable tickets }

/-- Rebuilds the transaction index, the payouts, and the tickets, from the stored blocks. -/
def rebuildIndicesWithTickets (core : Core) (db : Db) (tickets : List LootTicket)
    (newPayoutsByBlock : HashTable ℕ (List Payout)) : Db :=
  let db :=
    { db with
      txIndex := db.loadCanonicalChain.foldl (indexTransactions core) .empty
      lotteryPayouts := .empty }
  let db := newPayoutsByBlock.entries.foldl (fun db e => savePayouts core db e.1 e.2) db
  { db with tickets := ticketTable tickets }

def saveCheckpoint (db : Db) (height : ℕ) (state : CheckpointState) : Db :=
  { db with checkpoints := db.checkpoints.insert height state }

def deleteCheckpointsFrom (db : Db) (fromHeight : ℕ) : Db :=
  { db with checkpoints := db.checkpoints.removeFrom fromHeight }

/-! The blocks table changes only at the indices of the blocks that are written or removed. -/

@[simp] theorem savePayouts_blocks (core : Core) (db : Db) (i : ℕ) (ps : List Payout) :
    (savePayouts core db i ps).blocks = db.blocks := by
  unfold savePayouts
  split <;> rfl

@[simp] theorem savePayouts_checkpoints (core : Core) (db : Db) (i : ℕ) (ps : List Payout) :
    (savePayouts core db i ps).checkpoints = db.checkpoints := by
  unfold savePayouts
  split <;> rfl

@[simp] theorem saveAppliedBlock_blocks (core : Core) (db : Db) (b : Block) (ts : List LootTicket)
    (ps : List Payout) : (db.saveAppliedBlock core b ts ps).blocks = db.blocks.insert b.index b :=
  savePayouts_blocks core _ _ _

@[simp] theorem saveAppliedBlock_checkpoints (core : Core) (db : Db) (b : Block)
    (ts : List LootTicket) (ps : List Payout) :
    (db.saveAppliedBlock core b ts ps).checkpoints = db.checkpoints :=
  savePayouts_checkpoints core _ _ _

@[simp] theorem insertCanonical_checkpoints (core : Core) (pm : HashTable ℕ (List Payout)) (db : Db)
    (b : Block) : (insertCanonical core pm db b).checkpoints = db.checkpoints :=
  savePayouts_checkpoints core _ _ _

@[simp] theorem insertCanonical_blocks (core : Core) (pm : HashTable ℕ (List Payout)) (db : Db)
    (b : Block) : (insertCanonical core pm db b).blocks = db.blocks.insert b.index b :=
  savePayouts_blocks core _ _ _

theorem foldl_removeDisplaced_blocks (old : List Block) (db : Db) :
    (old.foldl removeDisplaced db).blocks =
      old.foldl (fun t b => t.remove b.index) db.blocks := by
  induction old generalizing db with
  | nil => rfl
  | cons b old ih => exact ih _

theorem foldl_insertCanonical_blocks (core : Core) (pm : HashTable ℕ (List Payout))
    (new : List Block) (db : Db) : (new.foldl (insertCanonical core pm) db).blocks =
      new.foldl (fun t b => t.insert b.index b) db.blocks := by
  induction new generalizing db with
  | nil => rfl
  | cons b new ih => rw [List.foldl_cons, ih, insertCanonical_blocks, List.foldl_cons]

theorem applyReorgIncremental_blocks (core : Core) (db : Db) (old new : List Block)
    (ts : List LootTicket) (pm : HashTable ℕ (List Payout)) :
    (db.applyReorgIncremental core old new ts pm).blocks =
      new.foldl (fun t b => t.insert b.index b)
        (old.foldl (fun t b => t.remove b.index) db.blocks) := by
  simp only [applyReorgIncremental, foldl_insertCanonical_blocks, foldl_removeDisplaced_blocks]

/-! A reorganization leaves the checkpoints as they are. -/

/-- What no step of a fold changes, the fold does not change. -/
theorem foldl_checkpoints {α : Type} {f : Db → α → Db} (hf : ∀ db a, (f db a).checkpoints =
    db.checkpoints) (l : List α) (db : Db) : (l.foldl f db).checkpoints = db.checkpoints := by
  induction l generalizing db with
  | nil => rfl
  | cons a l ih => exact (ih _).trans (hf db a)

theorem applyReorgIncremental_checkpoints (core : Core) (db : Db) (old new : List Block)
    (ts : List LootTicket) (pm : HashTable ℕ (List Payout)) :
    (db.applyReorgIncremental core old new ts pm).checkpoints = db.checkpoints := by
  have h : ∀ (db : Db) (b : Block), (removeDisplaced db b).checkpoints = db.checkpoints :=
    fun _ _ => rfl
  exact (foldl_checkpoints (insertCanonical_checkpoints core pm) new _).trans
    (foldl_checkpoints h old db)

theorem rebuildIndicesWithTickets_checkpoints (core : Core) (db : Db) (ts : List LootTicket)
    (pm : HashTable ℕ (List Payout)) :
    (db.rebuildIndicesWithTickets core ts pm).checkpoints = db.checkpoints := by
  have h : ∀ (db : Db) (e : Σ _ : ℕ, List Payout),
      (savePayouts core db e.1 e.2).checkpoints = db.checkpoints :=
    fun db e => savePayouts_checkpoints core db e.1 e.2
  exact foldl_checkpoints h pm.entries _

theorem rebuildIndicesWithTickets_blocks (core : Core) (db : Db) (ts : List LootTicket)
    (pm : HashTable ℕ (List Payout)) :
    (db.rebuildIndicesWithTickets core ts pm).blocks = db.blocks := by
  have h : ∀ (l : List (Σ _ : ℕ, List Payout)) (db : Db),
      (l.foldl (fun db e => savePayouts core db e.1 e.2) db).blocks = db.blocks := by
    intro l
    induction l with
    | nil => exact fun _ => rfl
    | cons e l ih => exact fun db => (ih _).trans (savePayouts_blocks core db e.1 e.2)
  exact h pm.entries _

theorem foldl_saveBlockIndexed_blocks (new : List Block) (db : Db) :
    (new.foldl saveBlockIndexed db).blocks =
      new.foldl (fun t b => t.insert b.index b) db.blocks := by
  induction new generalizing db with
  | nil => rfl
  | cons b new ih => exact ih _

end Db

end Lootcoin
