import Lootcoin.Gossip
import Lootcoin.Mempool
import Lootcoin.Node

/-! The handlers of the node: a block that comes by gossip or by a request, a transaction that a
peer relays or a client submits, and the start of the pool from what was stored.  A handler holds
the locks on the chain and the pool while it changes them, so it is one step of both. -/

namespace Lootcoin

structure AppState where
  node : Node
  mempool : Mempool
  gossip : Gossip

def isValidAddress (core : Core) (addr : Address) : Bool := (core.decodeAddress addr).isSome

/-- The fee is enough, the signature is not confirmed, and the balance covers the cost. -/
def Blockchain.validateTransactionState (c : Blockchain) (tx : Transaction) : Bool :=
  decide (minTxFee ≤ tx.fee) && decide (tx.signature ∉ c.confirmedSignatures) &&
    decide (costOf tx ≤ c.getBalance tx.sender)

/-! ### Blocks -/

/-- The message of the first check that a block fails before the chain is asked. -/
def incomingBlockError (core : Core) (b : Block) : Option String :=
  match b.transactions with
  | [] => some "block has no transactions"
  | coinbase :: rest =>
    if maxBlockTxs + 1 < b.transactions.length then some "too many transactions in block"
    else if !coinbase.isCoinbase then some "first transaction must be coinbase"
    else if 1 < coinbase.amount then some "coinbase amount too high"
    else if coinbase.fee ≠ 0 then some "coinbase fee must be zero"
    else if !isValidAddress core coinbase.receiver then
      some "coinbase receiver is not a valid address"
    else if rest.any fun tx => tx.isCoinbase then some "extra coinbase transaction"
    else
      match core.calculateHash b.toHeader with
      | none => some "failed to hash block"
      | some recomputed => if recomputed ≠ b.hash then some "invalid block hash" else none

namespace Mempool

/-- Puts back the transactions of displaced blocks. -/
def readdBlocks (core : Core) (getBalance : Address → ℕ) (height : ℕ) (p : Mempool)
    (oldBlocks : List Block) : Mempool :=
  oldBlocks.foldl (fun p b => p.readdDisplaced core getBalance height b.transactions) p

/-- Removes the transactions of blocks that have become canonical. -/
def removeBlocks (core : Core) (p : Mempool) (newBlocks : List Block) : Mempool :=
  newBlocks.foldl (fun p b => p.removeIncluded core b.transactions) p

end Mempool

namespace AppState

/-- What a handler does with the outcome of a block on the chain: its answer, and the state in which
the pool has followed the chain and the block is announced. -/
def afterOutcome (core : Core) (s : AppState) (b : Block) (node : Node) :
    BlockOutcome → Except String Bool × AppState
  | .applied =>
    let pool := s.mempool.removeIncluded core b.transactions
    (.ok true, ⟨node, pool.evictExpired core node.chain.getHeight, s.gossip.announce b⟩)
  | .reorged oldBlocks newBlocks =>
    let height := node.chain.getHeight
    let pool := s.mempool.readdBlocks core node.chain.getBalance height oldBlocks
    let pool := pool.removeBlocks core newBlocks
    (.ok true, ⟨node, pool.evictExpired core height, s.gossip.announce b⟩)
  | .orphaned => (.ok false, { s with node := node })
  | .rejected => (.error "block rejected", { s with node := node })

/-- Handles a block. The answer is `true` where the chain has taken it and `false` where it has
become an orphan. -/
def applyIncomingBlock (core : Core) (ambient : Ambient) (s : AppState) (b : Block) :
    Except Fault (Except String Bool × AppState) :=
  match incomingBlockError core b with
  | some message => .ok (.error message, s)
  | none => do
    let (outcome, node) ← s.node.applyBlock core ambient b
    return s.afterOutcome core b node outcome

/-- One block of a synchronization, which asks the chain and leaves the pool alone. -/
def syncBlock (core : Core) (ambient : Ambient) (s : AppState) (b : Block) :
    Except Fault AppState := do
  let (_, node) ← s.node.applyBlock core ambient b
  return { s with node := node }

/-! ### Transactions -/

/-- Handles a transaction that a peer relays. -/
def relayTxInner (core : Core) (s : AppState) (tx : Transaction) : Bool × AppState :=
  if tx.sender = tx.receiver then (false, s)
  else if !core.verify tx then (false, s)
  else if !isValidAddress core tx.receiver then (false, s)
  else if !s.node.chain.validateTransactionState tx then (false, s)
  else
    let alreadyPending := s.mempool.pendingDebit tx.sender
    if s.node.chain.getBalance tx.sender - alreadyPending < costOf tx then (false, s)
    else
      match s.mempool.addTransaction core tx s.node.chain.getHeight with
      | (false, pool) => (false, { s with mempool := pool })
      | (true, pool) =>
        (true, { s with mempool := pool, gossip := (s.gossip.publishTransaction core tx).2 })

end AppState

structure SubmitTransactionRequest where
  sender : Address
  receiver : Address
  amount : ℕ
  fee : ℕ
  nonce : ℕ
  publicKeyHex : String
  signatureHex : String

structure SubmitTransactionResponse where
  txidHex : String
  sender : Address
  receiver : Address
  amount : ℕ
  fee : ℕ
  deriving DecidableEq

/-- A status with the text that goes with it. -/
structure HttpError where
  status : ℕ
  message : String
  deriving DecidableEq

def badRequest (message : String) : HttpError := ⟨400, message⟩
def serviceUnavailable (message : String) : HttpError := ⟨503, message⟩

def hexValue (c : Char) : Option ℕ :=
  if '0' ≤ c ∧ c ≤ '9' then some (c.toNat - '0'.toNat)
  else if 'a' ≤ c ∧ c ≤ 'f' then some (c.toNat - 'a'.toNat + 10)
  else if 'A' ≤ c ∧ c ≤ 'F' then some (c.toNat - 'A'.toNat + 10)
  else none

def fromHexDigits : List Char → Option Bytes
  | [] => some []
  | [_] => none
  | high :: low :: rest => do
    let h ← hexValue high
    let l ← hexValue low
    let bytes ← fromHexDigits rest
    return Fin.ofNat 256 (16 * h + l) :: bytes

/-- The bytes that pairs of hexadecimal digits spell. -/
def fromHex (s : String) : Option Bytes := fromHexDigits s.toList

namespace AppState

/-- Handles a transaction that a client submits. -/
def submitTransactionHandler (core : Core) (s : AppState) (req : SubmitTransactionRequest) :
    Except HttpError SubmitTransactionResponse × AppState :=
  if req.sender = req.receiver then
    (.error (badRequest "the receiver must be different from the sender"), s)
  else if !isValidAddress core req.receiver then
    (.error (badRequest "invalid receiver address"), s)
  else
    match fromHex req.publicKeyHex with
    | none => (.error (badRequest "invalid public_key_hex"), s)
    | some publicKey =>
      if publicKey.length ≠ 32 then (.error (badRequest "public_key must be 32 bytes"), s)
      else
        match fromHex req.signatureHex with
        | none => (.error (badRequest "invalid signature_hex"), s)
        | some signature =>
          if signature.length ≠ 64 then (.error (badRequest "signature_hex must be 64 bytes"), s)
          else
            let tx : Transaction := {
              sender := req.sender
              receiver := req.receiver
              amount := req.amount
              fee := req.fee
              nonce := req.nonce
              publicKey := publicKey
              signature := signature }
            if !core.verify tx then (.error (badRequest "invalid signature"), s)
            else if !s.node.chain.validateTransactionState tx then
              (.error (badRequest "transaction not valid (balance or fee)"), s)
            else
              let alreadyPending := s.mempool.pendingDebit tx.sender
              if s.node.chain.getBalance tx.sender - alreadyPending < costOf tx then
                (.error (badRequest "transaction not valid (balance or fee)"), s)
              else
                match s.mempool.addTransaction core tx s.node.chain.getHeight with
                | (false, pool) =>
                  (.error (serviceUnavailable "mempool full"), { s with mempool := pool })
                | (true, pool) =>
                  (.ok ⟨hexEncode (core.txid tx), tx.sender, tx.receiver, tx.amount, tx.fee⟩,
                    { s with
                      mempool := pool
                      gossip := (s.gossip.publishTransaction core tx).2 })

/-! ### The start of the pool -/

/-- The pool at the start of a node: what was stored, without what is confirmed or has expired. -/
def startMempool (c : Blockchain) (table : OrderedTable Bytes (Transaction × ℕ)) : Mempool :=
  (Mempool.new (some table)).restore <| table.values.filter fun stored =>
    !decide (stored.1.signature ∈ c.confirmedSignatures) &&
      !decide (txExpiryBlocks < c.getHeight - stored.2)

/-- A node that starts with a fresh database. -/
def fresh (env : Option ℚ) (pot : ℕ) (genesis : Block) : AppState where
  node := Node.fresh env pot genesis
  mempool := startMempool (Node.freshChain env pot genesis) OrderedTable.empty
  gossip := Gossip.new

end AppState

end Lootcoin
