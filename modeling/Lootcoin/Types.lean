import Mathlib.Data.Rat.Floor
import Mathlib.Data.Finset.Insert
import Mathlib.Data.Fin.Basic
import Lootcoin.Library.HashTable

/-! The data that crosses the node: transactions, blocks, and lottery tickets, with the protocol
constants, and `Core`, the functions of the `lootcoin-core` and `cubehash` crates that the node
calls.  Numbers of type `u64` and `u128` are natural numbers, and the operations on them say where
they wrap or saturate.  A difficulty, which the node keeps as an `f64`, is an exact rational. -/

namespace Lootcoin

abbrev Byte : Type := Fin 256

/-- There are bytes, and zero is one of them. -/
instance neZero_byte : NeZero 256 := ⟨by decide⟩

abbrev Bytes : Type := List Byte

instance lawfulBEq_bytes : LawfulBEq Bytes := inferInstance

/-- The text form of an account's key, such as `loot1…`. -/
abbrev Address : Type := String

structure Transaction where
  sender : Address
  receiver : Address
  amount : ℕ
  fee : ℕ
  nonce : ℕ
  publicKey : Bytes
  signature : Bytes
  deriving DecidableEq

/-- An empty sender marks a coinbase. -/
def Transaction.isCoinbase (tx : Transaction) : Bool := tx.sender == ""

/-- The fields that a block's hash covers. -/
structure Header where
  index : ℕ
  previousHash : Bytes
  timestamp : ℕ
  nonce : ℕ
  txRoot : Bytes
  deriving DecidableEq

structure Block extends Header where
  transactions : List Transaction
  hash : Bytes
  deriving DecidableEq

/-- The numbers of a block fit in 64 bits, as the types of the source require. -/
structure Block.Fits (b : Block) : Prop where
  index : b.index < 2 ^ 64
  timestamp : b.timestamp < 2 ^ 64
  nonce : b.nonce < 2 ^ 64
  transactions : ∀ tx ∈ b.transactions, tx.amount < 2 ^ 64 ∧ tx.fee < 2 ^ 64 ∧ tx.nonce < 2 ^ 64

instance (b : Block) : Decidable b.Fits :=
  decidable_of_iff (b.index < 2 ^ 64 ∧ b.timestamp < 2 ^ 64 ∧ b.nonce < 2 ^ 64 ∧
      ∀ tx ∈ b.transactions, tx.amount < 2 ^ 64 ∧ tx.fee < 2 ^ 64 ∧ tx.nonce < 2 ^ 64)
    ⟨fun h => ⟨h.1, h.2.1, h.2.2.1, h.2.2.2⟩, fun h => ⟨h.1, h.2, h.3, h.4⟩⟩

/-! ### Signatures -/

/-- The signatures of the transfers in a list of transactions, in order. -/
def signaturesIn (txs : List Transaction) : List Bytes :=
  (txs.filter fun tx => !tx.isCoinbase).map fun tx => tx.signature

/-- The signatures of the transfers in a list of blocks, in order. -/
def signaturesOf (bs : List Block) : List Bytes := bs.flatMap fun b => signaturesIn b.transactions

@[simp] theorem signaturesIn_nil : signaturesIn [] = [] := rfl

theorem signaturesIn_coinbase {tx : Transaction} (h : tx.isCoinbase = true)
    (txs : List Transaction) : signaturesIn (tx :: txs) = signaturesIn txs := by
  simp [signaturesIn, h]

theorem signaturesIn_transfer {tx : Transaction} (h : tx.isCoinbase = false)
    (txs : List Transaction) : signaturesIn (tx :: txs) = tx.signature :: signaturesIn txs := by
  simp [signaturesIn, h]

theorem signaturesOf_append (bs bs' : List Block) :
    signaturesOf (bs ++ bs') = signaturesOf bs ++ signaturesOf bs' :=
  List.flatMap_append

/-! ### Tickets and payouts -/

/-- A ticket issued to the miner of a block that holds at least one transfer. -/
structure LootTicket where
  miner : Address
  createdHeight : ℕ
  deriving DecidableEq

inductive Tier where
  | none
  | small
  | medium
  | large
  | jackpot
  deriving DecidableEq

/-- A lottery payout of one block: who received it, how much, and at which tier. -/
structure Payout where
  receiver : Address
  amount : ℕ
  tier : Tier
  deriving DecidableEq

/-! ### Protocol constants of `lootcoin-core` -/

def minTxFee : ℕ := 2
def maxBlockTxs : ℕ := 240
def revealBlocks : ℕ := 100
def guaranteeAfter : ℕ := 120
def ppm : ℕ := 1000000
def smallBucketStart : ℕ := 620000
def mediumBucketStart : ℕ := 982500
def largeBucketStart : ℕ := 999200
def jackpotBucketStart : ℕ := 999900
def smallDivisor : ℕ := 400000
def mediumDivisor : ℕ := 30000
def largeDivisor : ℕ := 2000
def jackpotDivisor : ℕ := 500

/-! ### Constants of the node -/

def initialDifficulty : ℚ := 25
def minDifficulty : ℚ := 8
def maxDifficulty : ℚ := 127
def targetBlockTimeSecs : ℕ := 60
def asertHalflifeSecs : ℚ := 3600
def mtpWindow : ℕ := 11
def maxOrphanDepth : ℕ := 10
def maxOrphansPerHeight : ℕ := 3
def maxOrphanPoolSize : ℕ := maxOrphanDepth * maxOrphansPerHeight
def reorgWindow : ℕ := 100
def checkpointInterval : ℕ := 1000

/-- The assertion that the build checks: the window holds a whole reveal. -/
theorem revealBlocks_le_reorgWindow : revealBlocks ≤ reorgWindow := by decide

/-- A CubeHash-256 digest. -/
abbrev Digest : Type := { d : Bytes // d.length = 32 }

/-- What the node takes from `lootcoin-core` and `cubehash`: the hash of a header, the commitment
to a transaction list, signature checks and transaction identifiers, address decoding, the
proof-of-work test, and the CubeHash-256 digest. -/
structure Core where
  calculateHash : Header → Option Bytes
  computeTxRoot : List Transaction → Option Bytes
  verify : Transaction → Bool
  txid : Transaction → Bytes
  decodeAddress : Address → Option Bytes
  meetsDifficulty : Bytes → ℚ → Bool
  digest : Bytes → Digest

/-- The block hash is collision-free and never empty, as a 32-byte digest is. -/
structure Core.CollisionFree (core : Core) : Prop where
  injective : ∀ {h h' : Header} {d : Bytes}, core.calculateHash h = some d →
    core.calculateHash h' = some d → h = h'
  nonempty : ∀ {h : Header} {d : Bytes}, core.calculateHash h = some d → d ≠ []

/-! ### Encodings -/

/-- The `n` low bytes of a number, the lowest first. -/
def littleEndian : ℕ → ℕ → Bytes
  | 0, _ => []
  | n + 1, v => Fin.ofNat 256 v :: littleEndian n (v / 256)

/-- The number whose bytes are given, the lowest first. -/
def fromLittleEndian : Bytes → ℕ
  | [] => 0
  | b :: bs => b.val + 256 * fromLittleEndian bs

def bigEndian (n v : ℕ) : Bytes := (littleEndian n v).reverse

/-- The number whose bytes are given, the highest first. -/
def fromBigEndian (bs : Bytes) : ℕ := fromLittleEndian bs.reverse

/-- The UTF-8 bytes of a string. -/
def utf8 (s : String) : Bytes := s.toUTF8.toList.map fun b => Fin.ofNat 256 b.toNat

/-- A byte sequence as `bincode` writes it: its length in eight bytes and then the bytes. -/
def encodeBytes (bs : Bytes) : Bytes := littleEndian 8 bs.length ++ bs

end Lootcoin
