import Mathlib.Data.Finset.Card
import Lootcoin.Types

/-! What a node tells others: the events that it sends to its subscribers and the blocks that it
pushes to its peers, each block and each transaction once as long as its key is remembered. -/

namespace Lootcoin

def maxSeen : ℕ := 10000

/-- Keys that were seen, oldest first. When the cache is full, the oldest leaves for a new one. -/
structure SeenCache where
  set : Finset Bytes
  order : List Bytes
  capacity : ℕ

namespace SeenCache

def new (capacity : ℕ) : SeenCache := ⟨∅, [], capacity⟩

def evictOldest (cache : SeenCache) : SeenCache :=
  match cache.order with
  | [] => cache
  | oldest :: rest => { cache with set := cache.set.erase oldest, order := rest }

/-- Remembers a key. The result is `false` where the key is known. -/
def insert (cache : SeenCache) (key : Bytes) : Bool × SeenCache :=
  if key ∈ cache.set then (false, cache)
  else
    let room := if cache.capacity ≤ cache.set.card then cache.evictOldest else cache
    (true, { room with set := Insert.insert key room.set, order := room.order ++ [key] })

end SeenCache

inductive NodeEvent where
  | block (b : Block)
  | transaction (tx : Transaction)
  deriving DecidableEq

/-- `events` and `pushed` hold what was sent so far, in order. -/
structure Gossip where
  seenBlocks : SeenCache
  seenTxs : SeenCache
  events : List NodeEvent
  pushed : List Block

namespace Gossip

def new : Gossip := ⟨.new maxSeen, .new maxSeen, [], []⟩

/-- Sends a block to the subscribers unless it was seen. -/
def publishBlock (g : Gossip) (b : Block) : Bool × Gossip :=
  match g.seenBlocks.insert b.hash with
  | (false, seen) => (false, { g with seenBlocks := seen })
  | (true, seen) => (true, { g with seenBlocks := seen, events := g.events ++ [.block b] })

def pushBlockToPeers (g : Gossip) (b : Block) : Gossip := { g with pushed := g.pushed ++ [b] }

/-- Publishes a block, and pushes it to the peers where it is new. -/
def announce (g : Gossip) (b : Block) : Gossip :=
  match g.publishBlock b with
  | (true, g') => g'.pushBlockToPeers b
  | (false, g') => g'

/-- Sends a transaction to the subscribers unless it was seen. -/
def publishTransaction (core : Core) (g : Gossip) (tx : Transaction) : Bool × Gossip :=
  match g.seenTxs.insert (core.txid tx) with
  | (false, seen) => (false, { g with seenTxs := seen })
  | (true, seen) => (true, { g with seenTxs := seen, events := g.events ++ [.transaction tx] })

end Gossip

end Lootcoin
