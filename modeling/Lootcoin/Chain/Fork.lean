import Mathlib.Data.List.MinMax
import Lootcoin.Chain.Update

/-! The choice of a fork: which orphans a node admits, and which chain of orphans beats the main
chain above the block that it attaches to. -/

namespace Lootcoin

/-- The reads of stored blocks that the choice of a fork and a reorganization make: the blocks
from an index on, at most so many. A failed read is `none`. -/
abbrev BlockReader : Type := ℕ → ℕ → Option (List Block)

/-- The order in which a table of orphans is iterated: some order of its entries. -/
structure PoolOrder where
  entries : HashTable Bytes Block → List (Bytes × Block)
  perm : ∀ t, (entries t).Perm (t.entries.map fun e => (e.1, e.2))

/-- The order of insertion. -/
def PoolOrder.default : PoolOrder := ⟨fun t => t.entries.map fun e => (e.1, e.2), fun _ => .rfl⟩

theorem PoolOrder.mem_entries (order : PoolOrder) {t : HashTable Bytes Block} {h : Bytes}
    {b : Block} : (h, b) ∈ order.entries t ↔ t.lookup h = some b := by
  rw [(order.perm t).mem_iff, List.mem_map, ← HashTable.mem_entries (e := ⟨h, b⟩)]
  exact ⟨fun ⟨_, he, heq⟩ => by cases heq; exact he, fun he => ⟨_, he, rfl⟩⟩

/-- The leading zero bits of a byte other than zero. -/
def byteLeadingZeros (b : Byte) : ℕ := 7 - Nat.log2 b.val

def leadingZeroBits : Bytes → ℕ
  | [] => 0
  | b :: bs => if b = 0 then 8 + leadingZeroBits bs else byteLeadingZeros b

/-- The work that a hash shows: `2` to the number of its leading zero bits. -/
def blockWork (hash : Bytes) : ℕ := Word.shiftOne 128 (leadingZeroBits hash)

/-- The work of a list of blocks, saturating. -/
def chainSegmentWork (blocks : List Block) : ℕ :=
  Word.saturatingSum 128 (blocks.map fun b => blockWork b.hash)

namespace Blockchain

/-- The timestamp of the block with a hash, in the window or in the orphan pool. -/
def findBlockTimestamp (c : Blockchain) (hash : Bytes) : Option ℕ :=
  let inWindow := (c.blockHashes.lookup hash).bind fun index =>
    if c.blocksOffset ≤ index then c.blocks[index - c.blocksOffset]? else none
  (inWindow <|> c.orphanPool.lookup hash).map fun b => b.timestamp

/-- The difficulty that a block should meet after its predecessor, by the index that it claims. -/
def expectedDifficultyFor (c : Blockchain) (b : Block) : ℚ :=
  match c.asertAnchor with
  | none => c.currentDifficulty
  | some anchor =>
    if anchor.difficulty < minDifficulty then c.currentDifficulty
    else
      match c.findBlockTimestamp b.previousHash with
      | none => c.currentDifficulty
      | some prevTimestamp =>
        let prevIndex := b.index - 1
        if prevIndex < anchor.height then c.currentDifficulty
        else asertTarget anchor prevIndex prevTimestamp

/-- The checks on a block that does not extend the tip. -/
def validateBlockStandalone (core : Core) (c : Blockchain) (b : Block) : Bool :=
  core.calculateHash b.toHeader == some b.hash &&
  core.meetsDifficulty b.hash (c.expectedDifficultyFor b) &&
  decide (b.index ≤ c.getHeight + maxOrphanDepth) &&
  decide (nonCoinbaseCount b ≤ maxBlockTxs)

/-- Puts before `chain` the pooled ancestors that `prevHash` leads to. The walk finds `fuel` of
them at most, and fails when there are more. -/
def traceBack (pool : HashTable Bytes Block) :
    ℕ → Bytes → List Block → Except Fault (List Block)
  | fuel, prevHash, chain =>
    match pool.lookup prevHash with
    | none => .ok chain
    | some b =>
      match fuel with
      | 0 => .error .divergence
      | fuel + 1 => traceBack pool fuel b.previousHash (b :: chain)

/-- The chain of orphans that ends in `tip`. A walk over more blocks than the pool holds repeats
one and does not end. -/
def traceForkChain (c : Blockchain) (tip : Block) : Except Fault (List Block) :=
  traceBack c.orphanPool (HashTable.size c.orphanPool) tip.previousHash [tip]

/-- The index of the canonical block that a fork attaches to: a block of the window, or else the
stored block at the index before the fork's first. -/
def ancestorIndex (c : Blockchain) (db : Option BlockReader) (first : Block) : Option ℕ :=
  match c.blockHashes.lookup first.previousHash with
  | some index => some index
  | none =>
    if first.index = 0 then none
    else if c.blocksOffset ≤ first.index - 1 then none
    else
      match (db.bind fun read => read (first.index - 1) 1).bind List.head? with
      | none => none
      | some parent => if parent.hash = first.previousHash then some (first.index - 1) else none

/-- The work of the main chain above an ancestor. It is unknown below the window without a
database, and nothing is read as no work. -/
def mainWork (c : Blockchain) (db : Option BlockReader) (ancestor : ℕ) : Option ℕ :=
  if c.blocksOffset ≤ ancestor then
    some (chainSegmentWork (c.blocks.filter fun b => ancestor < b.index))
  else
    db.map fun read =>
      let stored := (read (ancestor + 1) (c.blocksOffset - (ancestor + 1))).getD []
      Word.saturatingAdd 128 (chainSegmentWork stored) (chainSegmentWork c.blocks)

/-- The chains of orphans that the search compares: one for each orphan that no orphan names as
its predecessor. -/
structure Candidate where
  chain : List Block
  ancestor : ℕ
  work : ℕ

/-- The candidate that ends in `tip`, if it attaches to the canonical chain and beats it. -/
def forkCandidate (c : Blockchain) (db : Option BlockReader) (tip : Block) :
    Except Fault (Option Candidate) := do
  let forkChain ← c.traceForkChain tip
  match forkChain.head?.bind (c.ancestorIndex db) with
  | none => return none
  | some ancestor =>
    let forkWork := chainSegmentWork forkChain
    match c.mainWork db ancestor with
    | none => return none
    | some work => return if work < forkWork then some ⟨forkChain, ancestor, forkWork⟩ else none

/-- The better of the best candidate so far and a later one. -/
def betterCandidate (best : Option Candidate) (candidate : Option Candidate) : Option Candidate :=
  match best, candidate with
  | best, none => best
  | none, some k => some k
  | some best, some k => if best.work < k.work then some k else some best

/-- The orphans that no orphan names as its predecessor, in the order of the pool. -/
def poolTips (order : PoolOrder) (pool : HashTable Bytes Block) : List Block :=
  let referenced := (HashTable.values pool).map fun b => b.previousHash
  ((order.entries pool).filter fun e => e.1 ∉ referenced).map fun e => e.2

/-- The chain of orphans with the most work among those that beat the main chain, with the index
of the block it attaches to. -/
def findLongestFork (order : PoolOrder) (c : Blockchain) (db : Option BlockReader) :
    Except Fault (Option (List Block × ℕ)) := do
  let best ← (poolTips order c.orphanPool).foldlM (fun best tip => do
    let candidate ← c.forkCandidate db tip
    return betterCandidate best candidate) none
  return best.map fun k => (k.chain, k.ancestor)

end Blockchain

end Lootcoin
