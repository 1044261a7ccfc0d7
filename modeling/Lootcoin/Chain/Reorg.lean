import Mathlib.Data.List.Lex
import Lootcoin.Chain.Fork

/-! Applying a block in memory: appending it, or keeping it as an orphan and switching to the fork
that then has the most work.  A reorganization resets the derived state and replays the new chain
from its first block. -/

namespace Lootcoin

/-- What a call reads from its surroundings: the clock, at its first reading, its second, and so
on, and the order in which the orphan pool is iterated. -/
structure Ambient where
  clock : ℕ → ℕ
  order : PoolOrder

/-- The readings of a clock after the first. -/
def laterReadings (clock : ℕ → ℕ) (k : ℕ) : ℕ := clock (k + 1)

inductive BlockOutcome where
  | applied
  | reorged (oldBlocks newBlocks : List Block)
  | orphaned
  | rejected
  deriving DecidableEq

namespace Blockchain

/-! ### Reorganizations -/

/-- The chain of one block, as a reorganization starts it. -/
def reset (c : Blockchain) (genesis : Block) : Blockchain :=
  { c with
    toDerivedState := genesisState c.initialDifficulty c.genesisPot genesis
    blocks := [genesis]
    blocksOffset := 0
    blockHashes := (∅ : HashTable Bytes ℕ).insert genesis.hash 0
    orphanPool := ∅
    settledPayoutsByBlock := ∅ }

/-- Appends blocks in order and stops before the first that is refused. -/
def replay (core : Core) : (ℕ → ℕ) → Blockchain → List Block → Except Fault Blockchain
  | _, c, [] => .ok c
  | clock, c, b :: bs => do
    match ← c.updateState core (clock 0) b with
    | none => return c
    | some c' => replay core (laterReadings clock) c' bs

/-- The new canonical chain from its first block on: what is stored below the blocks given, and
these. A failed read is `none`. -/
def withHistory (newCanonical : List Block) (db : Option BlockReader) :
    Except Fault (Option (List Block)) :=
  match newCanonical with
  | [] => .error .panic
  | first :: _ =>
    if 0 < first.index then
      match db with
      | none => .error .panic
      | some read => .ok ((read 0 first.index).map fun stored => stored ++ newCanonical)
    else .ok (some newCanonical)

/-- Resets all state and replays the new canonical chain. -/
def reorgTo (core : Core) (clock : ℕ → ℕ) (c : Blockchain) (newCanonical : List Block)
    (db : Option BlockReader) : Except Fault Blockchain := do
  match ← withHistory newCanonical db with
  | none => return c
  | some [] => throw .panic
  | some (genesis :: rest) => replay core clock (c.reset genesis) rest

/-! ### The orphan pool -/

/-- Makes room in a full pool: evicts the orphan of least index. -/
def evictFromFullPool (order : PoolOrder) (pool : HashTable Bytes Block) : HashTable Bytes Block :=
  if maxOrphanPoolSize ≤ HashTable.size pool then
    match (order.entries pool).argmin fun e => e.2.index with
    | none => pool
    | some e => pool.erase e.1
  else pool

/-- Makes room at a height that holds its limit: evicts the orphan of least hash there. -/
def evictAtHeight (order : PoolOrder) (pool : HashTable Bytes Block) (index : ℕ) :
    HashTable Bytes Block :=
  let atHeight := (order.entries pool).filter fun e => e.2.index = index
  if maxOrphansPerHeight ≤ atHeight.length then
    match atHeight.argmin fun e => e.2.hash with
    | none => pool
    | some e => pool.erase e.1
  else pool

/-- The chain with a block added to the orphan pool. -/
def admitOrphan (order : PoolOrder) (c : Blockchain) (b : Block) : Blockchain :=
  { c with
    orphanPool :=
      (evictAtHeight order (evictFromFullPool order c.orphanPool) b.index).insert b.hash b }

/-! ### Applying a block -/

/-- The blocks to make canonical for a fork, and those it displaces. A fork that attaches below
the window displaces no block of it by name. -/
def splice (c : Blockchain) (forkChain : List Block) (ancestor : ℕ) :
    Except Fault (List Block × List Block) :=
  if c.blocksOffset ≤ ancestor then
    let relative := ancestor - c.blocksOffset
    if relative < c.blocks.length then
      .ok (c.blocks.take (relative + 1) ++ forkChain, c.blocks.drop (relative + 1))
    else .error .panic
  else .ok (forkChain, [])

/-- Applies a block to the chain in memory. -/
def applyInMemory (core : Core) (ambient : Ambient) (c : Blockchain) (b : Block)
    (db : Option BlockReader) : Except Fault (BlockOutcome × Blockchain) := do
  match ← c.updateState core (ambient.clock 0) b with
  | some c' => return (.applied, c')
  | none =>
    if c.linksToTip b then return (.rejected, c)
    else if !c.validateBlockStandalone core b then return (.rejected, c)
    else
      let admitted := c.admitOrphan ambient.order b
      match ← admitted.findLongestFork ambient.order db with
      | none => return (.orphaned, admitted)
      | some (forkChain, ancestor) =>
        let (newCanonical, oldBlocks) ← admitted.splice forkChain ancestor
        let c' ← admitted.reorgTo core (laterReadings ambient.clock) newCanonical db
        return (.reorged oldBlocks forkChain, c')

/-! ### Complete replays -/

/-- Appends blocks in order, all of them or none. -/
def applyAll (core : Core) : (ℕ → ℕ) → Blockchain → List Block → Except Fault (Option Blockchain)
  | _, c, [] => .ok (some c)
  | clock, c, b :: bs => do
    match ← c.updateState core (clock 0) b with
    | none => return none
    | some c' => applyAll core (laterReadings clock) c' bs

/-- The chain in memory after an orphan is admitted, when the block becomes one. -/
def admits (core : Core) (ambient : Ambient) (c : Blockchain) (b : Block) : Option Blockchain :=
  match c.updateState core (ambient.clock 0) b with
  | .ok none =>
    if !c.linksToTip b && c.validateBlockStandalone core b then
      some (c.admitOrphan ambient.order b)
    else none
  | _ => none

/-- The fork that a block makes the node switch to, with the index of its ancestor. -/
def chosenFork (core : Core) (ambient : Ambient) (c : Blockchain) (b : Block)
    (db : Option BlockReader) : Option (List Block × ℕ) :=
  (c.admits core ambient b).bind fun admitted =>
    match admitted.findLongestFork ambient.order db with
    | .ok fork => fork
    | .error _ => none

/-- The canonical chain up to the block at `ancestor`, with what is stored below the window. -/
def chainUpTo (c : Blockchain) (db : Option BlockReader) (ancestor : ℕ) : Option (List Block) :=
  if c.blocksOffset ≤ ancestor then
    let window := c.blocks.take (ancestor - c.blocksOffset + 1)
    if 0 < c.blocksOffset then
      (db.bind fun read => read 0 c.blocksOffset).map fun stored => stored ++ window
    else some window
  else db.bind fun read => read 0 (ancestor + 1)

/-- The chain from `genesis` on accepts every block of `rest`, at the times of a rebuild. -/
def RebuildsFrom (core : Core) (ambient : Ambient) (c : Blockchain) (target : List Block) : Prop :=
  ∃ genesis rest c', target = genesis :: rest ∧
    applyAll core (laterReadings ambient.clock) (c.reset genesis) rest = .ok (some c')

/-- If the block makes the node switch to a fork, then the chain up to the ancestor can be read
and replays completely with the fork on it. -/
def ForkReplays (core : Core) (ambient : Ambient) (c : Blockchain) (b : Block)
    (db : Option BlockReader) : Prop :=
  ∀ forkChain ancestor, c.chosenFork core ambient b db = some (forkChain, ancestor) →
    ∃ stem, c.chainUpTo db ancestor = some stem ∧ c.RebuildsFrom core ambient (stem ++ forkChain)

instance (core : Core) (ambient : Ambient) (c : Blockchain) (target : List Block) :
    Decidable (c.RebuildsFrom core ambient target) :=
  match target with
  | [] => isFalse fun ⟨_, _, _, h, _⟩ => by cases h
  | genesis :: rest =>
    match h : applyAll core (laterReadings ambient.clock) (c.reset genesis) rest with
    | .ok (some c') => isTrue ⟨genesis, rest, c', rfl, h⟩
    | .ok none => isFalse fun ⟨_, _, _, heq, happ⟩ => by
      cases heq
      cases h.symm.trans happ
    | .error _ => isFalse fun ⟨_, _, _, heq, happ⟩ => by
      cases heq
      cases h.symm.trans happ

instance (core : Core) (ambient : Ambient) (c : Blockchain) (b : Block) (db : Option BlockReader) :
    Decidable (c.ForkReplays core ambient b db) :=
  match h : c.chosenFork core ambient b db with
  | none => isTrue fun _ _ hsome => by cases h.symm.trans hsome
  | some (fork, ancestor) =>
    match hstem : c.chainUpTo db ancestor with
    | none => isFalse fun hrep => by
      obtain ⟨stem, hsome, _⟩ := hrep fork ancestor h
      cases hstem.symm.trans hsome
    | some stem =>
      if hre : c.RebuildsFrom core ambient (stem ++ fork) then
        isTrue fun fork' ancestor' hsome => by
          cases h.symm.trans hsome
          exact ⟨stem, hstem, hre⟩
      else
        isFalse fun hrep => by
          obtain ⟨stem', hsome, hre'⟩ := hrep fork ancestor h
          cases hstem.symm.trans hsome
          exact hre hre'

end Blockchain

end Lootcoin
