import Lootcoin.Chain.Pool
import Lootcoin.Node.Window

/-! The orphan pool of a node.  Every block that is applied finds the pool within its bounds and
leaves it there, whatever the block and the outcome. -/

namespace Lootcoin

namespace Blockchain

/-- A block that is applied in memory, with the blocks that the call can read. -/
structure Call extends Node.Delivery where
  db : Option BlockReader

/-- The call returns. -/
def Returns (core : Core) (c : Blockchain) (call : Call) (c' : Blockchain) : Prop :=
  ∃ outcome, c.applyInMemory core call.ambient call.block call.db = .ok (outcome, c')

end Blockchain

namespace Node

variable {core : Core} {env : Option ℚ} {genesis : Block} {n n' : Node}

theorem poolBounded_of_applyBlock {ambient : Ambient} {b : Block} {outcome : BlockOutcome}
    (hn : Blockchain.PoolBounded core n.chain.orphanPool)
    (h : n.applyBlock core ambient b = .ok (outcome, n')) :
    Blockchain.PoolBounded core n'.chain.orphanPool := by
  obtain ⟨chain, happ, hpersist⟩ := applyBlock_eq_ok.mp h
  have hchain := hn.applyInMemory happ
  rcases hpersist with ⟨-, last, -, rfl⟩ | ⟨old, new, -, rfl⟩ | ⟨-, rfl⟩
  · obtain ⟨payouts, heq⟩ := persistApplied_chain core ⟨chain, n.db⟩ last
    rw [heq, Blockchain.pruneToWindow_orphanPool]
    exact hchain
  · obtain ⟨payouts, heq⟩ := persistReorged_chain core ⟨chain, n.db⟩ old new
    rw [heq, Blockchain.pruneToWindow_orphanPool]
    exact hchain
  · exact hchain

theorem poolBounded_of_operates {s s' : Watched} {op : Operation}
    (hs : Blockchain.PoolBounded core s.node.chain.orphanPool) (h : Operates core s op s') :
    Blockchain.PoolBounded core s'.node.chain.orphanPool := by
  cases h with
  | seedPot amount => exact hs
  | applyBlock happ => exact poolBounded_of_applyBlock hs happ
  | restoreFromCheckpoint _ => exact Blockchain.poolBounded_empty

/-- After any sequence of calls, in any state that the operations lead to, the orphan pool holds no
more blocks than it may, in all and at every height, each under its own hash. -/
theorem poolBounded_of_run {ops : List Operation} {s : Watched}
    (run : Runs.Run (Operates core) (constructed env genesis) ops s)
    {calls : List Blockchain.Call} {c : Blockchain}
    (run' : Runs.Run (Blockchain.Returns core) s.node.chain calls c) :
    HashTable.size c.orphanPool ≤ maxOrphanPoolSize ∧
    (∀ index, Blockchain.countAtHeight c.orphanPool index ≤ maxOrphansPerHeight) ∧
    ∀ h b, c.orphanPool.lookup h = some b →
      b.hash = h ∧ core.calculateHash b.toHeader = some h := by
  have hs : Blockchain.PoolBounded core s.node.chain.orphanPool :=
    run.invariant (P := fun s => Blockchain.PoolBounded core s.node.chain.orphanPool)
      (fun hop hs => poolBounded_of_operates hs hop) Blockchain.poolBounded_empty
  have hc : Blockchain.PoolBounded core c.orphanPool := by
    refine run'.invariant (P := fun c => Blockchain.PoolBounded core c.orphanPool) ?_ hs
    rintro d call d' ⟨outcome, happ⟩ hd
    exact hd.applyInMemory happ
  exact ⟨hc.size_le, hc.capped, hc.hashed⟩

end Node

namespace Sample

/-- A rival of the main block with less work. -/
def weakRival (zeroBits : ℕ) : Block := block 1 [] 1748000059 zeroBits

/-- The chain after a call. -/
def callAt (c : Blockchain) (call : Blockchain.Call) : Option Blockchain :=
  (c.applyInMemory plainCore call.ambient call.block call.db).toOption.map fun r => r.2

theorem returns {c c' : Blockchain} {call : Blockchain.Call} (h : callAt c call = some c') :
    Blockchain.Returns plainCore c call c' := by
  obtain ⟨⟨outcome, d⟩, happ, rfl⟩ := Option.map_eq_some_iff.mp h
  exact ⟨outcome, Fallible.toOption_eq_some.mp happ⟩

/-- Four rivals of the main block. -/
def fourRivals : List Blockchain.Call :=
  [26, 27, 28, 29].map fun zeroBits => ⟨⟨weakRival zeroBits, around 1748000160⟩, none⟩

/-- The fourth rival at a height evicts another. -/
theorem fourRivals_poolBounded : ∃ s c,
    Runs.Run (Blockchain.Returns plainCore) s fourRivals c ∧
    c.orphanPool.lookup (weakRival 29).hash = some (weakRival 29) ∧
    Blockchain.countAtHeight c.orphanPool 1 = 3 ∧
    HashTable.size c.orphanPool ≤ maxOrphanPoolSize ∧
    (∀ index, Blockchain.countAtHeight c.orphanPool index ≤ maxOrphansPerHeight) ∧
    ∀ h b, c.orphanPool.lookup h = some b →
      b.hash = h ∧ plainCore.calculateHash b.toHeader = some h := by
  have hrun : ((restoreOperations.take 2).foldlM operate (Node.constructed none genesis)).bind
      (fun s => (fourRivals.foldlM callAt s.node.chain).map fun c =>
        (c.orphanPool.lookup (weakRival 29).hash, Blockchain.countAtHeight c.orphanPool 1)) =
      some (some (weakRival 29), 3) := by
    decide +kernel
  obtain ⟨s, hs, hcalls⟩ := Option.bind_eq_some_iff.mp hrun
  obtain ⟨c, hc, hobs⟩ := Option.map_eq_some_iff.mp hcalls
  have hreturns := Runs.run_of_foldlM returns hc
  exact ⟨s.node.chain, c, hreturns, congrArg Prod.fst hobs, congrArg Prod.snd hobs,
    Node.poolBounded_of_run (Runs.run_of_foldlM operates hs) hreturns⟩

end Sample

end Lootcoin
