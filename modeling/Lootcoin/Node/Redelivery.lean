import Lootcoin.Node.Orphans
import Lootcoin.Node.Quiet

/-! Blocks that are delivered again.  Nothing asks whether a block is known, so one that does not
extend the tip goes through the checks of an orphan, the caps of the pool, and the search for a fork
once more.  The delivery changes nothing exactly when it is refused before the pool, or finds its
block there, with the other orphans spared and no fork waiting. -/

namespace Lootcoin

namespace Blockchain

variable {core : Core} {ambient : Ambient} {c c' : Blockchain} {b : Block}
  {db : Option BlockReader}

/-- Two chains have the same blocks, the same derived state, and the same orphans. -/
structure SameChain (c c' : Blockchain) : Prop where
  blocks : c'.blocks = c.blocks
  blocksOffset : c'.blocksOffset = c.blocksOffset
  derived : c'.toDerivedState = c.toDerivedState
  orphanPool : ∀ h, c'.orphanPool.lookup h = c.orphanPool.lookup h

/-- The application of a block neither appends it nor reorganizes the chain, and leaves the chain,
its state, and the orphans as they were. -/
def NoOp (core : Core) (ambient : Ambient) (c : Blockchain) (b : Block) (db : Option BlockReader) :
    Prop :=
  ∃ outcome c', c.applyInMemory core ambient b db = .ok (outcome, c') ∧
    (outcome = .rejected ∨ outcome = .orphaned) ∧ SameChain c c'

/-- The block is not appended, and either it is refused as an orphan, or it is pooled, the caps
spare the other orphans, and the pool holds no fork to switch to. -/
def Harmless (core : Core) (ambient : Ambient) (c : Blockchain) (b : Block)
    (db : Option BlockReader) : Prop :=
  c.acceptsBlock core (ambient.clock 0) b = false ∧
    (c.linksToTip b = true ∨ c.validateBlockStandalone core b = false ∨
      (c.orphanPool.lookup b.hash = some b ∧ SparesOthers ambient.order c.orphanPool b ∧
        c.Settled db))

/-- A pool of the same orphans is searched with the same result. -/
theorem settled_admitOrphan_iff {order : PoolOrder}
    (h : ∀ k, (c.admitOrphan order b).orphanPool.lookup k = c.orphanPool.lookup k) :
    (c.admitOrphan order b).Settled db ↔ c.Settled db := by
  simp only [settled_iff, forkCandidate_admitOrphan h, h]

/-- What an application does to a block that is not appended and not refused. -/
theorem noOp_iff_of_admits (hcap : PoolCapped c.orphanPool) (hkey : PoolKeyed c.orphanPool)
    (hadm : c.admits core ambient b = some (c.admitOrphan ambient.order b)) :
    NoOp core ambient c b db ↔ c.orphanPool.lookup b.hash = some b ∧
      SparesOthers ambient.order c.orphanPool b ∧ c.Settled db := by
  obtain ⟨hup, hlink, hval, -⟩ := admits_eq_some.mp hadm
  have hsame : (∀ h, (c.admitOrphan ambient.order b).orphanPool.lookup h =
      c.orphanPool.lookup h) ↔ c.orphanPool.lookup b.hash = some b ∧
        SparesOthers ambient.order c.orphanPool b := lookup_admitOrphan_iff hcap hkey
  constructor
  · rintro ⟨outcome, c', happ, hout, hc⟩
    rcases applyInMemory_eq_ok.mp happ with ⟨rfl, -⟩ | ⟨-, -, -, hcause⟩ | ⟨rfl, hadm', hfind⟩ |
      ⟨old, fork, ancestor, new, rfl, -⟩
    · rcases hout with h | h <;> cases h
    · rcases hcause with h | h
      · simp [hlink] at h
      · simp [hval] at h
    · obtain ⟨-, -, -, rfl⟩ := admits_eq_some.mp hadm'
      obtain ⟨hpooled, hspares⟩ := hsame.mp hc.orphanPool
      exact ⟨hpooled, hspares,
        (settled_admitOrphan_iff hc.orphanPool).mp (settled_of_findLongestFork hfind)⟩
    · rcases hout with h | h <;> cases h
  · rintro ⟨hpooled, hspares, hsettled⟩
    have hpool := hsame.mpr ⟨hpooled, hspares⟩
    have hfind := (settled_admitOrphan_iff hpool).mpr hsettled ambient.order
    exact ⟨.orphaned, _, applyInMemory_eq_ok.mpr (.inr (.inr (.inl ⟨rfl, hadm, hfind⟩))), .inr rfl,
      ⟨rfl, rfl, rfl, hpool⟩⟩

/-- The application of a block changes nothing exactly when it is harmless. -/
theorem noOp_iff (hcap : PoolCapped c.orphanPool) (hkey : PoolKeyed c.orphanPool) :
    NoOp core ambient c b db ↔ Harmless core ambient c b db := by
  cases hacc : c.acceptsBlock core (ambient.clock 0) b with
  | true =>
    refine iff_of_false ?_ fun h => Bool.noConfusion (hacc.symm.trans h.1)
    rintro ⟨outcome, c', happ, hout, -⟩
    have hup : c.updateState core (ambient.clock 0) b ≠ .ok none := by
      rw [Ne, updateState_eq_none, hacc]
      exact nofun
    rcases applyInMemory_eq_ok.mp happ with ⟨rfl, -⟩ | ⟨-, -, hno, -⟩ | ⟨-, hadm, -⟩ |
      ⟨old, fork, ancestor, new, rfl, -⟩
    · rcases hout with h | h <;> cases h
    · exact hup hno
    · exact hup (admits_eq_some.mp hadm).1
    · rcases hout with h | h <;> cases h
  | false =>
    have hup := updateState_eq_none.mpr hacc
    by_cases hrefused : c.linksToTip b = true ∨ c.validateBlockStandalone core b = false
    · refine iff_of_true ?_ ⟨hacc, hrefused.imp_right .inl⟩
      have happ : c.applyInMemory core ambient b db = .ok (.rejected, c) :=
        applyInMemory_eq_ok.mpr (.inr (.inl ⟨rfl, rfl, hup, hrefused⟩))
      exact ⟨.rejected, c, happ, .inl rfl, rfl, rfl, rfl, fun _ => rfl⟩
    · rw [not_or, Bool.not_eq_true, Bool.not_eq_false] at hrefused
      obtain ⟨hlink, hval⟩ := hrefused
      rw [noOp_iff_of_admits hcap hkey (admits_eq_some.mpr ⟨hup, hlink, hval, rfl⟩)]
      simp [Harmless, hacc, hlink, hval]

end Blockchain

namespace Node

variable {core : Core} {env : Option ℚ} {pot : ℕ} {genesis b : Block} {n n' : Node}
  {ambient : Ambient} {outcome : BlockOutcome}

/-- In every state that deliveries lead to, the application of a block, known or not, changes
nothing exactly when it is harmless. -/
theorem noOp_iff_of_run (hi : genesis.index = 0) {ds : List Delivery}
    (run : Runs.Run (Delivers core) (fresh env pot genesis) ds n) (ambient : Ambient) (b : Block) :
    n.chain.NoOp core ambient b (some n.db.reader) ↔
      n.chain.Harmless core ambient b (some n.db.reader) := by
  have hpool : Blockchain.PoolBounded core n.chain.orphanPool := by
    refine run.invariant (P := fun m => Blockchain.PoolBounded core m.chain.orphanPool) ?_
      Blockchain.poolBounded_empty
    rintro m d m' ⟨-, outcome, happ⟩ hm
    exact poolBounded_of_applyBlock hm happ
  have hkey : Blockchain.PoolKeyed n.chain.orphanPool := fun h x hx =>
    ((sound_of_run hi run).window.pool h x hx).1
  exact Blockchain.noOp_iff hpool.capped hkey

end Node

namespace Sample

/-- The main block and then some of its rivals. -/
def rivalsDelivered (zeroBits : List ℕ) : List Node.Delivery :=
  (mainBlock :: zeroBits.map weakRival).map fun b => ⟨b, around 1748000160⟩

theorem run_rivals {n : Node} {zeroBits : List ℕ}
    (h : runChecked plainCore (fun _ _ => True) node (rivalsDelivered zeroBits) = some n) :
    Runs.Run (Node.Delivers plainCore) (Node.fresh none Node.genesisPotAmount genesis)
      (rivalsDelivered zeroBits) n :=
  (run_of_runChecked h).mono fun hs => hs.1

/-- One rival in the pool can come again. -/
theorem weakRival_noOp : ∃ n : Node,
    n.chain.orphanPool.lookup (weakRival 26).hash = some (weakRival 26) ∧
    n.chain.NoOp plainCore (around 1748000160) (weakRival 26) (some n.db.reader) := by
  have hrun : (runChecked plainCore (fun _ _ => True) node (rivalsDelivered [26])).map (fun n =>
      (n.chain.acceptsBlock plainCore 1748000160 (weakRival 26),
        n.chain.orphanPool.lookup (weakRival 26).hash, HashTable.size n.chain.orphanPool,
        Blockchain.countAtHeight n.chain.orphanPool 1,
        (Blockchain.findLongestFork .default n.chain (some n.db.reader)).toOption.map
          Option.isNone)) = some (false, some (weakRival 26), 1, 1, some true) := by
    decide +kernel
  obtain ⟨n, hn, hobs⟩ := Option.map_eq_some_iff.mp hrun
  simp only [Prod.mk.injEq] at hobs
  obtain ⟨hacc, hpooled, hsize, hcount, hfind⟩ := hobs
  have hspares : Blockchain.SparesOthers PoolOrder.default n.chain.orphanPool (weakRival 26) := by
    refine ⟨fun hfull => ?_, fun _ hlimit => ?_⟩
    · rw [hsize] at hfull
      exact absurd hfull (by decide)
    · rw [show (weakRival 26).index = 1 from rfl, hcount] at hlimit
      exact absurd hlimit (by decide)
  obtain ⟨found, hfound, hnone⟩ := Fallible.exists_of_toOption_map hfind
  have hsettled : n.chain.Settled (some n.db.reader) :=
    Blockchain.settled_of_findLongestFork (Option.isNone_iff_eq_none.mp hnone ▸ hfound)
  exact ⟨n, hpooled, (Node.noOp_iff_of_run rfl (run_rivals hn) _ _).mpr
    ⟨hacc, .inr (.inr ⟨hpooled, hspares, hsettled⟩)⟩⟩

/-- With three rivals in the pool, the main block comes again: it evicts one of them. -/
theorem mainBlock_evicts_rival : ∃ n : Node,
    Runs.Run (Node.Delivers plainCore) (Node.fresh none Node.genesisPotAmount genesis)
      (rivalsDelivered [26, 27, 28]) n ∧
    mainBlock ∈ n.chain.blocks ∧
    n.chain.orphanPool.lookup (weakRival 28).hash = some (weakRival 28) ∧
    (∀ outcome c', n.chain.applyInMemory plainCore (around 1748000160) mainBlock
      (some n.db.reader) = .ok (outcome, c') →
        c'.orphanPool.lookup (weakRival 28).hash = none) ∧
    ¬ n.chain.NoOp plainCore (around 1748000160) mainBlock (some n.db.reader) := by
  have hrun : (runChecked plainCore (fun _ _ => True) node
      (rivalsDelivered [26, 27, 28])).map (fun n =>
        (decide (mainBlock ∈ n.chain.blocks), n.chain.orphanPool.lookup (weakRival 28).hash,
        (n.chain.applyInMemory plainCore (around 1748000160) mainBlock
          (some n.db.reader)).toOption.map fun r =>
            r.2.orphanPool.lookup (weakRival 28).hash)) =
      some (true, some (weakRival 28), some none) := by
    decide +kernel
  obtain ⟨n, hn, hobs⟩ := Option.map_eq_some_iff.mp hrun
  simp only [Prod.mk.injEq] at hobs
  obtain ⟨hmem, hpooled, hafter⟩ := hobs
  have hgone : ∀ outcome c', n.chain.applyInMemory plainCore (around 1748000160) mainBlock
      (some n.db.reader) = .ok (outcome, c') →
        c'.orphanPool.lookup (weakRival 28).hash = none := by
    intro outcome c' happ
    rw [happ] at hafter
    exact Option.some.inj hafter
  refine ⟨n, run_rivals hn, of_decide_eq_true hmem, hpooled, hgone, ?_⟩
  rintro ⟨outcome, c', happ, -, hsame⟩
  have := (hgone outcome c' happ).symm.trans (hsame.orphanPool _)
  rw [hpooled] at this
  cases this

end Sample

end Lootcoin
