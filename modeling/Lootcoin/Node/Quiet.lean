import Lootcoin.Node.View

/-! Forks left waiting in the pool.  The search for a fork runs only when an orphan is admitted, so
a block that is appended below a pooled orphan leaves a chain of orphans on the new tip that
nothing switches to.  Where no appended block is the predecessor of an orphan and every chosen
fork replays completely, the search finds nothing after every call. -/

namespace Lootcoin

namespace Blockchain

variable {core : Core} {c c' : Blockchain} {b : Block} {db : Option BlockReader}

/-- The search for a fork finds nothing, in whatever order the pool is iterated. -/
def Settled (c : Blockchain) (db : Option BlockReader) : Prop :=
  ∀ order, findLongestFork order c db = .ok none

/-- No orphan names the block as its predecessor. -/
def NoChildPooled (c : Blockchain) (b : Block) : Prop :=
  ∀ x ∈ HashTable.values c.orphanPool, x.previousHash ≠ b.hash

instance (c : Blockchain) (b : Block) : Decidable (c.NoChildPooled b) := by
  unfold NoChildPooled
  infer_instance

theorem settled_iff : c.Settled db ↔ ∀ h tip, c.orphanPool.lookup h = some tip →
    (∀ k x, c.orphanPool.lookup k = some x → x.previousHash ≠ h) →
      c.forkCandidate db tip = .ok none := by
  constructor
  · intro hs h tip htip hlast
    exact findLongestFork_eq_none.mp (hs .default) tip (mem_poolTips.mpr ⟨h, htip, hlast⟩)
  · intro hall order
    apply findLongestFork_eq_none.mpr
    intro tip htip
    obtain ⟨h, htip, hlast⟩ := mem_poolTips.mp htip
    exact hall h tip htip hlast

theorem settled_of_findLongestFork {order : PoolOrder}
    (h : findLongestFork order c db = .ok none) : c.Settled db := by
  apply settled_iff.mpr
  intro k tip htip hlast
  exact findLongestFork_eq_none.mp h tip (mem_poolTips.mpr ⟨k, htip, hlast⟩)

theorem settled_of_empty (h : c.orphanPool = ∅) : c.Settled db := by
  apply settled_iff.mpr
  intro k tip htip
  rw [h] at htip
  simp at htip

/-- The first block of a traced chain is in the pool. -/
theorem lookup_first {h : Bytes} {tip first : Block} {chain : List Block}
    (htip : c.orphanPool.lookup h = some tip) (htrace : c.traceForkChain tip = .ok chain)
    (hfirst : chain.head? = some first) : ∃ k, c.orphanPool.lookup k = some first := by
  obtain ⟨path, hpath, -, rfl⟩ := traceForkChain_eq_ok.mp htrace
  exact (PoolPath.step htip hpath).mem (List.mem_of_mem_head? (Option.mem_def.mpr hfirst))

/-- Chains with the same pool trace the same chains of orphans. -/
theorem traceForkChain_congr {d : Blockchain} (h : d.orphanPool = c.orphanPool) (tip : Block) :
    d.traceForkChain tip = c.traceForkChain tip := by
  rw [traceForkChain, traceForkChain, h]

/-- What beats no candidate keeps doing so when no candidate attaches elsewhere and the work of the
main chain does not shrink. -/
theorem Settled.of_le {d : Blockchain} {db' : Option BlockReader} (hs : c.Settled db)
    (hpool : d.orphanPool = c.orphanPool)
    (h : ∀ k first a, c.orphanPool.lookup k = some first → d.ancestorIndex db' first = some a →
      c.ancestorIndex db first = some a ∧ ∀ work', d.mainWork db' a = some work' →
        ∃ work, c.mainWork db a = some work ∧ work ≤ work') : d.Settled db' := by
  apply settled_iff.mpr
  intro k tip htip hlast
  rw [hpool] at htip hlast
  obtain ⟨chain, htrace, hbeaten⟩ := forkCandidate_eq_none.mp (settled_iff.mp hs k tip htip hlast)
  refine forkCandidate_eq_none.mpr ⟨chain, (traceForkChain_congr hpool tip).trans htrace,
    fun a ha work' hwork' => ?_⟩
  obtain ⟨first, hfirst, ha⟩ := Option.bind_eq_some_iff.mp ha
  obtain ⟨kf, hkf⟩ := lookup_first htip htrace hfirst
  obtain ⟨hanc, hgrows⟩ := h kf first a hkf ha
  obtain ⟨work, hwork, hle⟩ := hgrows work' hwork'
  exact (hbeaten a (by rw [hfirst]; exact hanc) work hwork).trans hle

/-- An append adds to the work of the main chain above every ancestor. -/
theorem Appended.mainWork_le (ha : Appended core c b c') {a work' : ℕ}
    (h : c'.mainWork db a = some work') : ∃ work, c.mainWork db a = some work ∧ work ≤ work' := by
  unfold mainWork at h ⊢
  rw [ha.blocksOffset, ha.blocks] at h
  split at h
  · rename_i ho
    rw [if_pos ho]
    rw [List.filter_append, chainSegmentWork, List.map_append, Option.some.injEq] at h
    exact ⟨_, rfl, h ▸ Word.saturatingSum_le_append 128 _ _⟩
  · rename_i ho
    rw [if_neg ho]
    cases db with
    | none => simp at h
    | some read =>
      rw [Option.map_some, Option.some.injEq] at h
      refine ⟨_, rfl, h ▸ ?_⟩
      have hle : chainSegmentWork c.blocks ≤ chainSegmentWork (c.blocks ++ [b]) := by
        rw [chainSegmentWork, chainSegmentWork, List.map_append]
        exact Word.saturatingSum_le_append 128 _ _
      simp only [Word.saturatingAdd]
      omega

/-- An append above no orphan's predecessor attaches no orphan. -/
theorem Appended.ancestorIndex_of_ne (ha : Appended core c b c') {first : Block}
    (hne : first.previousHash ≠ b.hash) :
    c'.ancestorIndex db first = c.ancestorIndex db first := by
  unfold ancestorIndex
  rw [ha.blockHashes, AList.lookup_insert_ne hne, ha.blocksOffset]

theorem Appended.settled (ha : Appended core c b c') (hs : c.Settled db)
    (hno : c.NoChildPooled b) : c'.Settled db := by
  apply hs.of_le ha.orphanPool
  intro k first a hfirst hanc
  have hne := hno first (HashTable.mem_values.mpr ⟨k, hfirst⟩)
  exact ⟨(ha.ancestorIndex_of_ne hne).symm.trans hanc, fun work' hwork' => ha.mainWork_le hwork'⟩

end Blockchain

/-- Two views of a whole chain, of which the second has the shorter window, leave the same orphans
waiting. -/
theorem Views.settled {core : Core} {full full' c c' : Blockchain} {db db' : Db}
    (h : Views core full c db) (h' : Views core full' c' db') (hcore : core.CollisionFree)
    (hblocks : full'.blocks = full.blocks) (hoffset : c.blocksOffset ≤ c'.blocksOffset)
    (hpool : c'.orphanPool = c.orphanPool) (hs : c.Settled (some db.reader)) :
    c'.Settled (some db'.reader) := by
  apply hs.of_le hpool
  intro k first a _ hanc
  obtain ⟨x, hx, hxh, hwhere⟩ := (h'.ancestorIndex_eq_some hcore).mp hanc
  rw [hblocks] at hx
  refine ⟨(h.ancestorIndex_eq_some hcore).mpr ⟨x, hx, hxh, hwhere.imp_left hoffset.trans⟩,
    fun work' hwork' => ⟨work', ?_, Nat.le_refl _⟩⟩
  rw [h.mainWork, ← hblocks, ← h'.mainWork, hwork']

namespace Node

variable {core : Core} {ambient : Ambient} {n n' : Node} {b : Block} {outcome : BlockOutcome}
  {env : Option ℚ} {pot : ℕ} {genesis : Block} {full : Blockchain}

/-- If the block is appended, then no orphan names it as its predecessor. -/
def AppendsAlone (core : Core) (ambient : Ambient) (c : Blockchain) (b : Block) : Prop :=
  c.acceptsBlock core (ambient.clock 0) b = true → c.NoChildPooled b

instance (core : Core) (ambient : Ambient) (c : Blockchain) (b : Block) :
    Decidable (AppendsAlone core ambient c b) := by
  unfold AppendsAlone
  infer_instance

/-- A call leaves no winning fork in the pool, unless it appends the predecessor of an orphan. -/
theorem settled_of_applyInMemory (hn : Sound core n) (hs : n.chain.Settled (some n.db.reader))
    (hno : AppendsAlone core ambient n.chain b) {c' : Blockchain}
    (h : n.chain.applyInMemory core ambient b (some n.db.reader) = .ok (outcome, c')) :
    c'.Settled (some n.db.reader) := by
  rcases Blockchain.applyInMemory_eq_ok.mp h with ⟨-, hup⟩ | ⟨-, rfl, -⟩ | ⟨-, -, hfind⟩ |
    ⟨old, fork, ancestor, new, -, hre⟩
  · have hacc := (Blockchain.updateState_eq_some.mp hup).1
    exact (Blockchain.appended_of_updateState hup).settled hs (hno hacc)
  · exact hs
  · exact Blockchain.settled_of_findLongestFork hfind
  · obtain ⟨-, g, rest, -, -, -, -, hreplay⟩ := hn.reorganizes hre
    obtain ⟨done, -, hgrow⟩ := Blockchain.replay_grows hreplay
    exact Blockchain.settled_of_empty hgrow.orphanPool

/-- A delivery whose fork replays completely and that appends no orphan's predecessor. -/
def DeliversAlone (core : Core) (n : Node) (d : Delivery) (n' : Node) : Prop :=
  n.Delivers core d n' ∧ n.chain.ForkReplays core d.ambient d.block (some n.db.reader) ∧
    AppendsAlone core d.ambient n.chain d.block

/-- The invariant of such runs: a settled node that tracks a whole chain. -/
structure Calm (core : Core) (env : Option ℚ) (pot : ℕ) (genesis : Block) (n : Node) : Prop where
  sound : Sound core n
  hashed : Hashed core n
  tracks : ∃ full, Tracks core env pot genesis n full
  settled : n.chain.Settled (some n.db.reader)

theorem Calm.step (hcore : core.CollisionFree) (hi : genesis.index = 0) (hh : genesis.hash = [])
    (hpot : pot < 2 ^ 64) (hn : Calm core env pot genesis n) {d : Delivery}
    (hstep : DeliversAlone core n d n') : Calm core env pot genesis n' := by
  obtain ⟨⟨hfits, outcome, happ⟩, hrep, hno⟩ := hstep
  have heff := effect_of_applyBlock happ
  have hsound' := hn.sound.step heff
  have hhashed' := hn.hashed.step hcore hn.sound heff
  obtain ⟨full, ht⟩ := hn.tracks
  have hview := ht.views hcore hi hh hn.sound hn.hashed
  cases heff with
  | @applied chain payouts hup hchain hblocks =>
    obtain ⟨full', hfull, hpruned, ht'⟩ := ht.applied hfits hup hchain hblocks
    have ha := Blockchain.appended_of_updateState hup
    have hview' := ht'.views hcore hi hh hsound' hhashed'
    refine ⟨hsound', hhashed', ⟨full', ht'⟩, ?_⟩
    have hmid : Views core full' chain n.db := {
      pruned := hpruned
      stored := fun i hlt => by
        have := ht.pruned.offset_lt
        rw [ha.blocksOffset] at hlt
        rw [hview.stored i hlt, hfull, List.getElem?_append_left (by omega)]
      index := hview'.index
      valid := hview'.valid
      window := hn.sound.window.append ha
      hashed := hn.hashed.window.append hcore hn.sound.window ha
      length_le := hview'.length_le }
    have hsettled := ha.settled hn.settled (hno (Blockchain.updateState_eq_some.mp hup).1)
    refine hmid.settled hview' hcore rfl ?_ ?_ hsettled
    · rw [hchain, Blockchain.pruneToWindow_blocksOffset]
      exact Nat.le_add_right _ _
    · rw [hchain, Blockchain.pruneToWindow_orphanPool]
  | rejected _ _ heq => exact heq ▸ hn
  | orphaned hadm hfind heq =>
    subst heq
    exact ⟨hsound', hhashed', ⟨full, ht.orphaned hfits (.orphaned hadm hfind rfl)⟩,
      Blockchain.settled_of_findLongestFork hfind⟩
  | @reorged old fork new ancestor chain payouts hre hchain hblocks =>
    obtain ⟨full', -, ht'⟩ := ht.reorged hn.sound hi hpot hfits hre hchain hblocks hrep
    obtain ⟨-, g, rest, -, -, -, -, hreplay⟩ := hn.sound.reorganizes hre
    obtain ⟨done, -, hgrow⟩ := Blockchain.replay_grows hreplay
    refine ⟨hsound', hhashed', ⟨full', ht'⟩, Blockchain.settled_of_empty ?_⟩
    rw [hchain, Blockchain.pruneToWindow_orphanPool]
    exact hgrow.orphanPool

/-- Where no delivery of a run appends the predecessor of an orphan and every chosen fork replays
completely, no winning fork waits in the pool after the run, nor after one more call that appends
no orphan's predecessor. -/
theorem settled_of_run (hcore : core.CollisionFree) (hi : genesis.index = 0)
    (hh : genesis.hash = []) (hpot : pot < 2 ^ 64) {ds : List Delivery}
    (run : Runs.Run (DeliversAlone core) (fresh env pot genesis) ds n) :
    n.chain.Settled (some n.db.reader) ∧
      ∀ ambient b outcome c', AppendsAlone core ambient n.chain b →
        n.chain.applyInMemory core ambient b (some n.db.reader) = .ok (outcome, c') →
        c'.Settled (some n.db.reader) := by
  have hcalm : Calm core env pot genesis n := by
    apply run.invariant (fun hstep hn => hn.step hcore hi hh hpot hstep)
    exact ⟨sound_fresh hi, hashed_fresh hi hh, ⟨_, tracks_fresh hi⟩,
      Blockchain.settled_of_empty rfl⟩
  exact ⟨hcalm.settled, fun ambient b outcome c' hno h =>
    settled_of_applyInMemory hcalm.sound hcalm.settled hno h⟩

end Node

namespace Sample

/-! A child that arrives before its parent stays in the pool when the parent is appended. -/

def earlyChild : Block := block 2 mainBlock.hash 1748000120 32

theorem earlyChild_waits : ∃ n c' ancestor,
    Runs.Run (Node.DeliversCompletely plainCore) node [⟨earlyChild, around 1748000160⟩] n ∧
    n.chain.applyInMemory plainCore (around 1748000160) mainBlock (some n.db.reader) =
      .ok (.applied, c') ∧
    Blockchain.findLongestFork .default c' (some n.db.reader) =
      .ok (some ([earlyChild], ancestor)) ∧
    ¬ c'.Settled (some n.db.reader) := by
  have hrun : (runCompletely node [⟨earlyChild, around 1748000160⟩]).map (fun n =>
      (n.chain.applyInMemory plainCore (around 1748000160) mainBlock
        (some n.db.reader)).toOption.map fun r => (r.1,
          (Blockchain.findLongestFork .default r.2 (some n.db.reader)).toOption.join.map
            fun fork => fork.1)) =
      some (some (.applied, some [earlyChild])) := by
    decide +kernel
  obtain ⟨n, hn, hobs⟩ := Option.map_eq_some_iff.mp hrun
  obtain ⟨⟨outcome, c'⟩, happ, hobs⟩ := Fallible.exists_of_toOption_map hobs
  simp only [Prod.mk.injEq] at hobs
  obtain ⟨rfl, hfind⟩ := hobs
  obtain ⟨⟨fork, ancestor⟩, hjoin, rfl⟩ := Option.map_eq_some_iff.mp hfind
  have hfound := Fallible.toOption_eq_some.mp (Option.join_eq_some_iff.mp hjoin)
  refine ⟨n, c', ancestor, run_of_runCompletely hn, happ, hfound, fun hs => ?_⟩
  cases hfound.symm.trans (hs .default)

/-- A block, a rival that displaces it, and a child of the rival, none of which comes before its
parent. -/
theorem rival_settled : ∃ n : Node, n.canonicalChain = [genesis, rivalBlock, rivalChild] ∧
    n.chain.Settled (some n.db.reader) ∧
    ∀ ambient b outcome c', Node.AppendsAlone plainCore ambient n.chain b →
      n.chain.applyInMemory plainCore ambient b (some n.db.reader) = .ok (outcome, c') →
      c'.Settled (some n.db.reader) := by
  have hrun : (runChecked plainCore (fun n d =>
      n.chain.ForkReplays plainCore d.ambient d.block (some n.db.reader) ∧
        Node.AppendsAlone plainCore d.ambient n.chain d.block) node rivalDeliveries).map
          Node.canonicalChain = some [genesis, rivalBlock, rivalChild] := by
    decide +kernel
  obtain ⟨n, hn, hchain⟩ := Option.map_eq_some_iff.mp hrun
  have hrun' : Runs.Run (Node.DeliversAlone plainCore)
      (Node.fresh none Node.genesisPotAmount genesis) rivalDeliveries n := run_of_runChecked hn
  exact ⟨n, hchain, Node.settled_of_run plainCore_collisionFree rfl rfl (by decide) hrun'⟩

end Sample

end Lootcoin
