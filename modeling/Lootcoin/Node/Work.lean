import Lootcoin.Node.AllOrNothing
import Lootcoin.Node.Canonical

/-! The two measures of work.  A fork is chosen by the leading zero bits that its hashes show, and
the chain work that a node announces adds up what the difficulties along the chain asked for.  A
reorganization raises the first measure above the ancestor.  The second is a function of the
canonical chain, and a reorganization may lower it. -/

namespace Lootcoin

namespace DerivedState

variable {s t : DerivedState} {b : Block}

/-- The work that each of the blocks is credited with when they follow a chain in order: `2` to the
integer part of the difficulty before it. -/
def targetWorks : DerivedState → List Block → List ℕ
  | _, [] => []
  | s, b :: bs => Word.shiftOne 128 ⌊s.currentDifficulty⌋.toNat :: targetWorks (s.adjustDifficulty b) bs

/-- The difficulty after a block depends on the difficulty and the anchor before it. -/
theorem adjustDifficulty_congr (hd : s.currentDifficulty = t.currentDifficulty)
    (ha : s.asertAnchor = t.asertAnchor) (b : Block) :
    (s.adjustDifficulty b).currentDifficulty = (t.adjustDifficulty b).currentDifficulty ∧
      (s.adjustDifficulty b).asertAnchor = (t.adjustDifficulty b).asertAnchor := by
  refine ⟨?_, by rw [adjustDifficulty_asertAnchor, adjustDifficulty_asertAnchor, hd, ha]⟩
  unfold adjustDifficulty
  rw [hd, ha]
  split
  · rfl
  · split
    · exact hd
    · split
      · exact hd
      · simp only
        split
        · rfl
        · exact hd

theorem targetWorks_congr (hd : s.currentDifficulty = t.currentDifficulty)
    (ha : s.asertAnchor = t.asertAnchor) (bs : List Block) :
    s.targetWorks bs = t.targetWorks bs := by
  induction bs generalizing s t with
  | nil => rfl
  | cons b bs ih =>
    obtain ⟨hd', ha'⟩ := adjustDifficulty_congr hd ha b
    rw [targetWorks, targetWorks, hd, ih hd' ha']

/-- An advance moves the difficulty and the anchor as the adjustment does. -/
theorem advance_difficulty {core : Core} {hashAt : ℕ → Option Bytes} {payouts : List Payout}
    (h : s.advance core hashAt b = .ok (t, payouts)) :
    t.currentDifficulty = (s.adjustDifficulty b).currentDifficulty ∧
      t.asertAnchor = (s.adjustDifficulty b).asertAnchor := by
  obtain ⟨paid, rfl, -, hdiff, hanchor, -⟩ := advance_paid h
  refine adjustDifficulty_congr ?_ ?_ b
  · simp [accumulateWork, issueTicket, hdiff]
  · simp [accumulateWork, issueTicket, hanchor]

end DerivedState

namespace Blockchain

variable {core : Core} {c c' full start : Blockchain} {b g : Block}

/-- The work that the difficulties along a chain from a genesis block on ask for, saturating. -/
def targetWork (c : Blockchain) : List Block → ℕ
  | [] => 0
  | g :: rest =>
    Word.saturatingSum 128 ((genesisState c.initialDifficulty c.genesisPot g).targetWorks rest)

/-- Every append credits the work of the difficulty before it. -/
theorem Grows.chainWork {bs : List Block} (h : Grows core c bs c') :
    c'.chainWork = (c.targetWorks bs).foldl (Word.saturatingAdd 128) c.chainWork := by
  induction h with
  | nil => rfl
  | @cons c d c' b bs hs _ ih =>
    obtain ⟨payouts, hadv⟩ := hs.appended.advance
    obtain ⟨hdiff, hanchor⟩ := DerivedState.advance_difficulty hadv
    rw [ih, DerivedState.targetWorks_congr hdiff hanchor, DerivedState.targetWorks, List.foldl_cons,
      DerivedState.advance_chainWork hadv]

/-- The chain of one block, without work and at its initial difficulty. -/
structure Origin (start : Blockchain) (g : Block) : Prop where
  blocks : start.blocks = [g]
  blocksOffset : start.blocksOffset = 0
  chainWork : start.chainWork = 0
  asertAnchor : start.asertAnchor = none
  currentDifficulty : start.currentDifficulty = start.initialDifficulty

theorem origin_reset (c : Blockchain) (g : Block) : Origin (c.reset g) g :=
  ⟨rfl, rfl, rfl, rfl, rfl⟩

/-- The window is the end of a chain that appends have grown from a genesis block. -/
def GrownAs (core : Core) (c : Blockchain) (chain : List Block) : Prop :=
  ∃ start g rest full, chain = g :: rest ∧ Origin start g ∧ Grows core start rest full ∧
    PrunedFrom full c

theorem GrownAs.blocks {chain : List Block} (h : GrownAs core c chain) :
    c.blocks = chain.drop c.blocksOffset := by
  obtain ⟨start, g, rest, full, rfl, ho, hgrow, hpruned⟩ := h
  rw [hpruned.blocks, hgrow.blocks, ho.blocks, List.singleton_append]

/-- The chain work is a function of the canonical chain. -/
theorem GrownAs.chainWork {chain : List Block} (h : GrownAs core c chain) :
    c.chainWork = c.targetWork chain := by
  obtain ⟨start, g, rest, full, rfl, ho, hgrow, hpruned⟩ := h
  have hinitial : start.currentDifficulty =
      (genesisState c.initialDifficulty c.genesisPot g).currentDifficulty := by
    rw [ho.currentDifficulty, ← hgrow.initialDifficulty, ← hpruned.initialDifficulty]
    rfl
  rw [hpruned.derived, hgrow.chainWork, ho.chainWork,
    DerivedState.targetWorks_congr hinitial ho.asertAnchor]
  rfl

theorem GrownAs.congr {d : Blockchain} {chain : List Block} (h : GrownAs core c chain)
    (hd : d.toDerivedState = c.toDerivedState) (hb : d.blocks = c.blocks)
    (ho : d.blocksOffset = c.blocksOffset) (hp : d.genesisPot = c.genesisPot)
    (hi : d.initialDifficulty = c.initialDifficulty) : GrownAs core d chain := by
  obtain ⟨start, g, rest, full, hchain, horigin, hgrow, hpruned⟩ := h
  exact ⟨start, g, rest, full, hchain, horigin, hgrow, hpruned.congr hd hb ho hp hi⟩

theorem GrownAs.prune {chain : List Block} (h : GrownAs core c chain) :
    GrownAs core c.pruneToWindow chain := by
  obtain ⟨start, g, rest, full, hchain, horigin, hgrow, hpruned⟩ := h
  exact ⟨start, g, rest, full, hchain, horigin, hgrow, hpruned.prune⟩

theorem GrownAs.append {chain : List Block} (h : GrownAs core c chain) {now : ℕ}
    (hup : c.updateState core now b = .ok (some c')) : GrownAs core c' (chain ++ [b]) := by
  obtain ⟨start, g, rest, full, rfl, horigin, hgrow, hpruned⟩ := h
  obtain ⟨full', hfull, hpruned'⟩ := hpruned.updateState hup
  exact ⟨start, g, rest ++ [b], full', rfl, horigin, hgrow.snoc ⟨now, hfull⟩, hpruned'⟩

/-- A replay grows the chain that it rebuilds. -/
theorem grownAs_replay {clock : ℕ → ℕ} {rest : List Block}
    (h : replay core clock (c.reset g) rest = .ok c') : GrownAs core c' c'.blocks := by
  obtain ⟨done, -, hgrow⟩ := replay_grows h
  have hblocks : c'.blocks = g :: done := hgrow.blocks
  refine ⟨c.reset g, g, done, c', hblocks, origin_reset c g, hgrow, .refl ?_ hgrow.blocksOffset⟩
  rw [hblocks]
  exact List.cons_ne_nil _ _

end Blockchain

namespace Node

variable {core : Core} {ambient : Ambient} {n n' : Node} {b : Block} {outcome : BlockOutcome}
  {env : Option ℚ} {pot : ℕ} {genesis : Block}

theorem Sound.grownAs_step (hn : Sound core n) (h : Effect core ambient n b n' outcome)
    (hg : ∃ chain, n.chain.GrownAs core chain) : ∃ chain, n'.chain.GrownAs core chain := by
  obtain ⟨chain, hg⟩ := hg
  cases h with
  | applied hup hchain _ =>
    refine ⟨chain ++ [b], ?_⟩
    rw [hchain]
    exact Blockchain.GrownAs.prune ((hg.append hup).congr rfl rfl rfl rfl rfl)
  | rejected _ _ heq => exact ⟨chain, heq ▸ hg⟩
  | orphaned _ _ heq => exact ⟨chain, heq ▸ hg.congr rfl rfl rfl rfl rfl⟩
  | @reorged old fork new ancestor c' payouts hre hchain _ =>
    obtain ⟨stem, g, rest, -, -, -, -, hreplay⟩ := hn.reorganizes hre
    refine ⟨c'.blocks, ?_⟩
    rw [hchain]
    exact Blockchain.GrownAs.prune
      ((Blockchain.grownAs_replay hreplay).congr rfl rfl rfl rfl rfl)

/-- The window of every node that deliveries lead to is the end of a grown chain. -/
theorem grownAs_of_run (hi : genesis.index = 0) {ds : List Delivery}
    (run : Runs.Run (Delivers core) (fresh env pot genesis) ds n) :
    ∃ chain, n.chain.GrownAs core chain := by
  have hstart : (fresh env pot genesis).chain.GrownAs core [genesis] :=
    ⟨freshChain env pot genesis, genesis, [], freshChain env pot genesis, rfl,
      ⟨rfl, rfl, rfl, rfl, rfl⟩, .nil _, .refl (List.cons_ne_nil _ _) rfl⟩
  refine (run.invariant (P := fun n => Sound core n ∧ ∃ chain, n.chain.GrownAs core chain) ?_
    ⟨sound_fresh hi, _, hstart⟩).2
  rintro n d n' ⟨-, outcome, happ⟩ ⟨hn, hg⟩
  have heff := effect_of_applyBlock happ
  exact ⟨hn.step heff, hn.grownAs_step heff hg⟩

theorem Tracks.grownAs {full : Blockchain} (ht : Tracks core env pot genesis n full) :
    n.chain.GrownAs core n.canonicalChain := by
  obtain ⟨rest, hrest, hgrow⟩ := ht.blocks
  exact ⟨freshChain env pot genesis, genesis, rest, full, ht.canonicalChain.trans hrest,
    ⟨rfl, rfl, rfl, rfl, rfl⟩, hgrow, ht.pruned⟩

/-- The window ends a grown chain, which is the canonical chain where all forks have replayed
completely. What is stored below the window may not be that of a chain where they have not. -/
theorem grownAs_canonicalChain (hi : genesis.index = 0) {ds : List Delivery}
    (run : Runs.Run (Delivers core) (fresh env pot genesis) ds n) :
    ∃ chain, n.chain.GrownAs core chain ∧
      (pot < 2 ^ 64 → Runs.Run (DeliversCompletely core) (fresh env pot genesis) ds n →
        chain = n.canonicalChain) := by
  by_cases hcomplete : pot < 2 ^ 64 ∧
      Runs.Run (DeliversCompletely core) (fresh env pot genesis) ds n
  · obtain ⟨-, full, ht⟩ := consistent_of_run hi hcomplete.1 hcomplete.2
    exact ⟨n.canonicalChain, ht.grownAs, fun _ _ => rfl⟩
  · obtain ⟨chain, hgrown⟩ := grownAs_of_run hi run
    exact ⟨chain, hgrown, fun hpot hrun => absurd ⟨hpot, hrun⟩ hcomplete⟩

/-- A reorganization whose fork replays completely raises the work that the hashes above the
ancestor show. The chain work before and after is what the difficulties along the old and the new
chain ask for. The old chain is the one that the window ends, and the canonical chain of the node
where all forks before have replayed completely. -/
theorem work_of_reorg (hi : genesis.index = 0) {ds : List Delivery}
    (run : Runs.Run (Delivers core) (fresh env pot genesis) ds n) {old fork : List Block}
    {c' : Blockchain} (h : n.chain.applyInMemory core ambient b (some n.db.reader) =
      .ok (.reorged old fork, c'))
    (hrep : n.chain.ForkReplays core ambient b (some n.db.reader)) :
    ∃ ancestor stem before work,
      n.chain.chosenFork core ambient b (some n.db.reader) = some (fork, ancestor) ∧
      n.chain.chainUpTo (some n.db.reader) ancestor = some stem ∧ c'.blocks = stem ++ fork ∧
      n.chain.mainWork (some n.db.reader) ancestor = some work ∧
      work < chainSegmentWork fork ∧
      n.chain.blocks = before.drop n.chain.blocksOffset ∧
      (pot < 2 ^ 64 → Runs.Run (DeliversCompletely core) (fresh env pot genesis) ds n →
        before = n.canonicalChain) ∧
      n.chain.getChainWork = n.chain.targetWork before ∧
      c'.getChainWork = n.chain.targetWork (stem ++ fork) := by
  obtain ⟨before, hbefore, hcanonical⟩ := grownAs_canonicalChain hi run
  have hn := sound_of_run hi run
  rcases Blockchain.applyInMemory_eq_ok.mp h with ⟨hout, -⟩ | ⟨hout, -⟩ | ⟨hout, -⟩ |
    ⟨old', fork', ancestor, new, hout, hre⟩
  · cases hout
  · cases hout
  · cases hout
  cases hout
  have hchosen := hre.chosenFork
  obtain ⟨stem, hstem, -, hblocks⟩ :=
    (hre.complete_iff hn.window.numbered).mpr (hrep fork ancestor hchosen)
  obtain ⟨-, -, -, -, -, -, -, -, -, work, hwork, hlt⟩ :=
    Blockchain.fork_of_findLongestFork hre.found
  obtain ⟨-, g, rest, -, -, -, -, hreplay⟩ := hn.reorganizes hre
  obtain ⟨done, -, hgrow⟩ := Blockchain.replay_grows hreplay
  refine ⟨ancestor, stem, before, work, hchosen, hstem, hblocks, hwork, hlt, hbefore.blocks,
    hcanonical, hbefore.chainWork, ?_⟩
  rw [Blockchain.getChainWork, (Blockchain.grownAs_replay hreplay).chainWork, hblocks]
  have hinitial : c'.initialDifficulty = n.chain.initialDifficulty := hgrow.initialDifficulty
  have hpot : c'.genesisPot = n.chain.genesisPot := hgrow.genesisPot
  unfold Blockchain.targetWork
  rw [hinitial, hpot]

end Node

namespace Sample

/-! One lucky block displaces two. -/

def luckyBlock : Block := block 1 [] 1748000061 40

def luckyDisplaced : List Block := [mainBlock, block 2 mainBlock.hash 1748000120 32]

def luckyDeliveries : List Node.Delivery := luckyDisplaced.map fun b => ⟨b, around 1748000160⟩

theorem luckyRun : ∃ n c', Runs.Run (Node.DeliversCompletely plainCore) node luckyDeliveries n ∧
    n.chain.applyInMemory plainCore (around 1748000160) luckyBlock (some n.db.reader) =
      .ok (.reorged luckyDisplaced [luckyBlock], c') ∧
    n.chain.ForkReplays plainCore (around 1748000160) luckyBlock (some n.db.reader) ∧
    n.chain.chainWork = 2 ^ 26 ∧ c'.chainWork = 2 ^ 25 := by
  have hrun : (runCompletely node luckyDeliveries).map (fun n =>
      (n.chain.chainWork,
        decide (n.chain.ForkReplays plainCore (around 1748000160) luckyBlock (some n.db.reader)),
        (n.chain.applyInMemory plainCore (around 1748000160) luckyBlock
          (some n.db.reader)).toOption.map fun r => (r.1, r.2.chainWork))) =
      some (2 ^ 26, true, some (.reorged luckyDisplaced [luckyBlock], 2 ^ 25)) := by
    decide +kernel
  obtain ⟨n, hn, hobs⟩ := Option.map_eq_some_iff.mp hrun
  simp only [Prod.mk.injEq, decide_eq_true_eq] at hobs
  obtain ⟨hwork, hrep, hcall⟩ := hobs
  obtain ⟨⟨outcome, c'⟩, happ, hobs⟩ := Fallible.exists_of_toOption_map hcall
  rw [Prod.mk.injEq] at hobs
  obtain ⟨rfl, hwork'⟩ := hobs
  exact ⟨n, c', run_of_runCompletely hn, happ, hrep, hwork, hwork'⟩

/-- A complete reorganization halves the chain work. -/
theorem luckyBlock_lowers_chainWork : ∃ n c',
    Runs.Run (Node.DeliversCompletely plainCore) node luckyDeliveries n ∧
    n.chain.applyInMemory plainCore (around 1748000160) luckyBlock (some n.db.reader) =
      .ok (.reorged luckyDisplaced [luckyBlock], c') ∧
    n.chain.ForkReplays plainCore (around 1748000160) luckyBlock (some n.db.reader) ∧
    c'.getChainWork < n.chain.getChainWork := by
  obtain ⟨n, c', hrun, happ, hrep, hwork, hwork'⟩ := luckyRun
  refine ⟨n, c', hrun, happ, hrep, ?_⟩
  rw [Blockchain.getChainWork, Blockchain.getChainWork, hwork, hwork']
  decide

theorem luckyBlock_work : ∃ (n : Node) (c' : Blockchain) (ancestor : ℕ) (stem : List Block)
    (work : ℕ),
    n.chain.chosenFork plainCore (around 1748000160) luckyBlock (some n.db.reader) =
      some ([luckyBlock], ancestor) ∧
    n.chain.chainUpTo (some n.db.reader) ancestor = some stem ∧
    c'.blocks = stem ++ [luckyBlock] ∧
    n.chain.mainWork (some n.db.reader) ancestor = some work ∧
    work < chainSegmentWork [luckyBlock] ∧
    n.chain.getChainWork = n.chain.targetWork n.canonicalChain ∧
    c'.getChainWork = n.chain.targetWork (stem ++ [luckyBlock]) := by
  obtain ⟨n, c', hrun, happ, hrep, -⟩ := luckyRun
  obtain ⟨ancestor, stem, before, work, hchosen, hstem, hblocks, hwork, hlt, -, hcanonical,
    hbefore, hafter⟩ := Node.work_of_reorg rfl (hrun.mono fun h => h.1) happ hrep
  refine ⟨n, c', ancestor, stem, work, hchosen, hstem, hblocks, hwork, hlt, ?_, hafter⟩
  rw [← hcanonical (by decide) hrun, hbefore]

end Sample

end Lootcoin
