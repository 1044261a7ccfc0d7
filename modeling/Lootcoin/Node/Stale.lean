import Lootcoin.Node.Restart

/-! The stored chain over a run.  Appends and reorganizations inside the window keep the table of
blocks equal to the canonical chain.  A reorganization from below the window writes the fork over
the stored blocks and removes none, so it leaves the end of the replaced chain stored when the fork
is shorter. -/

namespace Lootcoin

namespace Node

variable {core : Core} {ambient : Ambient} {n n' : Node} {b : Block} {d : Delivery}
  {outcome : BlockOutcome} {env : Option ℚ} {pot : ℕ} {genesis : Block} {full : Blockchain}

/-- If the delivery makes the node switch to a fork from below its window, then that fork reaches
at least as high as the chain that it replaces. -/
def ReachesHeight (core : Core) (n : Node) (d : Delivery) : Prop :=
  ∀ fork ancestor, n.chain.chosenFork core d.ambient d.block (some n.db.reader) =
    some (fork, ancestor) → ancestor < n.chain.blocksOffset →
    n.chain.getHeight ≤ ancestor + 1 + fork.length

theorem reachesHeight_of_none
    (h : n.chain.chosenFork core ambient b (some n.db.reader) = none) :
    ReachesHeight core n ⟨b, ambient⟩ := by
  intro fork ancestor hchosen
  cases h.symm.trans hchosen

instance (core : Core) (n : Node) (d : Delivery) : Decidable (n.ReachesHeight core d) :=
  match h : n.chain.chosenFork core d.ambient d.block (some n.db.reader) with
  | none => isTrue fun _ _ hsome => by cases h.symm.trans hsome
  | some (fork, ancestor) =>
    decidable_of_iff (ancestor < n.chain.blocksOffset →
        n.chain.getHeight ≤ ancestor + 1 + fork.length)
      ⟨fun hlong _ _ hsome => by
        cases h.symm.trans hsome
        exact hlong, fun hreach => hreach fork ancestor h⟩

/-! ### One delivery -/

/-- What a reorganization leaves stored above its fork: nothing, unless it displaces no block by
name, and then what was there. -/
theorem Mirrors.above_fork (hm : n.Mirrors full) (ht : Tracks core env pot genesis n full)
    (hi : genesis.index = 0) {old fork new : List Block} {ancestor : ℕ}
    (hsplice : n.chain.splice fork ancestor = .ok (new, old))
    (hfork : ∀ x ∈ fork, x.index < ancestor + 1 + fork.length) {i : ℕ}
    (hlt : ancestor + 1 + fork.length ≤ i) :
    (fork.foldl (fun t b => t.insert b.index b)
      (old.foldl (fun t b => t.remove b.index) n.db.blocks)).get i =
      if n.chain.blocksOffset ≤ ancestor then none else full.blocks[i]? := by
  rcases get_foldl_insert fork (old.foldl (fun t b => t.remove b.index) n.db.blocks) i with
    ⟨x, hx, hxi, -⟩ | ⟨-, hget⟩
  · have := hfork x hx
    omega
  rw [hget, get_foldl_remove]
  have hlen := ht.pruned.length
  rcases Blockchain.splice_eq_ok.mp hsplice with ⟨ho, -, -, rfl⟩ | ⟨ho, -, rfl⟩
  · rw [if_pos ho, hm i]
    split
    · rfl
    · rename_i hnot
      by_contra hne
      obtain ⟨x, hx⟩ := Option.ne_none_iff_exists'.mp hne
      -- a block above the ancestor is one of the displaced
      apply hnot
      refine List.mem_map.mpr ⟨x, ?_, ht.index hi hx⟩
      apply List.mem_of_getElem? (i := i - (ancestor + 1))
      rw [ht.pruned.blocks, List.drop_drop, List.getElem?_drop, ← hx]
      congr 1
      omega
  · rw [if_neg (Nat.not_le.mpr ho), hm i]
    rfl

/-- A reorganization keeps the stored chain canonical exactly when its fork, if it comes from below
the window, reaches as high as the chain that it replaces. -/
theorem Mirrors.reorged (hm : n.Mirrors full) (ht : Tracks core env pot genesis n full)
    {full' : Blockchain} (ht' : Tracks core env pot genesis n' full') (hi : genesis.index = 0)
    {old fork new : List Block} {ancestor : ℕ}
    (hsplice : n.chain.splice fork ancestor = .ok (new, old))
    (hfull : full'.blocks = full.blocks.take (ancestor + 1) ++ fork)
    (hblocks : n'.db.blocks = fork.foldl (fun t b => t.insert b.index b)
      (old.foldl (fun t b => t.remove b.index) n.db.blocks)) :
    n'.Mirrors full' ↔
      (ancestor < n.chain.blocksOffset → n.chain.getHeight ≤ ancestor + 1 + fork.length) := by
  have hlt := ht.ancestor_lt hsplice
  have hheight := ht.getHeight
  have hlen : full'.blocks.length = ancestor + 1 + fork.length := by
    rw [hfull, List.length_append, List.length_take]
    omega
  have hfork : ∀ x ∈ fork, x.index < ancestor + 1 + fork.length := by
    intro x hx
    have hmem : x ∈ full'.blocks := hfull ▸ List.mem_append_right _ hx
    obtain ⟨j, hj⟩ := List.mem_iff_getElem?.mp hmem
    rw [ht'.index hi hj, ← hlen]
    exact (List.getElem?_eq_some_iff.mp hj).1
  have habove := fun i => hm.above_fork ht hi hsplice hfork (i := i)
  rw [← hblocks, ← hlen] at habove
  constructor
  · intro hm' ho
    by_contra hshort
    have hi' : full'.blocks.length < full.blocks.length := by omega
    -- the first block above the fork is still stored
    have hstale := habove full'.blocks.length (Nat.le_refl _)
    rw [if_neg (Nat.not_le.mpr ho), hm', List.getElem?_eq_none (Nat.le_refl _),
      List.getElem?_eq_getElem hi'] at hstale
    cases hstale
  · intro hlong i
    by_cases hin : i < full'.blocks.length
    · exact ht'.stored i hin
    · rw [habove i (Nat.not_lt.mp hin), List.getElem?_eq_none (Nat.not_lt.mp hin)]
      split
      · rfl
      · rename_i ho
        have := hlong (Nat.not_le.mp ho)
        exact List.getElem?_eq_none (by omega)

/-- A delivery keeps the stored chain canonical exactly when a fork from below the window, if the
node switches to one, reaches as high as the chain that it replaces. -/
theorem Mirrors.step (hm : n.Mirrors full) (ht : Tracks core env pot genesis n full)
    (hn : Sound core n) (hi : genesis.index = 0) (hpot : pot < 2 ^ 64) (hfits : b.Fits)
    (h : Effect core ambient n b n' outcome)
    (hrep : n.chain.ForkReplays core ambient b (some n.db.reader)) :
    ∃ full', Tracks core env pot genesis n' full' ∧
      (n'.Mirrors full' ↔ ReachesHeight core n ⟨b, ambient⟩) := by
  cases h with
  | @applied chain payouts hup hchain hblocks =>
    obtain ⟨full', hfull, -, ht'⟩ := ht.applied hfits hup hchain hblocks
    have hindex : b.index = full.blocks.length :=
      (Blockchain.appended_of_updateState hup).index.trans ht.getHeight
    exact ⟨full', ht', iff_of_true (hm.applied hfull hindex hblocks)
      (reachesHeight_of_none (Blockchain.chosenFork_of_applied hup))⟩
  | rejected hup hcause heq =>
    subst heq
    exact ⟨full, ht, iff_of_true hm
      (reachesHeight_of_none (Blockchain.chosenFork_of_rejected hup hcause))⟩
  | orphaned hadm hfind heq =>
    subst heq
    exact ⟨full, ht.orphaned hfits (.orphaned hadm hfind rfl), iff_of_true hm
      (reachesHeight_of_none (Blockchain.chosenFork_of_orphaned hadm hfind))⟩
  | @reorged old fork new ancestor chain payouts hre hchain hblocks =>
    obtain ⟨full', hfull, ht'⟩ := ht.reorged hn hi hpot hfits hre hchain hblocks hrep
    refine ⟨full', ht', (hm.reorged ht ht' hi hre.splice hfull.blocks hblocks).trans ?_⟩
    constructor
    · intro hlong fork' ancestor' hchosen
      cases hre.chosenFork.symm.trans hchosen
      exact hlong
    · exact fun hreach => hreach fork ancestor hre.chosenFork

/-! ### Runs -/

/-- A delivery whose fork replays completely and, from below the window, is long enough. -/
def DeliversReaching (core : Core) (n : Node) (d : Delivery) (n' : Node) : Prop :=
  n.DeliversCompletely core d n' ∧ n.ReachesHeight core d

/-- Over every run in which forks from below the window reach the height, each node stores its
canonical chain and nothing else, and the next delivery leaves it so exactly when its fork reaches
the height too. -/
theorem storesCanonical_of_run (hi : genesis.index = 0) (hpot : pot < 2 ^ 64) {ds : List Delivery}
    (run : Runs.Run (DeliversReaching core) (fresh env pot genesis) ds n) :
    n.StoresCanonical ∧ ∀ d n', n.DeliversCompletely core d n' →
      (n'.StoresCanonical ↔ n.ReachesHeight core d) := by
  have hinv := run.invariant (P := fun n => Sound core n ∧ ∃ full,
    Tracks core env pot genesis n full ∧ n.Mirrors full) ?_
    ⟨sound_fresh hi, _, tracks_fresh hi, mirrors_fresh hi⟩
  · obtain ⟨hn, full, ht, hm⟩ := hinv
    refine ⟨(ht.mirrors_iff hi).mp hm, ?_⟩
    rintro d n' ⟨⟨hfits, outcome, happ⟩, hrep⟩
    obtain ⟨full', ht', hiff⟩ := hm.step ht hn hi hpot hfits (effect_of_applyBlock happ) hrep
    rw [← ht'.mirrors_iff hi]
    exact hiff
  · rintro n d n' ⟨⟨⟨hfits, outcome, happ⟩, hrep⟩, hreach⟩ ⟨hn, full, ht, hm⟩
    have heff := effect_of_applyBlock happ
    obtain ⟨full', ht', hiff⟩ := hm.step ht hn hi hpot hfits heff hrep
    exact ⟨hn.step heff, full', ht', hiff.mpr hreach⟩

theorem length_le_of_run {ds : List Delivery}
    (run : Runs.Run (Delivers core) (fresh env pot genesis) ds n) :
    n.chain.blocks.length ≤ reorgWindow := by
  have hpruned : ∀ c : Blockchain, c.pruneToWindow.blocks.length ≤ reorgWindow := by
    intro c
    rw [Blockchain.pruneToWindow_blocks, List.length_drop]
    unfold Blockchain.excess
    omega
  refine run.invariant (P := fun n => n.chain.blocks.length ≤ reorgWindow) ?_
    (show 1 ≤ reorgWindow by decide)
  rintro n d n' ⟨-, outcome, happ⟩ hn
  cases effect_of_applyBlock happ with
  | applied _ hchain => exact hchain ▸ hpruned _
  | rejected _ _ heq => exact heq ▸ hn
  | orphaned _ _ heq => exact heq ▸ hn
  | reorged _ hchain => exact hchain ▸ hpruned _

end Node

theorem chainSegmentWork_le {l : List Block} {w : ℕ} (h : ∀ b ∈ l, blockWork b.hash ≤ w) :
    chainSegmentWork l ≤ l.length * w := by
  rw [chainSegmentWork, Word.saturatingSum_eq]
  refine (Nat.min_le_left _ _).trans ?_
  have hsum := List.sum_le_card_nsmul (l.map fun b => blockWork b.hash) w (by
    intro v hv
    obtain ⟨b, hb, rfl⟩ := List.mem_map.mp hv
    exact h b hb)
  rwa [List.length_map, nsmul_eq_mul, Nat.cast_id] at hsum

namespace Blockchain

theorem admitOrphan_of_empty {c : Blockchain} (h : c.orphanPool = ∅) (b : Block) :
    (c.admitOrphan .default b).orphanPool = (∅ : HashTable Bytes Block).insert b.hash b := by
  have hroom : ∀ index, evictAtHeight .default (evictFromFullPool .default ∅) index = ∅ :=
    fun _ => rfl
  show (evictAtHeight .default (evictFromFullPool .default c.orphanPool) b.index).insert b.hash b =
    _
  rw [h, hroom]

end Blockchain

namespace Sample

/-- A rival takes the place of the first block inside the window. -/
theorem rival_storesCanonical : ∃ n : Node, n.canonicalChain = [genesis, rivalBlock, rivalChild] ∧
    n.StoresCanonical ∧ ∀ d n', n.DeliversCompletely plainCore d n' →
      (n'.StoresCanonical ↔ n.ReachesHeight plainCore d) := by
  have hrun : (runChecked plainCore (fun n d =>
      n.chain.ForkReplays plainCore d.ambient d.block (some n.db.reader) ∧
        n.ReachesHeight plainCore d) node rivalDeliveries).map Node.canonicalChain =
      some [genesis, rivalBlock, rivalChild] := by
    decide +kernel
  obtain ⟨n, hn, hchain⟩ := Option.map_eq_some_iff.mp hrun
  have hreaching : Runs.Run (Node.DeliversReaching plainCore)
      (Node.fresh none Node.genesisPotAmount genesis) rivalDeliveries n :=
    (run_of_runChecked hn).mono fun h => ⟨⟨h.1, h.2.1⟩, h.2.2⟩
  exact ⟨n, hchain, Node.storesCanonical_of_run rfl (by decide) hreaching⟩

/-! ### A deep block

A block on the genesis block with more work than a hundred even blocks. -/

def deepBlock : Block := block 1 [] 1748000061 120

def deepDelivery : Node.Delivery := ⟨deepBlock, around afterEven⟩

/-- The pool that holds the deep block alone. -/
def deepPool : HashTable Bytes Block :=
  (∅ : HashTable Bytes Block).insert deepBlock.hash deepBlock

theorem blockWork_even {k : ℕ} {b : Block} (hb : b ∈ genesis :: evenBlocks k) :
    blockWork b.hash ≤ 2 ^ 25 := by
  obtain ⟨i, -, rfl⟩ := mem_even hb
  cases i with
  | zero => decide
  | succ i =>
    have hbits : leadingZeroBits (evenBlock (i + 1)).hash = 25 := leadingZeroBits_plainHash _
    rw [blockWork, hbits]
    decide

/-- A node after the first hundred and one even blocks. -/
structure LongEven (n : Node) (full : Blockchain) : Prop where
  archives : Node.Archives plainCore none Node.genesisPotAmount genesis n full
  even : Even 101 full
  sound : Node.Sound plainCore n
  length_le : n.chain.blocks.length ≤ reorgWindow
  pool : n.chain.orphanPool = ∅

variable {n : Node} {full : Blockchain}

theorem LongEven.offset_pos (h : LongEven n full) : 0 < n.chain.blocksOffset := by
  have hlen := h.archives.tracks.pruned.length
  have := h.length_le
  have : reorgWindow = 100 := rfl
  rw [h.even.blocks, List.length_cons, length_evenBlocks] at hlen
  omega

theorem LongEven.getHeight (h : LongEven n full) : n.chain.getHeight = 102 := by
  rw [h.archives.tracks.getHeight, h.even.blocks, List.length_cons, length_evenBlocks]

theorem LongEven.read_genesis (h : LongEven n full) : n.db.getBlocksRange 0 1 = [genesis] := by
  rw [h.archives.tracks.getBlocksRange, h.even.blocks]
  · rfl
  · rw [h.even.blocks, List.length_cons]
    omega
  · decide

/-- No block of the window has the empty hash, which is that of the genesis block. -/
theorem LongEven.lookup_nil (h : LongEven n full) : n.chain.blockHashes.lookup [] = none := by
  by_contra hne
  obtain ⟨i, hi⟩ := Option.ne_none_iff_exists'.mp hne
  obtain ⟨-, b, hb, hhash⟩ := h.sound.window.hashes [] i hi
  rw [h.archives.tracks.pruned.blocks, List.getElem?_drop, h.even.blocks] at hb
  have hpos := h.offset_pos
  obtain ⟨j, hj⟩ : ∃ j, n.chain.blocksOffset + (i - n.chain.blocksOffset) = j + 1 :=
    ⟨n.chain.blocksOffset + (i - n.chain.blocksOffset) - 1, by omega⟩
  rw [hj, List.getElem?_cons_succ] at hb
  obtain ⟨k, -, rfl⟩ := List.mem_map.mp (List.mem_of_getElem? hb)
  have hlength : (evenBlock (k + 1)).hash.length = 0 := by rw [hhash, List.length_nil]
  have := (length_plainHash (evenBlock (k + 1)).toHeader).symm.trans hlength
  omega

theorem LongEven.mainWork_lt (h : LongEven n full) : ∃ work,
    n.chain.mainWork (some n.db.reader) 0 = some work ∧ work < 2 ^ 120 := by
  have hpos := h.offset_pos
  have hlen := h.archives.tracks.pruned.length
  rw [h.even.blocks, List.length_cons, length_evenBlocks] at hlen
  refine ⟨_, by rw [Blockchain.mainWork, if_neg (by omega)]; rfl, ?_⟩
  have hstored : ∀ b ∈ (full.blocks.take n.chain.blocksOffset).drop 1,
      blockWork b.hash ≤ 2 ^ 25 := fun b hb =>
    blockWork_even (h.even.blocks ▸ List.mem_of_mem_take (List.mem_of_mem_drop hb))
  have hwindow : ∀ b ∈ n.chain.blocks, blockWork b.hash ≤ 2 ^ 25 := fun b hb =>
    blockWork_even (h.even.blocks ▸
      List.mem_of_mem_drop (h.archives.tracks.pruned.blocks ▸ hb))
  have hread : n.db.getBlocksRange (0 + 1) (n.chain.blocksOffset - (0 + 1)) =
      (full.blocks.take n.chain.blocksOffset).drop 1 := by
    have hsum : Word.saturatingAdd 64 (0 + 1) (n.chain.blocksOffset - (0 + 1)) =
        n.chain.blocksOffset := by
      rw [Word.saturatingAdd_of_lt (by omega)]
      omega
    rw [Db.getBlocksRange, hsum]
    exact OrderedTable.range_eq_drop_take hpos h.archives.tracks.pruned.offset_lt.le
      h.archives.tracks.stored
  have hread' := chainSegmentWork_le hstored
  have hwindow' := chainSegmentWork_le hwindow
  rw [List.length_drop, List.length_take] at hread'
  simp only [Db.reader, hread, Option.getD_some]
  refine Nat.lt_of_le_of_lt (Nat.min_le_left _ _) ?_
  omega

/-- The deep block is admitted: it does not follow the tip and meets the difficulty. -/
theorem LongEven.admits (h : LongEven n full) :
    n.chain.admits plainCore (around afterEven) deepBlock =
      some (n.chain.admitOrphan .default deepBlock) := by
  have hheight := h.getHeight
  have hderived := h.archives.tracks.pruned.derived
  have hlink : n.chain.linksToTip deepBlock = false := by
    rw [Bool.eq_false_iff]
    intro hlink
    have hindex := (Blockchain.linksToTip_iff.mp hlink).1
    rw [hheight] at hindex
    cases hindex
  have hparent : n.chain.findBlockTimestamp deepBlock.previousHash = none := by
    show n.chain.findBlockTimestamp [] = none
    rw [Blockchain.findBlockTimestamp, h.lookup_nil, h.pool]
    rfl
  have hcurrent : n.chain.currentDifficulty = 25 := by
    rw [hderived]
    exact h.even.difficulty
  have hdifficulty : n.chain.expectedDifficultyFor deepBlock = 25 := by
    unfold Blockchain.expectedDifficultyFor
    split
    · exact hcurrent
    · split
      · exact hcurrent
      · rw [hparent]
        exact hcurrent
  refine Blockchain.admits_eq_some.mpr ⟨?_, hlink, ?_, rfl⟩
  · refine Blockchain.updateState_eq_none.mpr (Bool.eq_false_iff.mpr fun hacc => ?_)
    have := (Blockchain.acceptsBlock_iff.mp hacc).1
    rw [hlink] at this
    cases this
  · rw [Blockchain.validateBlockStandalone, hdifficulty, hheight]
    decide +kernel

theorem LongEven.chosenFork (h : LongEven n full) :
    n.chain.chosenFork plainCore (around afterEven) deepBlock (some n.db.reader) =
      some ([deepBlock], 0) := by
  have hpool : (n.chain.admitOrphan (around afterEven).order deepBlock).orphanPool = deepPool :=
    Blockchain.admitOrphan_of_empty h.pool deepBlock
  have hpos := h.offset_pos
  refine Blockchain.chosenFork_eq_some.mpr ⟨h.admits, ?_⟩
  have htips : Blockchain.poolTips .default deepPool = [deepBlock] := by
    decide +kernel
  have htrace : (n.chain.admitOrphan (around afterEven).order deepBlock).traceForkChain
      deepBlock = .ok [deepBlock] := by
    rw [Blockchain.traceForkChain, hpool]
    decide +kernel
  have hancestor : n.chain.ancestorIndex (some n.db.reader) deepBlock = some 0 := by
    have hlookup : n.chain.blockHashes.lookup deepBlock.previousHash = none := h.lookup_nil
    unfold Blockchain.ancestorIndex
    rw [hlookup]
    have hoff : ¬ n.chain.blocksOffset ≤ 1 - 1 := by omega
    simp only [deepBlock, block, blockOf, Nat.one_ne_zero, if_false, hoff, Db.reader,
      Option.bind_some, Nat.sub_self, h.read_genesis, List.head?_cons]
    rfl
  obtain ⟨work, hmain, hlt⟩ := h.mainWork_lt
  have hwork : chainSegmentWork [deepBlock] = 2 ^ 120 := by
    decide +kernel
  have hcandidate : (n.chain.admitOrphan (around afterEven).order deepBlock).forkCandidate
      (some n.db.reader) deepBlock = .ok (some ⟨[deepBlock], 0, 2 ^ 120⟩) :=
    Blockchain.forkCandidate_eq_some.mpr ⟨htrace, hancestor, hwork.symm, work, hmain, hlt⟩
  refine Blockchain.findLongestFork_eq_ok.mpr ⟨[some ⟨[deepBlock], 0, 2 ^ 120⟩], ?_, rfl⟩
  rw [hpool, show (around afterEven).order = .default from rfl, htips]
  exact .cons hcandidate .nil

theorem LongEven.replays (h : LongEven n full) : ∃ c',
    (n.chain.reset genesis).updateState plainCore afterEven deepBlock = .ok (some c') := by
  have hfresh : ((Node.freshChain none Node.genesisPotAmount genesis).updateState plainCore
      afterEven deepBlock).toOption.join.isSome = true := by
    decide +kernel
  obtain ⟨rest, -, hgrow⟩ := h.archives.tracks.blocks
  have hpruned := Node.prunedFrom_reset h.archives.tracks.pruned hgrow (by decide)
  obtain ⟨c, hc⟩ := Option.isSome_iff_exists.mp hfresh
  obtain ⟨c', hc', -⟩ :=
    hpruned.accepts (Fallible.toOption_eq_some.mp (Option.join_eq_some_iff.mp hc))
  exact ⟨c', hc'⟩

theorem LongEven.delivers (h : LongEven n full) :
    ∃ n', n.DeliversCompletely plainCore deepDelivery n' ∧
      n.applyBlock plainCore (around afterEven) deepBlock =
        .ok (.reorged [] [deepBlock], n') := by
  obtain ⟨c', hc'⟩ := h.replays
  obtain ⟨hadm, hfound⟩ := Blockchain.chosenFork_eq_some.mp h.chosenFork
  have hpos := h.offset_pos
  have happly : Blockchain.applyAll plainCore (laterReadings (around afterEven).clock)
      (n.chain.reset genesis) [deepBlock] = .ok (some c') :=
    Blockchain.applyAll_cons.mpr ⟨c', hc', rfl⟩
  have hsplice : n.chain.splice [deepBlock] 0 = .ok ([deepBlock], []) :=
    Blockchain.splice_eq_ok.mpr (.inr ⟨hpos, rfl, rfl⟩)
  have hhistory : Blockchain.withHistory [deepBlock] (some n.db.reader) =
      .ok (some [genesis, deepBlock]) := by
    show Except.ok (some (n.db.getBlocksRange 0 1 ++ [deepBlock])) = _
    rw [h.read_genesis]
    rfl
  have hrebuilt : (n.chain.admitOrphan .default deepBlock).reorgTo plainCore
      (laterReadings (around afterEven).clock) [deepBlock] (some n.db.reader) = .ok c' :=
    Blockchain.reorgTo_eq_ok.mpr
      (.inr ⟨genesis, [deepBlock], hhistory, (Blockchain.replay_complete_iff.mp happly).1⟩)
  have hmemory : n.chain.applyInMemory plainCore (around afterEven) deepBlock
      (some n.db.reader) = .ok (.reorged [] [deepBlock], c') :=
    Blockchain.applyInMemory_eq_ok.mpr (.inr (.inr (.inr
      ⟨[], [deepBlock], 0, [deepBlock], rfl, hadm, hfound, hsplice, hrebuilt⟩)))
  have hdone : n.applyBlock plainCore (around afterEven) deepBlock =
      .ok (.reorged [] [deepBlock], Node.persistReorged plainCore ⟨c', n.db⟩ [] [deepBlock]) :=
    Node.applyBlock_eq_ok.mpr ⟨c', hmemory, .inr (.inl ⟨[], [deepBlock], rfl, rfl⟩)⟩
  refine ⟨_, ⟨⟨?_, _, hdone⟩, ?_⟩, hdone⟩
  · exact block_fits (by decide) (by decide) (by decide)
  · intro fork ancestor hchosen
    cases h.chosenFork.symm.trans hchosen
    refine ⟨[genesis], ?_, genesis, [deepBlock], c', rfl, happly⟩
    rw [Blockchain.chainUpTo, if_neg (by omega)]
    show some (n.db.getBlocksRange 0 1) = some [genesis]
    rw [h.read_genesis]

theorem longEven_exists : ∃ n full, LongEven n full ∧
    Runs.Run (Node.DeliversCompletely plainCore) node
      ((evenBlocks 101).map fun b => ⟨b, around afterEven⟩) n := by
  obtain ⟨full, hgrow, heven⟩ := even_grows 101 (by omega)
  have htimely := evenBlocks_timely (show 101 ≤ 10000 by omega)
  have htime : ∀ b ∈ evenBlocks 101, b.timestamp ≤ (around afterEven).clock 0 + 120 :=
    fun b hb => (htimely b hb).2
  obtain ⟨n, hrun, ha, hpool⟩ :=
    Node.archives_of_grows rfl hgrow (fun b hb => (htimely b hb).1) htime
  have hdelivers : Runs.Run (Node.Delivers plainCore)
      (Node.fresh none Node.genesisPotAmount genesis) _ n := hrun.mono fun h => h.1
  exact ⟨n, full, ⟨ha, heven, Node.sound_of_run rfl hdelivers, Node.length_le_of_run hdelivers,
    hpool⟩, hrun⟩

/-- After the even blocks and the deep block, the canonical chain of the node is that of the deep
block, and the even blocks above it are still stored. -/
theorem deepBlock_leaves_stale : ∃ (ds : List Node.Delivery) (n : Node),
    Runs.Run (Node.DeliversCompletely plainCore) node ds n ∧
    n.canonicalChain = [genesis, deepBlock] ∧
    n.db.blocks.get 2 = some (evenBlock 2) ∧ ¬ n.StoresCanonical := by
  obtain ⟨n, full, h, hrun⟩ := longEven_exists
  obtain ⟨n', hn', happ⟩ := h.delivers
  have heff := Node.effect_of_applyBlock happ
  have hfits : deepBlock.Fits := hn'.1.1
  have hrep := hn'.2
  cases heff with
  | @reorged old fork new ancestor chain payouts hre hchain hblocks =>
    cases h.chosenFork.symm.trans hre.chosenFork
    obtain ⟨full', hfull, ht'⟩ := h.archives.tracks.reorged h.sound rfl (by decide) hfits hre hchain
      hblocks hrep
    have hdeep : full'.blocks = [genesis, deepBlock] := by
      rw [hfull.blocks, h.even.blocks]
      rfl
    have hstale : n'.db.blocks.get 2 = some (evenBlock 2) := by
      rw [hblocks]
      show (n.db.blocks.insert 1 deepBlock).get 2 = some (evenBlock 2)
      rw [OrderedTable.get_insert_ne _ _ (by decide), h.archives.stored, h.even.blocks,
        getElem?_even (by decide)]
    refine ⟨_, n', hrun.snoc hn', ht'.canonicalChain.trans hdeep, hstale, fun hs => ?_⟩
    have hnone := (ht'.mirrors_iff rfl).mpr hs 2
    rw [hstale, hdeep] at hnone
    cases hnone

end Sample

end Lootcoin
