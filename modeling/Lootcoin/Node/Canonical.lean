import Lootcoin.Chain.Pruned
import Lootcoin.Node.Sound
import Lootcoin.Sample

/-! Nodes whose reorganizations replay completely.  Such a node is a pruned view of a whole chain
that grew from the genesis block by appends alone: it has that chain's derived state, its window is
the end of that chain, and the database holds the blocks of that chain at their indices. -/

namespace Lootcoin

namespace Blockchain

variable {core : Core}

theorem timestamp_of_updateState {now : ℕ} {c c' : Blockchain} {b : Block}
    (h : c.updateState core now b = .ok (some c')) : b.timestamp ≤ now + 120 :=
  (acceptsBlock_iff.mp (updateState_eq_some.mp h).1).2.1

theorem timestamp_of_applyAll {clock : ℕ → ℕ} {c c' : Blockchain} {bs : List Block}
    (h : applyAll core clock c bs = .ok (some c')) :
    ∀ b ∈ bs, ∃ k, b.timestamp ≤ clock k + 120 := by
  induction bs generalizing c clock with
  | nil => simp
  | cons b bs ih =>
    obtain ⟨d, hd, h'⟩ := applyAll_cons.mp h
    intro x hx
    rcases List.mem_cons.mp hx with rfl | hx
    · exact ⟨0, timestamp_of_updateState hd⟩
    · obtain ⟨k, hk⟩ := ih h' x hx
      exact ⟨k + 1, hk⟩

end Blockchain

namespace Node

variable {core : Core} {ambient : Ambient} {n n' : Node} {b : Block} {outcome : BlockOutcome}
  {env : Option ℚ} {pot : ℕ} {genesis : Block} {full : Blockchain}

/-- The whole chain `full`, of which a node has the end in memory and all blocks stored. -/
structure Tracks (core : Core) (env : Option ℚ) (pot : ℕ) (genesis : Block) (n : Node)
    (full : Blockchain) : Prop where
  grown : ∃ rest, Blockchain.Grows core (freshChain env pot genesis) rest full
  pruned : full.PrunedFrom n.chain
  stored : ∀ i < full.blocks.length, n.db.blocks.get i = full.blocks[i]?
  length_le : full.blocks.length ≤ 2 ^ 64
  orphans : ∀ h x, n.chain.orphanPool.lookup h = some x → x.index < 2 ^ 64

theorem Tracks.blocks (ht : Tracks core env pot genesis n full) :
    ∃ rest, full.blocks = genesis :: rest ∧
      Blockchain.Grows core (freshChain env pot genesis) rest full := by
  obtain ⟨rest, hgrow⟩ := ht.grown
  exact ⟨rest, hgrow.blocks, hgrow⟩

/-- The whole chain is numbered from zero. -/
theorem Tracks.index (ht : Tracks core env pot genesis n full) (hi : genesis.index = 0) {i : ℕ}
    {x : Block} (hx : full.blocks[i]? = some x) : x.index = i := by
  obtain ⟨rest, hgrow⟩ := ht.grown
  have := ((windowSound_freshChain hi).grows hgrow).index i x hx
  rwa [ht.pruned.whole, Nat.zero_add] at this

/-- What is stored from index zero on is the whole chain. -/
theorem Tracks.getBlocksRange (ht : Tracks core env pot genesis n full) {k : ℕ}
    (hk : k ≤ full.blocks.length) (hlt : k < 2 ^ 64) :
    n.db.getBlocksRange 0 k = full.blocks.take k := by
  rw [Db.getBlocksRange, Word.saturatingAdd_of_lt (by omega), Nat.zero_add]
  exact OrderedTable.range_zero hk ht.stored

theorem Tracks.offset_lt (ht : Tracks core env pot genesis n full) :
    n.chain.blocksOffset < 2 ^ 64 :=
  Nat.lt_of_lt_of_le ht.pruned.offset_lt ht.length_le

/-- The canonical chain of a node is the whole chain. -/
theorem Tracks.canonicalChain (ht : Tracks core env pot genesis n full) :
    n.canonicalChain = full.blocks := by
  rw [Node.canonicalChain, ht.getBlocksRange ht.pruned.offset_lt.le ht.offset_lt, ht.pruned.blocks,
    List.take_append_drop]

/-- The chain up to an ancestor that the node has is a prefix of the whole chain. -/
theorem Tracks.chainUpTo (ht : Tracks core env pot genesis n full) {ancestor : ℕ}
    (ha : ancestor < full.blocks.length) : n.chain.chainUpTo (some n.db.reader) ancestor =
      some (full.blocks.take (ancestor + 1)) := by
  have hlen := ht.pruned.length
  unfold Blockchain.chainUpTo
  split
  · rename_i ho
    simp only [Db.reader, Option.bind_some, Option.map_some,
      ht.getBlocksRange ht.pruned.offset_lt.le ht.offset_lt]
    have hsplit : full.blocks.take n.chain.blocksOffset ++
        n.chain.blocks.take (ancestor - n.chain.blocksOffset + 1) =
        full.blocks.take (ancestor + 1) := by
      rw [ht.pruned.blocks, ← List.take_add]
      congr 1
      omega
    split
    · rw [hsplit]
    · rename_i hz
      rw [Nat.eq_zero_of_not_pos hz, List.take_zero, List.nil_append] at hsplit
      rw [Nat.eq_zero_of_not_pos hz, hsplit]
  · rename_i ho
    have := ht.offset_lt
    simp only [Db.reader, Option.bind_some]
    rw [ht.getBlocksRange (by omega) (by omega)]

/-- The ancestor of a reorganization lies on the whole chain. -/
theorem Tracks.ancestor_lt (ht : Tracks core env pot genesis n full) {old fork new : List Block}
    {ancestor : ℕ} (h : n.chain.splice fork ancestor = .ok (new, old)) :
    ancestor < full.blocks.length := by
  have hlen := ht.pruned.length
  rcases Blockchain.splice_eq_ok.mp h with ⟨_, hl, -, -⟩ | ⟨_, -, -⟩ <;> omega

/-- The displaced blocks lie above the ancestor. -/
theorem Sound.ancestor_lt_old (hn : Sound core n) {old fork new : List Block} {ancestor : ℕ}
    (h : n.chain.splice fork ancestor = .ok (new, old)) : ∀ x ∈ old, ancestor < x.index := by
  intro x hx
  rcases Blockchain.splice_eq_ok.mp h with ⟨ho, -, -, rfl⟩ | ⟨-, -, rfl⟩
  · obtain ⟨i, hi⟩ := List.mem_iff_getElem?.mp hx
    rw [List.getElem?_drop] at hi
    have := hn.window.index _ x hi
    omega
  · simp at hx

/-- The whole chain of a rebuilt node: it begins with the whole chain before up to the ancestor, and
the fork follows. -/
structure Rebuilt (core : Core) (ambient : Ambient) (env : Option ℚ) (pot : ℕ) (genesis : Block)
    (full : Blockchain) (fork : List Block) (ancestor : ℕ) (chain full' : Blockchain) : Prop where
  blocks : full'.blocks = full.blocks.take (ancestor + 1) ++ fork
  pruned : full'.PrunedFrom chain
  grown : ∃ rest, full'.blocks = genesis :: rest ∧
    Blockchain.Grows core (freshChain env pot genesis) rest full' ∧
    ∀ x ∈ rest, ∃ k, x.timestamp ≤ ambient.clock k + 120

/-- A chain that a reorganization resets is the fresh one but for its tables. -/
theorem prunedFrom_reset {c : Blockchain} {rest : List Block} (h : full.PrunedFrom c)
    (hgrow : Blockchain.Grows core (freshChain env pot genesis) rest full) (hpot : pot < 2 ^ 64) :
    (freshChain env pot genesis).PrunedFrom (c.reset genesis) := by
  have hdifficulty : c.initialDifficulty = (freshChain env pot genesis).initialDifficulty := by
    rw [h.initialDifficulty, hgrow.initialDifficulty]
  have hseed : c.genesisPot = (freshChain env pot genesis).genesisPot := by
    rw [h.genesisPot, hgrow.genesisPot]
  exact
    { derived := by
        simp only [Blockchain.reset, hdifficulty, hseed, freshChain, Blockchain.seedPot,
          Blockchain.new, genesisState]
        rw [Word.saturatingAdd_of_lt (by omega), Nat.zero_add]
      whole := rfl
      offset_lt := Nat.one_pos
      blocks := rfl
      long := .inl rfl
      genesisPot := hseed
      initialDifficulty := hdifficulty }

/-- A reorganization that replays completely rebuilds a node from a whole chain. -/
theorem Tracks.rebuilt (ht : Tracks core env pot genesis n full) (hn : Sound core n)
    (hpot : pot < 2 ^ 64) {old fork new : List Block} {ancestor : ℕ} {chain : Blockchain}
    (hre : n.chain.Reorganizes core ambient b (some n.db.reader) old fork chain ancestor new)
    (hrep : n.chain.ForkReplays core ambient b (some n.db.reader)) :
    ∃ full', Rebuilt core ambient env pot genesis full fork ancestor chain full' := by
  obtain ⟨stem', hstem', g', rest', d, htarget', happ⟩ := hrep fork ancestor hre.chosenFork
  obtain ⟨stem, g, rest, hstem, htarget, -, -, hreplay⟩ := hn.reorganizes hre
  cases hstem.symm.trans hstem'
  rw [htarget, List.cons.injEq] at htarget'
  obtain ⟨rfl, rfl⟩ := htarget'
  obtain ⟨hreplay', -⟩ := Blockchain.replay_complete_iff.mp happ
  cases hreplay'.symm.trans hreplay
  rw [ht.chainUpTo (ht.ancestor_lt hre.splice), Option.some.injEq] at hstem
  subst hstem
  obtain ⟨before, hbefore, hfrom⟩ := ht.blocks
  have hg : g = genesis := by
    rw [hbefore, List.take_succ_cons, List.cons_append, List.cons.injEq] at htarget
    exact htarget.1.symm
  subst hg
  obtain ⟨full', hgrow, hpruned⟩ :=
    (prunedFrom_reset ht.pruned hfrom hpot).grows (Blockchain.applyAll_grows happ)
  have hblocks : full'.blocks = g :: rest := hgrow.blocks
  refine ⟨full', hblocks.trans htarget.symm, hpruned, rest, hblocks, hgrow, fun x hx => ?_⟩
  obtain ⟨k, hk⟩ := Blockchain.timestamp_of_applyAll happ x hx
  exact ⟨k + 1, hk⟩

/-- The stored blocks after a reorganization: below and at the ancestor what was stored, and above
it the fork. -/
theorem Tracks.stored_reorged (ht : Tracks core env pot genesis n full) (hn : Sound core n)
    {old fork new : List Block} {ancestor : ℕ} {t : List Block}
    (hsplice : n.chain.splice fork ancestor = .ok (new, old))
    (ht' : t = full.blocks.take (ancestor + 1) ++ fork)
    (hindex : ∀ (i : ℕ) (x : Block), t[i]? = some x → x.index = i) {i : ℕ} (hi : i < t.length) :
    (fork.foldl (fun t b => t.insert b.index b)
      (old.foldl (fun t b => t.remove b.index) n.db.blocks)).get i = t[i]? := by
  have hlt := ht.ancestor_lt hsplice
  have htake : (full.blocks.take (ancestor + 1)).length = ancestor + 1 := by
    rw [List.length_take]
    omega
  have hfork : ∀ x ∈ fork, ∃ j, ancestor < j ∧ t[j]? = some x := by
    intro x hx
    obtain ⟨j, hj⟩ := List.mem_iff_getElem?.mp hx
    refine ⟨ancestor + 1 + j, by omega, ?_⟩
    rw [ht', List.getElem?_append_right (by omega), htake, Nat.add_sub_cancel_left, hj]
  rcases get_foldl_insert fork (old.foldl (fun t b => t.remove b.index) n.db.blocks) i with
    ⟨x, hx, hxi, hget⟩ | ⟨hni, hget⟩
  · obtain ⟨j, -, hj⟩ := hfork x hx
    rw [hget, ← hxi, hindex j x hj, hj]
  · have hle : i ≤ ancestor := by
      by_contra hgt
      have hmem : t[i]? = fork[i - (ancestor + 1)]? := by
        rw [ht', List.getElem?_append_right (by omega), htake]
      have hx : t[i]? = some t[i] := List.getElem?_eq_getElem hi
      exact hni (List.mem_map.mpr ⟨t[i], List.mem_of_getElem? (hmem ▸ hx), hindex i _ hx⟩)
    rw [hget, get_foldl_remove, if_neg, ht.stored i (by omega), ht',
      List.getElem?_append_left (by omega), List.getElem?_take_of_lt (by omega)]
    intro hmem
    obtain ⟨x, hx, hxi⟩ := List.mem_map.mp hmem
    have := hn.ancestor_lt_old hsplice x hx
    omega

/-- The blocks that a delivery writes to the table of blocks, each at its own index. -/
def writtenBlocks (b : Block) : BlockOutcome → List Block
  | .applied => [b]
  | .reorged _ newBlocks => newBlocks
  | .orphaned | .rejected => []

/-- The indices of pooled blocks fit in 64 bits, as those of delivered blocks do. -/
theorem Tracks.orphans_of_effect (ht : Tracks core env pot genesis n full) (hfits : b.Fits)
    (h : Effect core ambient n b n' outcome) (k : Bytes) (x : Block)
    (hx : n'.chain.orphanPool.lookup k = some x) : x.index < 2 ^ 64 := by
  rcases orphan_of_effect h hx with rfl | hx
  · exact hfits.index
  · exact ht.orphans k x hx

/-- An append extends the whole chain. -/
theorem Tracks.applied (ht : Tracks core env pot genesis n full) (hfits : b.Fits)
    {chain : Blockchain} {payouts : HashTable ℕ (List Payout)}
    (hup : n.chain.updateState core (ambient.clock 0) b = .ok (some chain))
    (hchain : n'.chain = Blockchain.pruneToWindow { chain with settledPayoutsByBlock := payouts })
    (hblocks : n'.db.blocks = n.db.blocks.insert b.index b) :
    ∃ full', full'.blocks = full.blocks ++ [b] ∧ full'.PrunedFrom chain ∧
      Tracks core env pot genesis n' full' := by
  obtain ⟨full', hfull, hpruned⟩ := ht.pruned.updateState hup
  have ha := Blockchain.appended_of_updateState hfull
  obtain ⟨rest, hrest, hgrow⟩ := ht.blocks
  have hindex : b.index = full.blocks.length := by
    rw [ha.index, Blockchain.getHeight, ht.pruned.whole, Nat.zero_add]
  refine ⟨full', ha.blocks, hpruned, ⟨_, hgrow.snoc ⟨_, hfull⟩⟩, ?_, fun i hlt => ?_, ?_,
    ht.orphans_of_effect hfits (.applied hup hchain hblocks)⟩
  · rw [hchain]
    apply Blockchain.PrunedFrom.prune
    exact hpruned.congr rfl rfl rfl rfl rfl
  · rw [ha.blocks, List.length_append, List.length_singleton] at hlt
    rw [hblocks, ha.blocks]
    by_cases hib : i = b.index
    · rw [hib, OrderedTable.get_insert, hindex, List.getElem?_concat_length]
    · rw [OrderedTable.get_insert_ne _ _ hib, List.getElem?_append_left (by omega),
        ht.stored i (by omega)]
  · rw [ha.blocks, List.length_append, List.length_singleton, ← hindex]
    exact hfits.index

/-- A reorganization that replays completely makes the fork the end of the whole chain. -/
theorem Tracks.reorged (ht : Tracks core env pot genesis n full) (hn : Sound core n)
    (hi : genesis.index = 0) (hpot : pot < 2 ^ 64) (hfits : b.Fits) {old fork new : List Block}
    {ancestor : ℕ} {chain : Blockchain} {payouts : HashTable ℕ (List Payout)}
    (hre : n.chain.Reorganizes core ambient b (some n.db.reader) old fork chain ancestor new)
    (hchain : n'.chain = Blockchain.pruneToWindow { chain with settledPayoutsByBlock := payouts })
    (hblocks : n'.db.blocks = fork.foldl (fun t b => t.insert b.index b)
      (old.foldl (fun t b => t.remove b.index) n.db.blocks))
    (hrep : n.chain.ForkReplays core ambient b (some n.db.reader)) :
    ∃ full', Rebuilt core ambient env pot genesis full fork ancestor chain full' ∧
      Tracks core env pot genesis n' full' := by
  obtain ⟨full', hfull⟩ := ht.rebuilt hn hpot hre hrep
  obtain ⟨rest, hrest, hgrow, htimes⟩ := hfull.grown
  have horphans := ht.orphans_of_effect hfits (.reorged hre hchain hblocks)
  have hindex : ∀ (i : ℕ) (x : Block), full'.blocks[i]? = some x → x.index = i := by
    intro i x hx
    have := ((windowSound_freshChain hi).grows hgrow).index i x hx
    rwa [hfull.pruned.whole, Nat.zero_add] at this
  refine ⟨full', hfull, ⟨rest, hgrow⟩, ?_, fun i hlt => ?_, ?_, horphans⟩
  · rw [hchain]
    apply Blockchain.PrunedFrom.prune
    exact hfull.pruned.congr rfl rfl rfl rfl rfl
  · rw [hblocks]
    exact ht.stored_reorged hn hre.splice hfull.blocks hindex hlt
  · -- the last block of the fork was delivered, so its index fits
    obtain ⟨tip, path, -, htip, -, rfl, -⟩ := Blockchain.fork_of_findLongestFork hre.found
    obtain ⟨k, hk, -⟩ := Blockchain.mem_poolTips.mp htip
    have hlast : full'.blocks[full'.blocks.length - 1]? = some tip := by
      rw [← List.getLast?_eq_getElem?, hfull.blocks, ← List.append_assoc, List.getLast?_concat]
    have hlt : tip.index < 2 ^ 64 := by
      rcases Blockchain.lookup_admitOrphan hk with ⟨-, rfl⟩ | hk
      · exact hfits.index
      · exact ht.orphans k tip hk
    have := hindex _ tip hlast
    omega

/-- An orphan leaves the whole chain as it is. -/
theorem Tracks.orphaned (ht : Tracks core env pot genesis n full) (hfits : b.Fits)
    (h : Effect core ambient n b ⟨n.chain.admitOrphan ambient.order b, n.db⟩ outcome) :
    Tracks core env pot genesis ⟨n.chain.admitOrphan ambient.order b, n.db⟩ full :=
  ⟨ht.grown, ht.pruned.congr rfl rfl rfl rfl rfl, ht.stored, ht.length_le,
    ht.orphans_of_effect hfits h⟩

/-- A delivery whose fork replays completely leads to a node with a whole chain. Each of its blocks
was on the whole chain before, or was accepted in the call, and what the delivery writes is on
it. -/
theorem Tracks.step (ht : Tracks core env pot genesis n full) (hn : Sound core n)
    (hi : genesis.index = 0) (hpot : pot < 2 ^ 64) (hfits : b.Fits)
    (h : Effect core ambient n b n' outcome)
    (hrep : n.chain.ForkReplays core ambient b (some n.db.reader)) :
    ∃ full', Tracks core env pot genesis n' full' ∧
      (∀ x ∈ full'.blocks.tail,
        x ∈ full.blocks.tail ∨ ∃ k, x.timestamp ≤ ambient.clock k + 120) ∧
      ∀ x ∈ writtenBlocks b outcome, x ∈ full'.blocks.tail := by
  obtain ⟨before, hbefore, -⟩ := ht.blocks
  cases h with
  | @applied chain payouts hup hchain hblocks =>
    obtain ⟨full', hfull, -, ht'⟩ := ht.applied hfits hup hchain hblocks
    have htail : full'.blocks.tail = full.blocks.tail ++ [b] := by
      rw [hfull, List.tail_append_of_ne_nil (hbefore ▸ List.cons_ne_nil _ _)]
    refine ⟨full', ht', fun x hx => ?_, fun x hx => ?_⟩
    · rw [htail] at hx
      rcases List.mem_append.mp hx with hx | hx
      · exact .inl hx
      · rw [List.mem_singleton.mp hx]
        exact .inr ⟨0, Blockchain.timestamp_of_updateState hup⟩
    · rw [htail]
      exact List.mem_append_right _ hx
  | rejected _ _ heq =>
    subst heq
    exact ⟨full, ht, fun x hx => .inl hx, by simp [writtenBlocks]⟩
  | orphaned hadm hfind heq =>
    subst heq
    exact ⟨full, ht.orphaned hfits (.orphaned hadm hfind rfl), fun x hx => .inl hx,
      by simp [writtenBlocks]⟩
  | @reorged old fork new ancestor chain payouts hre hchain hblocks =>
    obtain ⟨full', hfull, ht'⟩ := ht.reorged hn hi hpot hfits hre hchain hblocks hrep
    obtain ⟨rest, hrest, -, htimes⟩ := hfull.grown
    refine ⟨full', ht', fun x hx => ?_, fun x hx => ?_⟩
    · rw [hrest] at hx
      exact .inr (htimes x hx)
    · rw [hfull.blocks, hbefore, List.take_succ_cons, List.cons_append]
      exact List.mem_append_right _ hx

/-! ### Runs -/

theorem tracks_fresh (hi : genesis.index = 0) :
    Tracks core env pot genesis (fresh env pot genesis) (freshChain env pot genesis) where
  grown := ⟨[], .nil _⟩
  pruned := {
    derived := rfl
    whole := rfl
    offset_lt := Nat.one_pos
    blocks := rfl
    long := .inl rfl
    genesisPot := rfl
    initialDifficulty := rfl }
  stored := by
    intro i hlt
    obtain rfl : i = 0 := by
      have : (freshChain env pot genesis).blocks.length = 1 := rfl
      omega
    have hblocks : (fresh env pot genesis).db.blocks = OrderedTable.empty.insert 0 genesis := by
      simp only [fresh, Db.saveBlockIndexed, Db.empty, hi]
    rw [hblocks]
    exact OrderedTable.get_insert _ _ _
  length_le := by
    have : (freshChain env pot genesis).blocks.length = 1 := rfl
    omega
  orphans h x hx := by simp [fresh, freshChain, Blockchain.seedPot, Blockchain.new] at hx

/-- A node is sound, and has the end of a whole chain in memory and all of it stored. -/
structure Consistent (core : Core) (env : Option ℚ) (pot : ℕ) (genesis : Block) (n : Node) :
    Prop where
  sound : Sound core n
  tracks : ∃ full, Tracks core env pot genesis n full

theorem consistent_fresh (hi : genesis.index = 0) :
    Consistent core env pot genesis (fresh env pot genesis) :=
  ⟨sound_fresh hi, _, tracks_fresh hi⟩

theorem Consistent.step (hw : Consistent core env pot genesis n) (hi : genesis.index = 0)
    (hpot : pot < 2 ^ 64) (hfits : b.Fits) (h : Effect core ambient n b n' outcome)
    (hrep : n.chain.ForkReplays core ambient b (some n.db.reader)) :
    Consistent core env pot genesis n' := by
  obtain ⟨hn, full, ht⟩ := hw
  obtain ⟨full', ht', -⟩ := ht.step hn hi hpot hfits h hrep
  exact ⟨hn.step h, full', ht'⟩

theorem consistent_of_run (hi : genesis.index = 0) (hpot : pot < 2 ^ 64) {ds : List Delivery}
    (run : Runs.Run (DeliversCompletely core) (fresh env pot genesis) ds n) :
    Consistent core env pot genesis n := by
  refine run.invariant ?_ (consistent_fresh hi)
  rintro n d n' ⟨⟨hfits, outcome, happ⟩, hrep⟩ hw
  exact hw.step hi hpot hfits (effect_of_applyBlock happ) hrep

/-- A node at a time. -/
structure Timed where
  node : Node
  time : ℕ

/-- A delivery whose fork replays completely, during which the clock shows times from the one to
the other. -/
def DeliversBetween (core : Core) (s : Timed) (d : Delivery) (s' : Timed) : Prop :=
  s.node.DeliversCompletely core d s'.node ∧
    ∀ k, s.time ≤ d.ambient.clock k ∧ d.ambient.clock k ≤ s'.time

theorem run_between {now : ℕ} {ds : List Delivery} (hnow : ∀ d ∈ ds, ∀ k, d.ambient.clock k = now)
    (run : Runs.Run (DeliversCompletely core) n ds n') :
    Runs.Run (DeliversBetween core) ⟨n, now⟩ ds ⟨n', now⟩ := by
  induction run with
  | nil => exact .nil _
  | cons h _ ih =>
    refine .cons ⟨h, fun k => ?_⟩ (ih fun d hd => hnow d (List.mem_cons_of_mem _ hd))
    rw [hnow _ List.mem_cons_self k]
    exact ⟨Nat.le_refl _, Nat.le_refl _⟩

theorem run_untimed {s s' : Timed} {ds : List Delivery}
    (run : Runs.Run (DeliversBetween core) s ds s') :
    Runs.Run (DeliversCompletely core) s.node ds s'.node := by
  induction run with
  | nil => exact .nil _
  | cons h _ ih => exact .cons h.1 ih

/-- No block of the whole chain lies more than two minutes ahead of the time. -/
theorem tracks_of_timed_run (hi : genesis.index = 0) (hpot : pot < 2 ^ 64) {ds : List Delivery}
    {start : ℕ} {s : Timed}
    (run : Runs.Run (DeliversBetween core) ⟨fresh env pot genesis, start⟩ ds s) :
    ∃ full, Tracks core env pot genesis s.node full ∧
      ∀ x ∈ full.blocks.tail, x.timestamp ≤ s.time + 120 := by
  have hstep := run.invariant (P := fun s : Timed => Sound core s.node ∧
    ∃ full, Tracks core env pot genesis s.node full ∧
      ∀ x ∈ full.blocks.tail, x.timestamp ≤ s.time + 120) ?_
    ⟨sound_fresh hi, _, tracks_fresh hi, by simp [freshChain, Blockchain.seedPot, Blockchain.new]⟩
  · exact hstep.2
  rintro s d s' ⟨⟨⟨hfits, outcome, happ⟩, hrep⟩, hclock⟩ ⟨hn, full, ht, htimes⟩
  have heff := effect_of_applyBlock happ
  obtain ⟨full', ht', hnew, -⟩ := ht.step hn hi hpot hfits heff hrep
  refine ⟨hn.step heff, full', ht', fun x hx => ?_⟩
  rcases hnew x hx with hx | ⟨k, hk⟩
  · have := htimes x hx
    have := hclock 0
    omega
  · have := hclock k
    omega

/-- The derived state of a node is that of a fresh chain to which the blocks of its canonical chain
are applied in order, at any later time, without any pruning. -/
theorem derivedState_of_canonicalChain (hi : genesis.index = 0) (hpot : pot < 2 ^ 64)
    {ds : List Delivery} {start : ℕ} {s : Timed}
    (run : Runs.Run (DeliversBetween core) ⟨fresh env pot genesis, start⟩ ds s)
    (clock : ℕ → ℕ) (hclock : ∀ k, s.time ≤ clock k) :
    ∃ rest full, s.node.canonicalChain = genesis :: rest ∧
      Blockchain.applyAll core clock (freshChain env pot genesis) rest = .ok (some full) ∧
      s.node.chain.toDerivedState = full.toDerivedState := by
  obtain ⟨full, ht, htimes⟩ := tracks_of_timed_run hi hpot run
  obtain ⟨rest, hrest, hgrow⟩ := ht.blocks
  refine ⟨rest, full, ht.canonicalChain.trans hrest, hgrow.applyAll fun x hx k => ?_,
    ht.pruned.derived⟩
  have := htimes x (by rw [hrest]; exact hx)
  have := hclock k
  omega

end Node

namespace Sample

/-- A block, a rival that displaces it, and a child of the rival. -/
def rivalDeliveries : List Node.Delivery :=
  [mainBlock, rivalBlock, rivalChild].map fun b => ⟨b, around 1748000160⟩

theorem rivalRun : ∃ n, Runs.Run (Node.DeliversCompletely plainCore) node rivalDeliveries n ∧
    n.canonicalChain = [genesis, rivalBlock, rivalChild] := by
  have hrun : (runCompletely node rivalDeliveries).map Node.canonicalChain =
      some [genesis, rivalBlock, rivalChild] := by
    decide +kernel
  obtain ⟨n, hn, hchain⟩ := Option.map_eq_some_iff.mp hrun
  exact ⟨n, run_of_runCompletely hn, hchain⟩

theorem rival_derivedState : ∃ (n : Node) (rest : List Block) (full : Blockchain),
    n.canonicalChain = [genesis, rivalBlock, rivalChild] ∧
    n.canonicalChain = genesis :: rest ∧
    Blockchain.applyAll plainCore (fun _ => 1748000160)
      (Node.freshChain none Node.genesisPotAmount genesis) rest = .ok (some full) ∧
    n.chain.toDerivedState = full.toDerivedState := by
  obtain ⟨n, hrun, hchain⟩ := rivalRun
  have htimed : Runs.Run (Node.DeliversBetween plainCore)
      ⟨Node.fresh none Node.genesisPotAmount genesis, 1748000160⟩ rivalDeliveries
      ⟨n, 1748000160⟩ := Node.run_between (by simp [rivalDeliveries, around]) hrun
  obtain ⟨rest, full, h⟩ := Node.derivedState_of_canonicalChain rfl (by decide) htimed
    (fun _ => 1748000160) (fun _ => Nat.le_refl _)
  exact ⟨n, rest, full, hchain, h⟩

end Sample

end Lootcoin
