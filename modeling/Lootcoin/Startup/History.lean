import Lootcoin.Node.Snapshots
import Lootcoin.Startup.Reorg

/-! What a node says of its history.  Every start advertises the lowest height from which the node
claims to have all blocks.  The value is not stored: a start with stored blocks says zero, which is
true as long as the first start of the node began at height zero. -/

namespace Lootcoin

namespace Blockchain

variable {core : Core} {ambient : Ambient} {c c' : Blockchain} {b : Block} {outcome : BlockOutcome}
  {stored : OrderedTable ℕ Block}

/-- A chain whose blocks and orphans are stored under their indices, as is every index below the
window. -/
structure DrawnFrom (stored : OrderedTable ℕ Block) (c : Blockchain) : Prop where
  contiguous : c.Contiguous
  window : ∀ b ∈ c.blocks, stored.get b.index = some b
  pool : ∀ k b, c.orphanPool.lookup k = some b → stored.get b.index = some b
  below : ∀ i < c.blocksOffset, ∃ b, stored.get i = some b

/-- A chain of one stored block, with all indices stored below it. -/
theorem drawnFrom_of_blocks (hblocks : c.blocks = [b]) (hpool : c.orphanPool = ∅)
    (hindex : b.index = c.blocksOffset) (hb : stored.get b.index = some b)
    (hbelow : ∀ i < c.blocksOffset, ∃ b, stored.get i = some b) : c.DrawnFrom stored := by
  refine ⟨⟨by simp [hblocks], fun i x hx => ?_⟩, fun x hx => ?_, fun k x hx => ?_, hbelow⟩
  · rw [hblocks, List.getElem?_singleton] at hx
    split at hx
    · cases hx
      omega
    · cases hx
  · rw [hblocks, List.mem_singleton] at hx
    exact hx ▸ hb
  · simp [hpool] at hx

theorem DrawnFrom.get (hd : c.DrawnFrom stored) :
    ∀ i < c.getHeight, ∃ b, stored.get i = some b := by
  intro i hi
  rw [getHeight] at hi
  by_cases hlt : i < c.blocksOffset
  · exact hd.below i hlt
  · have hin : i - c.blocksOffset < c.blocks.length := by omega
    have hb : c.blocks[i - c.blocksOffset]? = some c.blocks[i - c.blocksOffset] :=
      List.getElem?_eq_getElem hin
    have hstored := hd.window _ (List.mem_of_getElem? hb)
    have hindex : c.blocks[i - c.blocksOffset].index = i := by
      rw [hd.contiguous.index _ _ hb]
      omega
    exact ⟨_, hindex ▸ hstored⟩

/-- A stored block that is applied without a database leaves a chain of stored blocks. -/
theorem DrawnFrom.applied (hd : c.DrawnFrom stored) (hb : stored.get b.index = some b)
    (h : c.applyInMemory core ambient b none = .ok (outcome, c')) : c'.DrawnFrom stored := by
  rcases applyInMemory_eq_ok.mp h with ⟨-, hup⟩ | ⟨-, rfl, -⟩ | ⟨-, hadm, -⟩ |
    ⟨old, fork, ancestor, new, -, hre⟩
  · have ha := appended_of_updateState hup
    refine ⟨hd.contiguous.append ha, fun x hx => ?_, ha.orphanPool ▸ hd.pool,
      ha.blocksOffset ▸ hd.below⟩
    rw [ha.blocks] at hx
    rcases List.mem_append.mp hx with hx | hx
    · exact hd.window x hx
    · exact List.mem_singleton.mp hx ▸ hb
  · exact hd
  · obtain ⟨-, -, -, rfl⟩ := admits_eq_some.mp hadm
    refine ⟨⟨hd.contiguous.nonempty, hd.contiguous.index⟩, hd.window, fun k x hx => ?_, hd.below⟩
    rcases lookup_admitOrphan hx with ⟨-, rfl⟩ | hx
    · exact hb
    · exact hd.pool k x hx
  · -- the rebuilt chain begins at height zero, with a block that says so
    have hnew : ∀ x ∈ new, stored.get x.index = some x := by
      have hfork : ∀ x ∈ fork, stored.get x.index = some x := by
        intro x hx
        rcases hre.mem_fork hx with rfl | ⟨k, hk⟩
        · exact hb
        · exact hd.pool k x hk
      rcases splice_eq_ok.mp hre.splice with ⟨-, -, rfl, -⟩ | ⟨-, rfl, -⟩
      · intro x hx
        rcases List.mem_append.mp hx with hx | hx
        · exact hd.window x (List.mem_of_mem_take hx)
        · exact hfork x hx
      · exact hfork
    rcases reorgTo_eq_ok.mp hre.rebuilt with ⟨hnone, -⟩ | ⟨g, rest, hsome, hreplay⟩
    · obtain ⟨-, -, -, -, hfound⟩ := withHistory_none hnone
      cases hfound
    · obtain ⟨g', rest', rfl, hg, hfound⟩ := withHistory_none hsome
      cases hfound
      obtain ⟨done, hdone, hgrow⟩ := replay_grows hreplay
      refine ⟨(contiguous_reset hg).grows hgrow, fun x hx => ?_, fun k x hx => ?_, fun i hi => ?_⟩
      · rw [hgrow.blocks] at hx
        exact hnew x ((List.cons_prefix_cons.mpr ⟨rfl, hdone⟩).subset hx)
      · rw [hgrow.orphanPool] at hx
        simp [reset] at hx
      · rw [hgrow.blocksOffset] at hi
        exact absurd hi (Nat.not_lt_zero i)

/-- A replay of stored blocks leaves a chain of stored blocks. -/
theorem DrawnFrom.applyStored {ambients : ℕ → Ambient} {bs : List Block}
    {outcomes : List BlockOutcome} (hd : c.DrawnFrom stored)
    (hbs : ∀ b ∈ bs, stored.get b.index = some b)
    (h : Node.applyStored core ambients c bs = .ok (outcomes, c')) : c'.DrawnFrom stored := by
  induction bs generalizing c ambients outcomes with
  | nil =>
    cases h
    exact hd
  | cons b bs ih =>
    obtain ⟨⟨outcome, d⟩, hstep, h⟩ := Fallible.bind_eq_ok.mp h
    obtain ⟨⟨outcomes', d'⟩, hrest, h⟩ := Fallible.bind_eq_ok.mp h
    cases Fallible.pure_eq_ok.mp h
    exact ih (hd.applied (hbs b List.mem_cons_self) hstep)
      (fun x hx => hbs x (List.mem_cons_of_mem _ hx)) hrest

/-- No block that is applied leaves a chain without blocks. -/
theorem applyInMemory_blocks_ne_nil {db : Option BlockReader} (hc : c.blocks ≠ [])
    (h : c.applyInMemory core ambient b db = .ok (outcome, c')) : c'.blocks ≠ [] := by
  rcases applyInMemory_eq_ok.mp h with ⟨-, hup⟩ | ⟨-, rfl, -⟩ | ⟨-, hadm, -⟩ |
    ⟨old, fork, ancestor, new, -, hre⟩
  · simp [(appended_of_updateState hup).blocks]
  · exact hc
  · obtain ⟨-, -, -, rfl⟩ := admits_eq_some.mp hadm
    exact hc
  · rcases reorgTo_eq_ok.mp hre.rebuilt with ⟨-, rfl⟩ | ⟨g, rest, -, hreplay⟩
    · exact hc
    · obtain ⟨done, -, hgrow⟩ := replay_grows hreplay
      rw [hgrow.blocks]
      exact List.cons_ne_nil _ _

theorem applyStored_blocks_ne_nil {ambients : ℕ → Ambient} {bs : List Block}
    {outcomes : List BlockOutcome} (hc : c.blocks ≠ [])
    (h : Node.applyStored core ambients c bs = .ok (outcomes, c')) : c'.blocks ≠ [] := by
  induction bs generalizing c ambients outcomes with
  | nil =>
    cases h
    exact hc
  | cons b bs ih =>
    obtain ⟨⟨outcome, d⟩, hstep, h⟩ := Fallible.bind_eq_ok.mp h
    obtain ⟨⟨outcomes', d'⟩, hrest, h⟩ := Fallible.bind_eq_ok.mp h
    cases Fallible.pure_eq_ok.mp h
    exact ih (applyInMemory_blocks_ne_nil hc hstep) hrest

end Blockchain

namespace Node

variable {core : Core} {ambient : Ambient} {n n' : Node} {b : Block} {outcome : BlockOutcome}

/-- A node that has stored a block for every index below its height, under their indices, and below
every checkpoint. -/
structure StoresAll (n : Node) : Prop where
  contiguous : n.chain.Contiguous
  keys : ∀ i b, n.db.blocks.get i = some b → b.index = i
  blocks : ∀ i < n.chain.getHeight, ∃ b, n.db.blocks.get i = some b
  checkpoints : ∀ height state, n.db.checkpoints.get height = some state →
    ∀ i ≤ height, ∃ b, n.db.blocks.get i = some b

theorem StoresAll.genesis (hn : n.StoresAll) : ∃ g, n.db.blocks.get 0 = some g := by
  refine hn.blocks 0 ?_
  have := List.length_pos_of_ne_nil hn.contiguous.nonempty
  rw [Blockchain.getHeight]
  omega

/-- The chain that a reorganization rebuilds begins at height zero, with a block that says so, and
each of its blocks is of the fork or stored, and then not displaced. -/
theorem StoresAll.rebuilds (hn : n.StoresAll) {old fork new : List Block} {ancestor : ℕ}
    {c' : Blockchain}
    (h : n.chain.Reorganizes core ambient b (some n.db.reader) old fork c' ancestor new) :
    c'.Contiguous ∧ c'.blocksOffset = 0 ∧ ∀ x ∈ c'.blocks, x ∈ fork ∨
      (∃ y, n.db.blocks.get x.index = some y) ∧ ∀ y ∈ old, x.index < y.index := by
  have hold := hn.contiguous.ancestor_lt h.splice
  obtain ⟨-, -, first, -, -, -, hfirst, -⟩ := Blockchain.fork_of_findLongestFork h.found
  obtain ⟨l, rfl⟩ : ∃ l, fork = first :: l := List.head?_eq_some_iff.mp hfirst
  -- the first block of the new chain lies at most one above the ancestor, or nothing is displaced
  obtain ⟨x, l', rfl, hx, hnew⟩ : ∃ x l', new = x :: l' ∧ (∀ y ∈ old, x.index < y.index + 1) ∧
      ∀ y ∈ new, y ∈ first :: l ∨
        (∃ z, n.db.blocks.get y.index = some z) ∧ ∀ z ∈ old, y.index < z.index := by
    rcases Blockchain.splice_eq_ok.mp h.splice with ⟨hwindow, -, rfl, -⟩ | ⟨-, rfl, rfl⟩
    · obtain ⟨x, l', hx⟩ := List.exists_cons_of_ne_nil hn.contiguous.nonempty
      have hxi := hn.contiguous.index 0 x (by simp [hx])
      refine ⟨x, l'.take (ancestor - n.chain.blocksOffset) ++ first :: l,
        by rw [hx, List.take_succ_cons, List.cons_append], fun y hy => ?_, fun y hy => ?_⟩
      · have := hold y hy
        omega
      · rcases List.mem_append.mp hy with hy | hy
        · obtain ⟨i, hi⟩ := List.mem_iff_getElem?.mp hy
          have hlt := (List.getElem?_eq_some_iff.mp hi).1
          rw [List.length_take] at hlt
          rw [List.getElem?_take_of_lt (by omega)] at hi
          have hyi := hn.contiguous.index i y hi
          refine .inr ⟨hn.blocks y.index (by rw [Blockchain.getHeight]; omega), fun z hz => ?_⟩
          have := hold z hz
          omega
        · exact .inl hy
    · exact ⟨first, l, rfl, by simp, fun y hy => .inl hy⟩
  obtain ⟨g₀, hget⟩ := hn.genesis
  have hzero := hn.keys 0 g₀ hget
  rcases Blockchain.reorgTo_eq_ok.mp h.rebuilt with ⟨hnone, -⟩ | ⟨g, rest, hsome, hreplay⟩
  · obtain ⟨_, _, heq, -⟩ := Db.withHistory_reader hget hzero hnone
    cases heq
  obtain ⟨g', rest', heq, hg, hmem⟩ := Db.withHistory_reader hget hzero hsome
  cases heq
  obtain ⟨done, hdone, hgrow⟩ := Blockchain.replay_grows hreplay
  refine ⟨(Blockchain.contiguous_reset hg).grows hgrow, hgrow.blocksOffset, fun y hy => ?_⟩
  rw [hgrow.blocks] at hy
  rcases hmem y ((List.cons_prefix_cons.mpr ⟨rfl, hdone⟩).subset hy) with hy | hy
  · exact hnew y hy
  · obtain ⟨i, -, hlt, hi⟩ := Db.mem_getBlocksRange hy
    obtain rfl := hn.keys i y hi
    refine .inr ⟨⟨y, hi⟩, fun z hz => ?_⟩
    have := hx z hz
    omega

/-- What a reorganization stores: the blocks of the fork, and those that it does not displace. -/
theorem get_foldl_of_kept {old new : List Block} {t : OrderedTable ℕ Block} {i : ℕ}
    (h : (∃ x ∈ new, x.index = i) ∨ (∃ x, t.get i = some x) ∧ ∀ x ∈ old, i < x.index) :
    ∃ x, (new.foldl (fun t b => t.insert b.index b)
      (old.foldl (fun t b => t.remove b.index) t)).get i = some x := by
  rcases get_foldl_insert new (old.foldl (fun t b => t.remove b.index) t) i with
    ⟨y, -, -, hget⟩ | ⟨hno, hget⟩
  · exact ⟨y, hget⟩
  · rcases h with ⟨x, hx, hxi⟩ | ⟨hstored, hold⟩
    · exact absurd (List.mem_map.mpr ⟨x, hx, hxi⟩) hno
    · rw [hget, get_foldl_remove, if_neg]
      · exact hstored
      · rintro hmem
        obtain ⟨x, hx, hxi⟩ := List.mem_map.mp hmem
        have := hold x hx
        omega

theorem StoresAll.applied (hn : n.StoresAll) {chain : Blockchain}
    {payouts : HashTable ℕ (List Payout)} (hup : Blockchain.Appended core n.chain b chain)
    (hchain : n'.chain = Blockchain.pruneToWindow { chain with settledPayoutsByBlock := payouts })
    (hblocks : n'.db.blocks = n.db.blocks.insert b.index b)
    (hcheckpoints : ∀ height state, n'.db.checkpoints.get height = some state →
      n.db.checkpoints.get height = some state ∨ height = b.index) : n'.StoresAll := by
  have hcontiguous := (hn.contiguous.append hup).withPayouts payouts
  have hheight : n'.chain.getHeight = n.chain.getHeight + 1 := by
    rw [hchain, Blockchain.pruneToWindow_getHeight hcontiguous.nonempty]
    exact hup.getHeight
  have hkept : ∀ i, (∃ x, n.db.blocks.get i = some x) ∨ i = b.index →
      ∃ x, n'.db.blocks.get i = some x := by
    intro i hi
    rw [hblocks]
    by_cases hb : i = b.index
    · exact ⟨b, by rw [hb, OrderedTable.get_insert]⟩
    · rw [OrderedTable.get_insert_ne _ _ hb]
      exact hi.resolve_right hb
  have hall : ∀ i < n'.chain.getHeight, ∃ x, n'.db.blocks.get i = some x := by
    intro i hi
    rw [hheight] at hi
    rcases Nat.lt_succ_iff_lt_or_eq.mp hi with hi | hi
    · exact hkept i (.inl (hn.blocks i hi))
    · exact hkept i (.inr (hi.trans hup.index.symm))
  refine ⟨hchain ▸ hcontiguous.prune,
    fun i x hx => index_of_get_insert hn.keys b (hblocks ▸ hx), hall, ?_⟩
  intro height state hstate i hi
  rcases hcheckpoints height state hstate with hstate | rfl
  · exact hkept i (.inl (hn.checkpoints height state hstate i hi))
  · have := hup.index
    exact hall i (by omega)

theorem StoresAll.reorged (hn : n.StoresAll) {old fork new : List Block} {ancestor : ℕ}
    {chain : Blockchain} {payouts : HashTable ℕ (List Payout)}
    (hre : n.chain.Reorganizes core ambient b (some n.db.reader) old fork chain ancestor new)
    (hchain : n'.chain = Blockchain.pruneToWindow { chain with settledPayoutsByBlock := payouts })
    (hblocks : n'.db.blocks = fork.foldl (fun t b => t.insert b.index b)
      (old.foldl (fun t b => t.remove b.index) n.db.blocks))
    (hcheckpoints : ∀ height state, n'.db.checkpoints.get height = some state →
      n.db.checkpoints.get height = some state ∧ height < deletedFrom old) : n'.StoresAll := by
  obtain ⟨hrebuilt, hoffset, hmem⟩ := hn.rebuilds hre
  have hcontiguous := hrebuilt.withPayouts payouts
  refine ⟨hchain ▸ hcontiguous.prune,
    fun i x hx => index_of_get_foldl hn.keys old fork (hblocks ▸ hx), fun i hi => ?_,
    fun height state hstate i hi => ?_⟩
  · rw [hchain, Blockchain.pruneToWindow_getHeight hcontiguous.nonempty, Blockchain.getHeight] at hi
    replace hi : i < chain.blocksOffset + chain.blocks.length := hi
    rw [hoffset, Nat.zero_add] at hi
    have hx := hrebuilt.index i _ (List.getElem?_eq_getElem hi)
    rw [hoffset, Nat.zero_add] at hx
    rw [hblocks]
    apply get_foldl_of_kept
    rcases hmem _ (List.getElem_mem hi) with hfork | ⟨hstored, hold⟩
    · exact .inl ⟨_, hfork, hx⟩
    · rw [hx] at hstored hold
      exact .inr ⟨hstored, hold⟩
  · obtain ⟨hstate, hlt⟩ := hcheckpoints height state hstate
    rw [hblocks]
    refine get_foldl_of_kept (.inr ⟨hn.checkpoints height state hstate i hi, fun x hx => ?_⟩)
    have := hn.contiguous.ancestor_lt hre.splice x hx
    have := deletedFrom_le hn.contiguous hre.splice
    omega

theorem StoresAll.step (hn : n.StoresAll) (h : n.applyBlock core ambient b = .ok (outcome, n')) :
    n'.StoresAll := by
  cases effect_of_applyBlock h with
  | applied hup hchain hblocks =>
    have happ := Blockchain.appended_of_updateState hup
    refine hn.applied happ hchain hblocks fun height state hk => ?_
    rcases get_checkpoints h hk with ⟨hk, -⟩ | ⟨-, -, hindex, -⟩
    · exact .inl hk
    · exact .inr hindex
  | rejected _ _ heq => exact heq ▸ hn
  | orphaned _ _ heq =>
    rw [heq]
    exact ⟨⟨hn.contiguous.nonempty, hn.contiguous.index⟩, hn.keys, hn.blocks, hn.checkpoints⟩
  | reorged hre hchain hblocks =>
    refine hn.reorged hre hchain hblocks fun height state hk => ?_
    rcases get_checkpoints h hk with ⟨hk, hkept⟩ | ⟨chain, hup, -⟩
    · exact ⟨hk, hkept _ _ rfl⟩
    · cases hup.symm.trans (Blockchain.admits_eq_some.mp hre.admits).1

end Node

namespace Startup

open Started

variable {core : Core} {trusted : List TrustedCheckpoint} {env : Environment} {db : Db}
  {s : Started} {n : Node}

/-! ### One start -/

/-- A start whose chain is drawn from the stored blocks leaves a node that has stored them all. -/
theorem storesAll_of_drawnFrom (hd : s.chain.DrawnFrom s.db.blocks)
    (hkeys : ∀ i b, s.db.blocks.get i = some b → b.index = i)
    (hcheckpoints : ∀ height state, s.db.checkpoints.get height = some state →
      ∀ i ≤ height, ∃ b, s.db.blocks.get i = some b) : (s.finish core).node.StoresAll := by
  obtain ⟨tickets, txIndex, lotteryPayouts, hfinish⟩ := finish_eq core s
  have hcontiguous := hd.contiguous.withPayouts ∅
  obtain ⟨hnonempty, hindex⟩ := hcontiguous.prune
  rw [hfinish]
  refine ⟨⟨hnonempty, hindex⟩, hkeys, fun i hi => hd.get i ?_, hcheckpoints⟩
  exact (Blockchain.pruneToWindow_getHeight hcontiguous.nonempty) ▸ hi

/-- The first start of a node at height zero. -/
theorem storesAll_of_first {b : Block} (hblocks : s.chain.blocks = [b])
    (hpool : s.chain.orphanPool = ∅) (hoffset : s.chain.blocksOffset = 0) (hb : b.index = 0)
    (hstored : s.db.blocks = OrderedTable.empty.insert b.index b)
    (hcheckpoints : ∀ height state, s.db.checkpoints.get height = some state → height = 0) :
    (s.finish core).node.StoresAll := by
  have hget : s.db.blocks.get b.index = some b := by rw [hstored, OrderedTable.get_insert]
  have hfirst : b.index = s.chain.blocksOffset := hb.trans hoffset.symm
  refine storesAll_of_drawnFrom (Blockchain.drawnFrom_of_blocks hblocks hpool hfirst hget
    fun i hi => ?_) (fun i x hx => ?_) fun height state hstate i hi => ?_
  · rw [hoffset] at hi
    exact absurd hi (Nat.not_lt_zero i)
  · rw [hstored] at hx
    obtain ⟨rfl, rfl⟩ := OrderedTable.get_insert_empty.mp hx
    rfl
  · obtain rfl := hcheckpoints height state hstate
    obtain rfl := Nat.le_zero.mp hi
    exact ⟨b, hb ▸ hget⟩

/-- A start with the database of a node that has stored all blocks leaves such a node, which says
so. -/
theorem storesAll_of_restart (hn : n.StoresAll) (hs : startNode core trusted env n.db = .ok s) :
    s.node.StoresAll ∧ s.historyStart = 0 := by
  obtain ⟨s₀, hstart, h⟩ := Fallible.bind_eq_ok.mp hs
  cases Fallible.pure_eq_ok.mp h
  obtain ⟨g, hg⟩ := hn.genesis
  obtain ⟨rest, hload⟩ := OrderedTable.values_of_get_zero hg
  have hgi := hn.keys 0 g hg
  have hstored : ∀ x ∈ g :: rest, n.db.blocks.get x.index = some x := by
    intro x hx
    rw [← hload] at hx
    obtain ⟨⟨i, y⟩, hy, rfl⟩ := List.mem_map.mp hx
    have hget := OrderedTable.mem_entries.mp hy
    rw [hn.keys i y hget]
    exact hget
  have hne : n.db.loadCanonicalChain ≠ [] := by
    rw [Db.loadCanonicalChain, hload]
    exact List.cons_ne_nil _ _
  cases restores_of_startChain hne hstart with
  | @replay outcomes chain db' hboot hdb =>
    rw [Node.bootByReplay, Db.loadCanonicalChain, hload] at hboot
    have hd : chain.DrawnFrom n.db.blocks := by
      refine Blockchain.DrawnFrom.applyStored (Blockchain.drawnFrom_of_blocks (b := g) rfl rfl hgi
        (hstored g List.mem_cons_self) fun i hi => absurd hi (Nat.not_lt_zero i))
        (fun x hx => hstored x (List.mem_cons_of_mem _ hx)) hboot
    rcases hdb with rfl | rfl
    · exact ⟨storesAll_of_drawnFrom hd hn.keys hn.checkpoints, rfl⟩
    · refine ⟨storesAll_of_drawnFrom hd hn.keys fun height state hstate => ?_, rfl⟩
      rw [Db.deleteCheckpointsFrom, OrderedTable.get_removeFrom, if_neg (Nat.not_lt_zero _)]
        at hstate
      cases hstate
  | @checkpoint height state cpBlock stored outcomes chain hlatest hget _ hboot =>
    have hsaved : n.db.checkpoints.get height = some state :=
      OrderedTable.mem_entries.mp (List.mem_of_getLast? hlatest)
    -- the block at the height of the checkpoint
    have hcp : n.db.blocks.get cpBlock.index = some cpBlock ∧ cpBlock.index = height := by
      obtain ⟨i, hle, hlt, hi⟩ := Db.mem_getBlocksRange (hget ▸ List.mem_cons_self)
      obtain rfl := hn.keys i cpBlock hi
      exact ⟨hi, by omega⟩
    rw [Node.bootFromCheckpoint, Db.loadCanonicalChain, hload, hget] at hboot
    have hd : chain.DrawnFrom n.db.blocks := by
      refine Blockchain.DrawnFrom.applyStored (Blockchain.drawnFrom_of_blocks (b := cpBlock) rfl rfl
        hcp.2 hcp.1 fun i hi => hn.checkpoints height state hsaved i hi.le) (fun x hx => ?_) hboot
      obtain ⟨⟨i, y⟩, hy, rfl⟩ := List.mem_map.mp hx
      have hi := OrderedTable.mem_entries.mp (List.mem_filter.mp hy).1
      rw [hn.keys i y hi]
      exact hi
    exact ⟨storesAll_of_drawnFrom hd hn.keys hn.checkpoints, rfl⟩

/-! ### The life of a node -/

/-- What a node claims of its history is true: from the height that it advertises up to the tip, a
block is stored at every index. -/
def TellsTruth (s : Started) : Prop :=
  ∀ i, s.historyStart ≤ i → i < s.chain.getHeight → ∃ b, s.db.blocks.get i = some b

/-- The database that a node finds when it starts, which is empty the first time. -/
def storedDb : Option Started → Db
  | none => .empty
  | some s => s.db

inductive LifeEvent
  | boot (env : Environment)
  | apply (d : Node.Delivery)

/-- A node starts with what it has stored, or is given a block while it runs. -/
inductive Lives (core : Core) (trusted : List TrustedCheckpoint) :
    Option Started → LifeEvent → Option Started → Prop
  | boot {life : Option Started} {env : Environment} {s : Started} :
      startNode core trusted env (storedDb life) = .ok s →
      Lives core trusted life (.boot env) (some s)
  | apply {s : Started} {d : Node.Delivery} {n : Node} : s.node.Delivers core d n →
      Lives core trusted (some s) (.apply d) (some { s with chain := n.chain, db := n.db })

/-- A first start gets no snapshot whose block lies at another height, and a later start follows one
that has advertised zero. -/
def StartsWell (trusted : List TrustedCheckpoint) : Option Started → LifeEvent → Prop
  | none, .boot env => ∀ height k p cpBlock, env.archive = false →
      OffersFirst trusted env.peers env.answers k height p cpBlock → cpBlock.index = height
  | some s, .boot _ => s.historyStart = 0
  | _, .apply _ => True

theorem finish_getHeight (hne : s.chain.blocks ≠ []) :
    (s.finish core).chain.getHeight = s.chain.getHeight := by
  obtain ⟨tickets, txIndex, lotteryPayouts, hfinish⟩ := finish_eq core s
  rw [hfinish]
  exact Blockchain.pruneToWindow_getHeight (c := { s.chain with settledPayoutsByBlock := ∅ }) hne

theorem finish_blocks : (s.finish core).db.blocks = s.db.blocks := by
  obtain ⟨tickets, txIndex, lotteryPayouts, hfinish⟩ := finish_eq core s
  rw [hfinish]

theorem tellsTruth_of_storesAll (h : s.node.StoresAll) : TellsTruth s :=
  fun i _ hi => h.blocks i hi

/-- The snapshot with which a first start begins. -/
def firstSnapshot (env : Environment) (height : ℕ) (p : SnapshotPayload) (cpBlock : Block) :
    Started :=
  fromSnapshot env ((Db.empty.saveBlockIndexed cpBlock).saveCheckpoint height (p.state cpBlock))
    height (p.state cpBlock) cpBlock

/-- A first start begins with a snapshot or with a genesis block, and all blocks are stored. -/
theorem startNode_empty (hs : startNode core trusted env .empty = .ok s) :
    (∃ height k p cpBlock, env.archive = false ∧
      OffersFirst trusted env.peers env.answers k height p cpBlock ∧
      s = (firstSnapshot env height p cpBlock).finish core) ∨
    s.node.StoresAll ∧ s.historyStart = 0 := by
  obtain ⟨s₀, hstart, h⟩ := Fallible.bind_eq_ok.mp hs
  cases Fallible.pure_eq_ok.mp h
  rw [startChain_of_empty rfl] at hstart
  rcases startEmpty_cases hstart with ⟨height, k, p, cpBlock, harchive, hoffers, rfl⟩ |
    ⟨root, -, rfl⟩
  · exact .inl ⟨height, k, p, cpBlock, harchive, hoffers, rfl⟩
  · exact .inr ⟨storesAll_of_first rfl rfl rfl rfl rfl nofun, rfl⟩

/-- A snapshot is stored where it is advertised exactly when its block lies at its height. -/
theorem tellsTruth_firstSnapshot_iff {height : ℕ} {p : SnapshotPayload} {cpBlock : Block} :
    TellsTruth ((firstSnapshot env height p cpBlock).finish core) ↔ cpBlock.index = height := by
  have hheight : ((firstSnapshot env height p cpBlock).finish core).chain.getHeight = height + 1 :=
    finish_getHeight (s := firstSnapshot env height p cpBlock) (List.cons_ne_nil _ _)
  have hblocks : ((firstSnapshot env height p cpBlock).finish core).db.blocks =
    OrderedTable.empty.insert cpBlock.index cpBlock := finish_blocks
  constructor
  · intro h
    obtain ⟨b, hb⟩ := h height (Nat.le_refl _) (by omega)
    rw [hblocks] at hb
    exact (OrderedTable.get_insert_empty.mp hb).1.symm
  · intro hindex i hle hlt
    obtain rfl : i = cpBlock.index := by
      have : height ≤ i := hle
      omega
    exact ⟨cpBlock, by rw [hblocks, OrderedTable.get_insert]⟩

/-- A first start tells the truth exactly when it starts well. -/
theorem tellsTruth_first_iff (hs : startNode core trusted env .empty = .ok s) :
    TellsTruth s ↔ StartsWell trusted none (.boot env) := by
  have hsnapshot : ∀ {height k p cpBlock}, env.archive = false →
      OffersFirst trusted env.peers env.answers k height p cpBlock →
      s = (firstSnapshot env height p cpBlock).finish core := by
    intro height k p cpBlock harchive hoffers
    have hempty : startEmpty core trusted env .empty = .ok (firstSnapshot env height p cpBlock) :=
      startEmpty_of_offersFirst harchive hoffers
    rw [startNode, startChain_of_empty rfl, hempty] at hs
    cases hs
    rfl
  constructor
  · rintro h height k p cpBlock harchive hoffers
    exact tellsTruth_firstSnapshot_iff.mp (hsnapshot harchive hoffers ▸ h)
  · intro h
    rcases startNode_empty hs with ⟨height, k, p, cpBlock, harchive, hoffers, rfl⟩ | ⟨hall, -⟩
    · exact tellsTruth_firstSnapshot_iff.mpr (h height k p cpBlock harchive hoffers)
    · exact tellsTruth_of_storesAll hall

/-- A start with stored blocks, none of them at index zero, does not tell the truth. -/
theorem not_tellsTruth_of_get_zero (hne : db.loadCanonicalChain ≠ [])
    (hzero : db.blocks.get 0 = none) (hs : startNode core trusted env db = .ok s) :
    ¬ TellsTruth s := by
  obtain ⟨s₀, hstart, h⟩ := Fallible.bind_eq_ok.mp hs
  cases Fallible.pure_eq_ok.mp h
  obtain ⟨hstored, hadvertised, hblocks⟩ : s₀.db.blocks = db.blocks ∧ s₀.historyStart = 0 ∧
      s₀.chain.blocks ≠ [] := by
    cases restores_of_startChain hne hstart with
    | @replay outcomes chain db' hboot hdb =>
      refine ⟨by rcases hdb with rfl | rfl <;> rfl, rfl, ?_⟩
      unfold Node.bootByReplay at hboot
      split at hboot
      · cases hboot
      · exact Blockchain.applyStored_blocks_ne_nil (List.cons_ne_nil _ _) hboot
    | @checkpoint height state cpBlock stored outcomes chain _ _ _ hboot =>
      refine ⟨rfl, rfl, ?_⟩
      unfold Node.bootFromCheckpoint at hboot
      split at hboot
      · exact Blockchain.applyStored_blocks_ne_nil (List.cons_ne_nil _ _) hboot
      · cases hboot
  intro htruth
  obtain ⟨b, hb⟩ := htruth 0 hadvertised.le <| by
    have := List.length_pos_of_ne_nil hblocks
    rw [finish_getHeight hblocks, Blockchain.getHeight]
    omega
  rw [finish_blocks, hstored, hzero] at hb
  cases hb

/-- A node that has started with a snapshot above height zero, and has made no reorganization, has
no block at index zero. -/
theorem get_zero_of_snapshot {s₀ : Started} {ds : List Node.Delivery}
    (hs : startNode core trusted env .empty = .ok s₀) (hpos : 0 < s₀.historyStart)
    (hlt : s₀.historyStart < 2 ^ 64) (htruth : TellsTruth s₀)
    (run : Runs.Run (Node.Extends core) s₀.node ds n) :
    n.db.loadCanonicalChain ≠ [] ∧ n.db.blocks.get 0 = none := by
  rcases startNode_empty hs with ⟨height, k, p, cpBlock, -, -, rfl⟩ | ⟨-, hadvertised⟩
  · have hindex := tellsTruth_firstSnapshot_iff.mp htruth
    obtain ⟨b, -, -, hstart⟩ := knowsFrom_of_startNode hs rfl rfl hlt fun x hx => by
      obtain rfl : x = cpBlock := List.mem_singleton.mp hx
      exact hindex
    have hk : n.KnowsFrom height b :=
      run.invariant (P := fun n => n.KnowsFrom height b) (fun h hk => hk.step h) hstart
    refine ⟨fun hempty => ?_, hk.below 0 hpos⟩
    have hmem := OrderedTable.mem_entries.mpr hk.stored
    rw [List.map_eq_nil_iff.mp hempty] at hmem
    cases hmem
  · omega

/-- What a node has stored, if it advertises zero and has started well. -/
theorem storesAll_of_lives {life life' : Option Started} {e : LifeEvent}
    (h : Lives core trusted life e life') (hwell : StartsWell trusted life e)
    (hlife : ∀ s ∈ life, s.historyStart = 0 → s.node.StoresAll) :
    ∀ s ∈ life', s.historyStart = 0 → s.node.StoresAll := by
  cases h with
  | @boot _ env s hs =>
    rintro _ ⟨⟩ hadvertised
    cases life with
    | none =>
      rcases startNode_empty hs with ⟨height, k, p, cpBlock, harchive, hoffers, rfl⟩ | ⟨hall, -⟩
      · obtain rfl : height = 0 := hadvertised
        have hzero := hwell 0 k p cpBlock harchive hoffers
        exact storesAll_of_first (s := firstSnapshot env 0 p cpBlock) rfl rfl rfl hzero rfl
          fun h _ hget => (OrderedTable.get_insert_empty.mp hget).1
      · exact hall
    | some s₀ => exact (storesAll_of_restart (hlife s₀ rfl hwell) hs).1
  | @apply s₀ d n hdelivers =>
    rintro _ ⟨⟩ hadvertised
    obtain ⟨-, outcome, happ⟩ := hdelivers
    exact (hlife s₀ rfl hadvertised).step happ

/-- In every life whose starts are all well, every start tells the truth.  A first start is well
exactly when it tells the truth.  Where it is well and has a snapshot above height zero, the next
start does not tell the truth, unless a reorganization has come before. -/
theorem tellsTruth_of_run (core : Core) (trusted : List TrustedCheckpoint) :
    (∀ es env s, Runs.Run (fun life e life' => Lives core trusted life e life' ∧
        StartsWell trusted life e) none (es ++ [.boot env]) (some s) → TellsTruth s) ∧
    (∀ env s, Lives core trusted none (.boot env) (some s) →
      (TellsTruth s ↔ StartsWell trusted none (.boot env))) ∧
    ∀ env env' s₀ ds n s, Lives core trusted none (.boot env) (some s₀) → TellsTruth s₀ →
      0 < s₀.historyStart → s₀.historyStart < 2 ^ 64 →
      Runs.Run (Node.Extends core) s₀.node ds n →
      Lives core trusted (some { s₀ with chain := n.chain, db := n.db }) (.boot env') (some s) →
      ¬ TellsTruth s := by
  refine ⟨fun es env s run => ?_, fun env s h => ?_,
    fun env env' s₀ ds n s hfirst htruth hpos hlt run hagain => ?_⟩
  · obtain ⟨life, hbefore, hlast⟩ := run.split
    obtain _ | ⟨⟨hboot, hwell⟩, hnil⟩ := hlast
    cases hnil
    have hlife : ∀ s ∈ life, s.historyStart = 0 → s.node.StoresAll :=
      hbefore.invariant (P := fun life => ∀ s ∈ life, s.historyStart = 0 → s.node.StoresAll)
        (fun h hlife => storesAll_of_lives h.1 h.2 hlife) (by simp)
    cases hboot with
    | boot hs =>
      cases life with
      | none => exact (tellsTruth_first_iff hs).mpr hwell
      | some s₀ => exact tellsTruth_of_storesAll (storesAll_of_restart (hlife s₀ rfl hwell) hs).1
  · cases h with
    | boot hs => exact tellsTruth_first_iff hs
  · cases hfirst with
    | boot hs =>
      obtain ⟨hne, hzero⟩ := get_zero_of_snapshot hs hpos hlt htruth run
      cases hagain with
      | boot hs' => exact not_tellsTruth_of_get_zero hne hzero hs'

end Startup

namespace Sample

open Startup

/-- A start from the genesis block although a snapshot is offered. -/
def archiveStart : Environment := { offeredSnapshot (payloadWithPot 1) with archive := true }

/-- A node starts from the genesis block, applies a block, and starts again. -/
theorem archive_tellsTruth : ∃ s, Runs.Run (fun life e life' =>
      Lives plainCore trustedAt1000 life e life' ∧ StartsWell trustedAt1000 life e) none
      ([.boot archiveStart, .apply (deliveryAbove mainBlock)] ++ [.boot archiveStart]) (some s) ∧
    s.chain.getHeight = 2 ∧ TellsTruth s := by
  have hrun : ((startNode plainCore trustedAt1000 archiveStart Db.empty).toOption.bind fun s =>
      (s.node.applyBlock plainCore (around 1748060200) mainBlock).toOption.bind fun r =>
        (startNode plainCore trustedAt1000 archiveStart r.2.db).toOption.map fun s' =>
          (s.historyStart, s'.chain.getHeight)) = some (0, 2) := by
    decide +kernel
  simp only [Option.bind_eq_some_iff, Option.map_eq_some_iff, Prod.mk.injEq,
    Fallible.toOption_eq_some] at hrun
  obtain ⟨s, hfirst, ⟨outcome, n⟩, happ, s', hagain, hadvertised, hheight⟩ := hrun
  have hfits : mainBlock.Fits := block_fits (by decide) (by decide) (by decide)
  have run : Runs.Run (fun life e life' => Lives plainCore trustedAt1000 life e life' ∧
      StartsWell trustedAt1000 life e) none
      ([.boot archiveStart, .apply (deliveryAbove mainBlock)] ++ [.boot archiveStart])
      (some s') := by
    refine .cons ⟨.boot hfirst, fun height k p cpBlock harchive => nomatch harchive⟩ ?_
    refine .cons ⟨.apply ⟨hfits, outcome, happ⟩, trivial⟩ ?_
    exact .cons ⟨.boot hagain, hadvertised⟩ (.nil _)
  exact ⟨s', run, hheight, (tellsTruth_of_run plainCore trustedAt1000).1 _ _ _ run⟩

/-- A node that has started with a snapshot at height 1000 advertises zero when it starts again, and
has no block below 1000. -/
theorem restarted_not_tellsTruth : ∃ s s' : Started,
    Lives plainCore trustedAt1000 none (.boot (offeredSnapshot (payloadWithPot 1))) (some s) ∧
    s.historyStart = 1000 ∧
    Lives plainCore trustedAt1000 (some s) (.boot (offeredSnapshot (payloadWithPot 1))) (some s') ∧
    s'.historyStart = 0 ∧ s'.chain.getHeight = 1001 ∧
    s'.db.blocks.get 0 = none ∧ ¬ TellsTruth s' := by
  have hagain : (startNode plainCore trustedAt1000 (offeredSnapshot (payloadWithPot 1))
      startedAt1000.db).toOption.map (fun s => (s.historyStart, s.chain.getHeight,
        s.db.blocks.get 0)) = some (0, 1001, none) := by
    decide +kernel
  obtain ⟨s', hagain, hobs⟩ := Fallible.exists_of_toOption_map hagain
  simp only [Prod.mk.injEq] at hobs
  obtain ⟨hadvertised, hheight, hzero⟩ := hobs
  refine ⟨startedAt1000, s', .boot startNode_startedAt1000, rfl, .boot hagain, hadvertised, hheight,
    hzero, fun h => ?_⟩
  obtain ⟨b, hb⟩ := h 0 hadvertised.le (by omega)
  cases hzero.symm.trans hb

end Sample

end Lootcoin
