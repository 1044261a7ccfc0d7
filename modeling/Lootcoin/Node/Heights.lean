import Lootcoin.Node.Sound
import Lootcoin.Sample

/-! The heights that blocks claim.  The checks on an orphan compute its difficulty from the index
that it claims and from the timestamp of its predecessor, and nothing ties the two together.  Where
every delivered block claims one more than its predecessor does, claims are heights, an orphan pays
the difficulty of its height, and every fork found is numbered from its ancestor on. -/

namespace Lootcoin

namespace Blockchain

variable {core : Core} {c : Blockchain} {b p : Block} {a : AsertAnchor} {order : PoolOrder}

/-- An orphan after `p` passes the checks only at the height after that of `p` and with the
difficulty of that height, where `p` lies at height `k`. -/
def PaysForHeight (core : Core) (c : Blockchain) (a : AsertAnchor) (b p : Block) (k : ℕ) : Prop :=
  c.validateBlockStandalone core b = true →
    b.index = p.index + 1 ∧ core.meetsDifficulty b.hash (asertTarget a k p.timestamp) = true

/-- The block has its hash, the work for the index that it claims, a claim within reach, and few
enough transactions. -/
def PaysForClaim (core : Core) (c : Blockchain) (a : AsertAnchor) (b p : Block) : Prop :=
  core.calculateHash b.toHeader = some b.hash ∧
  core.meetsDifficulty b.hash (if b.index - 1 < a.height then c.currentDifficulty
    else asertTarget a (b.index - 1) p.timestamp) = true ∧
  b.index ≤ c.getHeight + maxOrphanDepth ∧ nonCoinbaseCount b ≤ maxBlockTxs

/-- The timestamp found for a predecessor in the window or in the pool is that of the block. -/
theorem findBlockTimestamp_eq_some (hcore : core.CollisionFree) (hs : c.WindowSound core)
    (hw : c.WindowHashed core) (hp : p ∈ c.blocks ∨ ∃ h, c.orphanPool.lookup h = some p) :
    c.findBlockTimestamp p.hash = some p.timestamp := by
  unfold findBlockTimestamp
  cases hl : c.blockHashes.lookup p.hash with
  | some i =>
    obtain ⟨ho, x, hx, hxp⟩ := hs.hashes _ _ hl
    have htime : x.timestamp = p.timestamp := by
      rcases hp with hp | ⟨h, hp⟩
      · obtain ⟨j, hj⟩ := List.mem_iff_getElem?.mp hp
        have hi := hw.complete j p hj
        rw [hl, Option.some.injEq] at hi
        rw [hi, Nat.add_sub_cancel_left, hj, Option.some.injEq] at hx
        rw [hx]
      · have hvalid := (hs.pool h p hp).2
        rcases hw.valid x (List.mem_of_getElem? hx) with hx' | ⟨-, he⟩
        · exact congrArg Header.timestamp (hcore.injective hx' (hxp ▸ hvalid))
        · exact absurd (hxp.symm.trans he) (hcore.nonempty hvalid)
    simp [ho, hx, htime]
  | none =>
    rcases hp with hp | ⟨h, hp⟩
    · obtain ⟨j, hj⟩ := List.mem_iff_getElem?.mp hp
      exact absurd ((hw.complete j p hj).symm.trans hl) (by simp)
    · obtain ⟨rfl, -⟩ := hs.pool h p hp
      simp [hp]

/-- The checks on an orphan after a known block are those of its claim. -/
theorem validateBlockStandalone_iff_paysForClaim (ha : c.asertAnchor = some a)
    (hmin : minDifficulty ≤ a.difficulty)
    (ht : c.findBlockTimestamp b.previousHash = some p.timestamp) :
    c.validateBlockStandalone core b = true ↔ PaysForClaim core c a b p := by
  have hexpected : c.expectedDifficultyFor b = if b.index - 1 < a.height then c.currentDifficulty
      else asertTarget a (b.index - 1) p.timestamp := by
    simp only [expectedDifficultyFor, ha, if_neg (not_lt.mpr hmin), ht]
  rw [validateBlockStandalone_iff, hexpected, PaysForClaim]

/-- A path through a pool whose blocks claim one more than their predecessors is numbered from
its first block on. -/
theorem PoolPath.index {pool : HashTable Bytes Block} {h : Bytes} {path : List Block}
    (hnext : ∀ k x y, pool.lookup k = some x → (∃ k', pool.lookup k' = some y) →
      y.previousHash = k → y.index = x.index + 1)
    (hpath : PoolPath pool h path) {i : ℕ} {first x : Block} (hfirst : path.head? = some first)
    (hx : path[i]? = some x) : x.index = first.index + i := by
  induction hpath generalizing i x with
  | stop => simp at hfirst
  | @step h b path hb hpath ih =>
    rcases getElem?_snoc hx with hx | ⟨rfl, rfl⟩
    · have hne : path ≠ [] := by
        rintro rfl
        simp at hx
      rw [List.head?_append_of_ne_nil _ hne] at hfirst
      exact ih hfirst hx
    · cases hpath with
      | stop =>
        simp only [List.nil_append, List.head?_cons, Option.some.injEq] at hfirst
        rw [hfirst]
        rfl
      | @step _ y path' hy hpath' =>
        rw [List.head?_append_of_ne_nil _ (by simp)] at hfirst
        have hlast := ih hfirst (x := y) (i := path'.length) (by simp)
        have := hnext _ y b hy ⟨h, hb⟩ rfl
        rw [List.length_append, List.length_singleton]
        omega

end Blockchain

namespace Node

variable {core : Core} {ambient : Ambient} {n n' : Node} {b p : Block} {outcome : BlockOutcome}
  {env : Option ℚ} {pot : ℕ} {genesis : Block} {ds : List Delivery}

/-! ### Heights -/

/-- The block lies at a height: in the window, in the database below the window, or in the pool one
above its predecessor. An orphan whose predecessor the node does not have lies where it claims. -/
inductive HeightOf (n : Node) : Block → ℕ → Prop
  | window {i : ℕ} {p : Block} :
      n.chain.blocks[i]? = some p → HeightOf n p (n.chain.blocksOffset + i)
  | stored {i : ℕ} {p : Block} :
      i < n.chain.blocksOffset → n.db.blocks.get i = some p → HeightOf n p i
  | orphan {h : Bytes} {p q : Block} {k : ℕ} :
      n.chain.orphanPool.lookup h = some p → HeightOf n q k → p.previousHash = q.hash →
        HeightOf n p (k + 1)
  | dangling {h : Bytes} {p : Block} :
      n.chain.orphanPool.lookup h = some p → (∀ q, n.Holds q → p.previousHash ≠ q.hash) →
        HeightOf n p p.index

/-- Every delivered block with its hash claims an index above zero that is one more than the index
of the genesis block or of the delivered block that it names as its predecessor. -/
def TrueHeights (core : Core) (genesis : Block) (ds : List Delivery) : Prop :=
  ∀ d ∈ ds, core.calculateHash d.block.toHeader = some d.block.hash → 1 ≤ d.block.index ∧
    ∀ p ∈ genesis :: ds.map (fun e => e.block), d.block.previousHash = p.hash →
      d.block.index = p.index + 1

instance (core : Core) (genesis : Block) (ds : List Delivery) :
    Decidable (TrueHeights core genesis ds) := by
  unfold TrueHeights
  infer_instance

/-- The genesis block, or a delivered block with its hash. -/
def Known (core : Core) (genesis : Block) (ds : List Delivery) (x : Block) : Prop :=
  x = genesis ∨ ((∃ d ∈ ds, d.block = x) ∧ core.calculateHash x.toHeader = some x.hash)

/-- A node has no blocks but the genesis block and those delivered with their hashes. -/
theorem known_of_holds (hi : genesis.index = 0)
    (run : Runs.Run (Delivers core) (fresh env pot genesis) ds n) {x : Block} (hx : n.Holds x) :
    Known core genesis ds x := by
  have hinv := run.invariant_mem
    (P := fun n => Sound core n ∧ ∀ x, n.Holds x → Known core genesis ds x) ?_
    ⟨sound_fresh hi, fun x hx => ?_⟩
  · exact hinv.2 x hx
  · rintro n d n' hd ⟨hfits, outcome, happ⟩ ⟨hn, hknown⟩
    refine ⟨hn.step (effect_of_applyBlock happ), fun x hx => ?_⟩
    rcases holds_of_applyBlock happ hx with ⟨rfl, hhash⟩ | hx
    · exact .inr ⟨⟨d, hd, rfl⟩, hhash⟩
    · exact hknown x hx
  · rcases hx with hx | ⟨k, hx⟩ | ⟨i, hx⟩
    · exact .inl (List.mem_singleton.mp hx)
    · simp [fresh, freshChain, Blockchain.seedPot, Blockchain.new] at hx
    · exact .inl (get_fresh hx).2

/-- Where delivered blocks claim their heights, a known block with its hash claims one more than
its predecessor. -/
theorem TrueHeights.index (htrue : TrueHeights core genesis ds) (hb : Known core genesis ds b)
    (hhash : core.calculateHash b.toHeader = some b.hash) (hne : b ≠ genesis)
    (hp : Known core genesis ds p) (hprev : b.previousHash = p.hash) : b.index = p.index + 1 := by
  obtain ⟨⟨d, hd, rfl⟩, -⟩ := hb.resolve_left hne
  refine (htrue d hd hhash).2 p ?_ hprev
  rcases hp with rfl | ⟨⟨e, he, rfl⟩, -⟩
  · exact List.mem_cons_self
  · exact List.mem_cons_of_mem _ (List.mem_map.mpr ⟨e, he, rfl⟩)

section Truthful

variable (hcore : core.CollisionFree) (hi : genesis.index = 0) (hh : genesis.hash = [])
  (run : Runs.Run (Delivers core) (fresh env pot genesis) ds n)
  (htrue : TrueHeights core genesis ds)

include hcore hi hh run htrue

/-- A pooled block claims one more than any block of the node that it names as predecessor. -/
theorem index_of_orphan {h : Bytes} (hb : n.chain.orphanPool.lookup h = some b)
    (hp : n.Holds p) (hprev : b.previousHash = p.hash) : b.index = p.index + 1 := by
  have hhash := ((sound_of_run hi run).window.pool h b hb).2
  refine htrue.index (known_of_holds hi run (.inr (.inl ⟨h, hb⟩))) hhash ?_
    (known_of_holds hi run hp) hprev
  rintro rfl
  exact hcore.nonempty hhash hh

/-- Claims are heights. -/
theorem HeightOf.index_eq {k : ℕ} (hk : HeightOf n p k) : p.index = k := by
  have hn := sound_of_run hi run
  have hholds : ∀ {q k}, HeightOf n q k → n.Holds q := by
    intro q k hq
    cases hq with
    | window hx => exact .inl (List.mem_of_getElem? hx)
    | stored _ hx => exact .inr (.inr ⟨_, hx⟩)
    | orphan hx _ _ => exact .inr (.inl ⟨_, hx⟩)
    | dangling hx _ => exact .inr (.inl ⟨_, hx⟩)
  induction hk with
  | window hx => exact hn.window.index _ _ hx
  | stored _ hx => exact hn.stored _ _ hx
  | orphan hx hq hprev ih =>
    rw [index_of_orphan hcore hi hh run htrue hx (hholds hq) hprev, ih]
  | dangling => rfl

/-- Every fork found is numbered from its ancestor on. -/
theorem index_of_fork {order : PoolOrder} {fork : List Block} {ancestor : ℕ}
    (hfind : Blockchain.findLongestFork order n.chain (some n.db.reader) =
      .ok (some (fork, ancestor))) {i : ℕ} {x : Block} (hx : fork[i]? = some x) :
    x.index = ancestor + 1 + i := by
  have hn := sound_of_run hi run
  obtain ⟨tip, path, first, htip, hpath, rfl, hfirst, hanc, -⟩ :=
    Blockchain.fork_of_findLongestFork hfind
  obtain ⟨k, hk, -⟩ := Blockchain.mem_poolTips.mp htip
  have hfork := PoolPath.step hk hpath
  obtain ⟨kf, hkf⟩ := hfork.mem (List.mem_of_mem_head? (Option.mem_def.mpr hfirst))
  have hindex := Blockchain.PoolPath.index (fun k x y hx ⟨k', hy⟩ hprev =>
    index_of_orphan hcore hi hh run htrue hy (.inr (.inl ⟨k, hx⟩))
      (hprev.trans (hn.window.pool k x hx).1.symm)) hfork hfirst hx
  have hstart : first.index = ancestor + 1 := by
    rcases Blockchain.ancestorIndex_eq_some hanc with hl | ⟨-, hstart, -⟩
    · obtain ⟨ho, q, hq, hqh⟩ := hn.window.hashes _ _ hl
      have := hn.window.index _ q hq
      rw [index_of_orphan hcore hi hh run htrue hkf (.inl (List.mem_of_getElem? hq)) hqh.symm]
      omega
    · exact hstart
  rw [hindex, hstart]

/-- In a run whose blocks claim their heights, a block after a known one pays for its height exactly
when it claims that height or does not pay for its claim, and every fork found is numbered from
its ancestor on. -/
theorem paysForHeight_of_run {a : AsertAnchor} (ha : n.chain.asertAnchor = some a)
    (hmin : minDifficulty ≤ a.difficulty) :
    (∀ b p k, (p ∈ n.chain.blocks ∨ ∃ h, n.chain.orphanPool.lookup h = some p) →
      HeightOf n p k → 1 ≤ k → b.previousHash = p.hash →
      (Blockchain.PaysForHeight core n.chain a b p k ↔
        b.index = p.index + 1 ∨ ¬ Blockchain.PaysForClaim core n.chain a b p)) ∧
    ∀ order fork ancestor, Blockchain.findLongestFork order n.chain (some n.db.reader) =
      .ok (some (fork, ancestor)) → ∀ i x, fork[i]? = some x → x.index = ancestor + 1 + i := by
  refine ⟨fun b p k hp hk hpos hprev => ?_, fun order fork ancestor hfind i x hx =>
    index_of_fork hcore hi hh run htrue hfind hx⟩
  have hpk := hk.index_eq hcore hi hh run htrue
  have hheight := (sound_of_run hi run).window.anchor a ha
  have htime := Blockchain.findBlockTimestamp_eq_some hcore (sound_of_run hi run).window
    (hashed_of_run hcore hi hh run).window hp
  rw [Blockchain.PaysForHeight, Blockchain.validateBlockStandalone_iff_paysForClaim ha hmin
    (hprev ▸ htime)]
  constructor
  · intro hpays
    by_cases hclaim : Blockchain.PaysForClaim core n.chain a b p
    · exact .inl (hpays hclaim).1
    · exact .inr hclaim
  · rintro (hindex | hclaim) hpays
    · have hwork := hpays.2.1
      rw [hindex, Nat.add_sub_cancel, hpk, if_neg (by omega)] at hwork
      exact ⟨hindex, hwork⟩
    · exact absurd hpays hclaim

end Truthful

end Node

namespace Sample

/-- A block at height 2, and one after it that claims the same height. -/
def secondBlock : Block := block 2 mainBlock.hash 1748000119 32
def lowClaim : Block := block 2 secondBlock.hash 1748000200 25

def heightDeliveries : List Node.Delivery :=
  [⟨mainBlock, around 1748000200⟩, ⟨secondBlock, around 1748000200⟩]

def heightAnchor : AsertAnchor := ⟨1, 1748000060, 25⟩

theorem heightRun : ∃ n, Runs.Run (Node.Delivers plainCore) node heightDeliveries n ∧
    n.chain.asertAnchor = some heightAnchor ∧ secondBlock ∈ n.chain.blocks ∧
    Node.HeightOf n secondBlock 2 ∧ n.chain.validateBlockStandalone plainCore lowClaim = true := by
  have hrun : (node.applyBlocks plainCore heightDeliveries).toOption.map (fun r =>
      (r.2.chain.blocks, r.2.chain.blocksOffset, r.2.chain.asertAnchor,
        r.2.chain.validateBlockStandalone plainCore lowClaim)) =
      some ([genesis, mainBlock, secondBlock], 0, some heightAnchor, true) := by
    decide +kernel
  obtain ⟨⟨outcomes, n⟩, happ, hobs⟩ := Fallible.exists_of_toOption_map hrun
  simp only [Prod.mk.injEq] at hobs
  obtain ⟨hblocks, hoffset, hanchor, hvalid⟩ := hobs
  have hsecond : n.chain.blocks[2]? = some secondBlock := by rw [hblocks]; rfl
  have hheight := Node.HeightOf.window hsecond
  rw [hoffset] at hheight
  refine ⟨n, Node.run_of_applyBlocks ?_ happ, hanchor, List.mem_of_getElem? hsecond, hheight,
    hvalid⟩
  simp only [heightDeliveries, List.mem_cons, List.not_mem_nil, or_false]
  rintro d (rfl | rfl) <;> exact ⟨by decide, by decide, by decide, by decide⟩

theorem heights_paysForHeight : ∃ n, Runs.Run (Node.Delivers plainCore) node heightDeliveries n ∧
    (Blockchain.PaysForHeight plainCore n.chain heightAnchor lowClaim secondBlock 2 ↔
      lowClaim.index = secondBlock.index + 1 ∨
        ¬ Blockchain.PaysForClaim plainCore n.chain heightAnchor lowClaim secondBlock) := by
  obtain ⟨n, hrun, hanchor, hmem, hheight, -⟩ := heightRun
  exact ⟨n, hrun, (Node.paysForHeight_of_run plainCore_collisionFree rfl rfl hrun
    (by decide +kernel) hanchor (by decide +kernel)).1 lowClaim secondBlock 2 (.inl hmem) hheight
    (by decide) rfl⟩

/-- The second block at height 2 pays less than the difficulty after its predecessor. -/
theorem lowClaim_not_paysForHeight : ∃ n,
    Runs.Run (Node.Delivers plainCore) node heightDeliveries n ∧
    n.chain.asertAnchor = some heightAnchor ∧ minDifficulty ≤ heightAnchor.difficulty ∧
    secondBlock ∈ n.chain.blocks ∧ Node.HeightOf n secondBlock 2 ∧
    lowClaim.previousHash = secondBlock.hash ∧ lowClaim.index ≠ secondBlock.index + 1 ∧
    plainCore.meetsDifficulty lowClaim.hash (asertTarget heightAnchor 2 secondBlock.timestamp) =
      false ∧
    ¬ Blockchain.PaysForHeight plainCore n.chain heightAnchor lowClaim secondBlock 2 := by
  obtain ⟨n, hrun, hanchor, hmem, hheight, hvalid⟩ := heightRun
  have hindex : lowClaim.index ≠ secondBlock.index + 1 := by decide
  exact ⟨n, hrun, hanchor, by decide +kernel, hmem, hheight, rfl, hindex, by decide +kernel,
    fun h => hindex (h hvalid).1⟩

end Sample

end Lootcoin
