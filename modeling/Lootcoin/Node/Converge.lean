import Lootcoin.Node.Fed

/-! Convergence under delivery in any order.  A reorganization forgets the branch that it displaces,
and a later block on that branch has a predecessor that the chain no longer knows.  Where every
block is welcome when its turn comes, the order of delivery does not decide where a chain ends. -/

namespace Lootcoin

namespace Node

variable {core : Core} {env : Option ℚ} {pot : ℕ} {genesis : Block} {tree : List Block}
  {db : Option BlockReader} {D : List Block} {c : Blockchain} {p : List Block}

/-! ### Runs -/

/-- The call returns on the delivered block. -/
def Feeds (core : Core) (db : Option BlockReader) (c : Blockchain) (d : Delivery)
    (c' : Blockchain) : Prop :=
  ∃ outcome, c.applyInMemory core d.ambient d.block db = .ok (outcome, c')

/-- At no reading of a clock does a block of the tree lie more than two minutes ahead. -/
def Timely (tree : List Block) (ds : List Delivery) : Prop :=
  ∀ d ∈ ds, ∀ x ∈ tree, ∀ k, x.timestamp ≤ d.ambient.clock k + 120

/-- Every delivered block is welcome when its turn comes. -/
def Welcomed (core : Core) (db : Option BlockReader) : Blockchain → List Delivery → Prop
  | _, [] => True
  | c, d :: ds => c.Welcome core d.block ∧
    match c.applyInMemory core d.ambient d.block db with
    | .error _ => True
    | .ok (_, c') => Welcomed core db c' ds

instance decidableWelcomed (core : Core) (db : Option BlockReader) :
    ∀ (c : Blockchain) (ds : List Delivery), Decidable (Welcomed core db c ds)
  | _, [] => isTrue trivial
  | c, d :: ds => by
    unfold Welcomed
    cases c.applyInMemory core d.ambient d.block db with
    | error _ => infer_instance
    | ok r =>
      have := decidableWelcomed core db r.2 ds
      infer_instance

/-- The predecessor of every block is known or comes before it. -/
def ParentsFirst : List Bytes → List Block → Prop
  | _, [] => True
  | known, b :: bs => b.previousHash ∈ known ∧ ParentsFirst (b.hash :: known) bs

instance decidableParentsFirst :
    ∀ (known : List Bytes) (bs : List Block), Decidable (ParentsFirst known bs)
  | _, [] => isTrue trivial
  | known, b :: bs => by
    have := decidableParentsFirst (b.hash :: known) bs
    unfold ParentsFirst
    infer_instance

/-- A tree small enough for the orphan pool: no more blocks than the pool holds, no more at an
index than it holds there, and no branch longer than the depth of orphans. -/
def WithinLimits (tree : List Block) : Prop :=
  tree.length ≤ maxOrphanPoolSize ∧ ∀ b ∈ tree, b.index ≤ maxOrphanDepth ∧
    (tree.filter fun x => x.index = b.index).length ≤ maxOrphansPerHeight

instance (tree : List Block) : Decidable (WithinLimits tree) := by
  unfold WithinLimits
  infer_instance

theorem fed_fresh (hi : genesis.index = 0) :
    Fed core env pot genesis tree db [] (freshChain env pot genesis) where
  whole := rfl
  grown := by
    have ht : Tracks core env pot genesis (fresh env pot genesis) (freshChain env pot genesis) :=
      tracks_fresh hi
    exact ⟨[], _, rfl, by simp, .nil _, ht.pruned⟩
  window := windowSound_freshChain hi
  indexed := Blockchain.indexed_reset (freshChain env pot genesis) genesis
  delivered := by simp
  parents := by simp
  pooled k x hx := by simp [freshChain, Blockchain.seedPot, Blockchain.new] at hx
  last := by simp
  heaviest := by simp
  settled := Blockchain.settled_of_empty rfl

/-- A run on welcome blocks of a tree, each of them new, returns and leaves a chain that has been
fed them all. -/
theorem Fed.run (hf : Fed core env pot genesis tree db D c)
    (ht : BlockTree core env pot genesis tree) (hi : genesis.index = 0) (hpot : pot < 2 ^ 64)
    {ds : List Delivery} (hmem : ∀ d ∈ ds, d.block ∈ tree)
    (hnodup : (ds.map fun d => d.block).Nodup) (hnew : ∀ d ∈ ds, d.block ∉ D)
    (htime : Timely tree ds) (hw : Welcomed core db c ds) :
    ∃ c', Runs.Run (Feeds core db) c ds c' ∧
      Fed core env pot genesis tree db ((ds.map fun d => d.block).reverse ++ D) c' := by
  induction ds generalizing c D with
  | nil => exact ⟨c, .nil _, hf⟩
  | cons d ds ih =>
    rw [List.map_cons, List.nodup_cons] at hnodup
    obtain ⟨hwelcome, hrest⟩ := hw
    obtain ⟨outcome, c', happ, hf'⟩ := hf.step ht hi hpot (hmem d List.mem_cons_self)
      (hnew d List.mem_cons_self) hwelcome (htime d List.mem_cons_self)
    rw [happ] at hrest
    have hnew' : ∀ e ∈ ds, e.block ∉ d.block :: D := by
      intro e he hin
      rcases List.mem_cons.mp hin with hin | hin
      · exact hnodup.1 (hin ▸ List.mem_map_of_mem he)
      · exact hnew e (List.mem_cons_of_mem _ he) hin
    obtain ⟨c'', hrun, hf''⟩ := ih hf' (fun e he => hmem e (List.mem_cons_of_mem _ he)) hnodup.2
      hnew' (fun e he => htime e (List.mem_cons_of_mem _ he)) hrest
    refine ⟨c'', .cons ⟨outcome, happ⟩ hrun, ?_⟩
    rwa [List.map_cons, List.reverse_cons, List.append_assoc]

/-- A chain that has been fed a whole tree ends in the block of the tree with the most work on its
branch. -/
theorem Fed.getLast?_eq (hf : Fed core env pot genesis tree db D c) (hall : ∀ x ∈ tree, x ∈ D)
    {best : Block} (hbest : Heaviest core env pot genesis tree p best) :
    c.blocks.getLast? = some best := by
  obtain ⟨path, full, hblocks, hpath, hgrow, -⟩ := hf.grown
  have hlatest := Fed.getLatestHash_eq hblocks
  have hleaf : ∀ z ∈ tree, z.previousHash ≠ (path.getLastD genesis).hash := fun z hz =>
    hlatest ▸ hf.last z (hall z hz)
  cases path using List.reverseRecOn with
  | nil =>
    -- the first block of the branch would follow the genesis block
    obtain ⟨first, hfirst⟩ : ∃ first, (p ++ [best]).head? = some first := by
      cases p with
      | nil => exact ⟨best, rfl⟩
      | cons z p => exact ⟨z, rfl⟩
    have hmem := hbest.mem first (List.mem_of_mem_head? (Option.mem_def.mpr hfirst))
    exact absurd (Branch.head_append (p := []) hbest.branch hfirst) (hleaf first hmem)
  | append_singleton path y =>
    rw [List.getLastD_concat] at hleaf
    rw [hblocks, ← List.cons_append, List.getLast?_concat]
    by_contra hne
    have hlt := hbest.lt path y (fun x hx => hf.delivered x (hpath x hx)) ⟨full, hgrow⟩ hleaf
      fun h => hne (h ▸ rfl)
    have hge := hf.heaviest p best (fun x hx => hbest.mem x (List.mem_append_left _ hx))
      hbest.branch (hall best (hbest.mem best (by simp)))
    rw [hblocks, List.tail_cons] at hge
    omega

/-- Two nodes that are given all blocks of a tree, each in an order of its own in which every block
is welcome when its turn comes, end in the same block when the branch to it has strictly more work
than that to every other block that no block follows. -/
theorem converges_of_welcomed (ht : BlockTree core env pot genesis tree) (hi : genesis.index = 0)
    (hpot : pot < 2 ^ 64) {ds ds' : List Delivery} {db' : Option BlockReader}
    (hperm : (ds.map fun d => d.block).Perm tree) (hperm' : (ds'.map fun d => d.block).Perm tree)
    (htime : Timely tree ds) (htime' : Timely tree ds')
    (hw : Welcomed core db (freshChain env pot genesis) ds)
    (hw' : Welcomed core db' (freshChain env pot genesis) ds') {best : Block}
    (hbest : Heaviest core env pot genesis tree p best) :
    ∃ c c', Runs.Run (Feeds core db) (freshChain env pot genesis) ds c ∧
      Runs.Run (Feeds core db') (freshChain env pot genesis) ds' c' ∧
      c.blocks.getLast? = some best ∧ c'.blocks.getLast? = some best := by
  have hnodup : tree.Nodup := (List.nodup_cons.mp (List.Nodup.of_map _ ht.distinct)).2
  have hreach : ∀ {db : Option BlockReader} {ds : List Delivery},
      (ds.map fun d => d.block).Perm tree → Timely tree ds →
      Welcomed core db (freshChain env pot genesis) ds →
      ∃ c, Runs.Run (Feeds core db) (freshChain env pot genesis) ds c ∧
        c.blocks.getLast? = some best := by
    intro db ds hperm htime hw
    obtain ⟨c, hrun, hf⟩ := (fed_fresh hi).run ht hi hpot
      (fun d hd => hperm.mem_iff.mp (List.mem_map_of_mem hd)) (hperm.nodup_iff.mpr hnodup)
      (by simp) htime hw
    refine ⟨c, hrun, hf.getLast?_eq (fun x hx => ?_) hbest⟩
    rw [List.append_nil, List.mem_reverse]
    exact hperm.mem_iff.mpr hx
  obtain ⟨c, hrun, hc⟩ := hreach hperm htime hw
  obtain ⟨c', hrun', hc'⟩ := hreach hperm' htime' hw'
  exact ⟨c, c', hrun, hrun', hc, hc'⟩

end Node

namespace Sample

/-! Two branches of three and of two blocks on the genesis block.  The longer one is forgotten when
the shorter one overtakes it halfway. -/

def left1 : Block := block 1 [] 1748000060 32
def left2 : Block := block 2 left1.hash 1748000120 32
def left3 : Block := block 3 left2.hash 1748000180 32
def right1 : Block := block 1 [] 1748000061 32
def right2 : Block := block 2 right1.hash 1748000121 32

def fork : List Block := [left1, left2, left3, right1, right2]

def start : Blockchain := Node.freshChain none Node.genesisPotAmount genesis

def feed (bs : List Block) : List Node.Delivery := bs.map fun b => ⟨b, around 1748000200⟩

theorem feed_timely (bs : List Block) : Node.Timely fork (feed bs) := by
  intro d hd x hx k
  obtain ⟨b, -, rfl⟩ := List.mem_map.mp hd
  have hall : ∀ x ∈ fork, x.timestamp ≤ 1748000200 + 120 := by decide
  exact hall x hx

/-- The chain after blocks are fed, or nothing when a call does not return. -/
def feedAll : Blockchain → List Block → Option Blockchain
  | c, [] => some c
  | c, b :: bs =>
    match c.applyInMemory plainCore (around 1748000200) b none with
    | .error _ => none
    | .ok (_, c') => feedAll c' bs

theorem run_of_feedAll {bs : List Block} {c c' : Blockchain} (h : feedAll c bs = some c') :
    Runs.Run (Node.Feeds plainCore none) c (feed bs) c' := by
  induction bs generalizing c with
  | nil =>
    cases h
    exact .nil _
  | cons b bs ih =>
    rw [feedAll] at h
    split at h
    · cases h
    · rename_i outcome d happ
      exact .cons ⟨outcome, happ⟩ (ih h)

theorem branch_of_applyAll {path : List Block}
    (h : (Blockchain.applyAll plainCore (fun _ => 1748000200) start path).toOption.join.isSome =
      true) :
    Node.Branch plainCore none Node.genesisPotAmount genesis path := by
  obtain ⟨c, hc⟩ := Option.isSome_iff_exists.mp h
  have hall := Fallible.toOption_eq_some.mp (Option.join_eq_some_iff.mp hc)
  exact ⟨c, Blockchain.applyAll_grows hall⟩

theorem fork_blockTree : Node.BlockTree plainCore none Node.genesisPotAmount genesis fork where
  distinct := by decide +kernel
  valid b hb := by
    simp only [fork, List.mem_cons, List.not_mem_nil, or_false] at hb
    rcases hb with rfl | rfl | rfl | rfl | rfl
    · exact ⟨[], by simp, branch_of_applyAll (by decide +kernel)⟩
    · exact ⟨[left1], by simp [fork], branch_of_applyAll (by decide +kernel)⟩
    · exact ⟨[left1, left2], by simp [fork], branch_of_applyAll (by decide +kernel)⟩
    · exact ⟨[], by simp, branch_of_applyAll (by decide +kernel)⟩
    · exact ⟨[right1], by simp [fork], branch_of_applyAll (by decide +kernel)⟩

theorem fork_heaviest : Node.Heaviest plainCore none Node.genesisPotAmount genesis fork
    [left1, left2] left3 where
  mem := by simp [fork]
  branch := branch_of_applyAll (by decide +kernel)
  lt other y hmem hbranch hleaf hne := by
    have hy : y = right2 := by
      have hcases : ∀ y ∈ fork, (∀ z ∈ fork, z.previousHash ≠ y.hash) → y ≠ left3 → y = right2 := by
        decide +kernel
      exact hcases y (hmem y (by simp)) hleaf hne
    subst hy
    have hright : Node.Branch plainCore none Node.genesisPotAmount genesis ([right1] ++ [right2]) :=
      branch_of_applyAll (by decide +kernel)
    rw [fork_blockTree.branch_unique_snoc (fun x hx => hmem x (List.mem_append_left _ hx))
      (by simp [fork]) hbranch hright]
    decide +kernel

/-- Two orders in which no block comes before its parent end in different blocks. -/
theorem fork_diverges : ∃ ds ds' c c',
    (ds.map fun d => d.block).Perm fork ∧ (ds'.map fun d => d.block).Perm fork ∧
    Node.ParentsFirst [genesis.hash] (ds.map fun d => d.block) ∧
    Node.ParentsFirst [genesis.hash] (ds'.map fun d => d.block) ∧
    Node.WithinLimits fork ∧ Node.Timely fork ds ∧ Node.Timely fork ds' ∧
    Node.BlockTree plainCore none Node.genesisPotAmount genesis fork ∧
    Node.Heaviest plainCore none Node.genesisPotAmount genesis fork [left1, left2] left3 ∧
    Runs.Run (Node.Feeds plainCore none) start ds c ∧
    Runs.Run (Node.Feeds plainCore none) start ds' c' ∧
    c.blocks.getLast? = some left3 ∧ c'.blocks.getLast? = some right2 := by
  have hleft : (feedAll start fork).map (fun c => c.blocks.getLast?) = some (some left3) := by
    decide +kernel
  have hright : (feedAll start [left1, right1, right2, left2, left3]).map
      (fun c => c.blocks.getLast?) = some (some right2) := by
    decide +kernel
  obtain ⟨c, hc, hlast⟩ := Option.map_eq_some_iff.mp hleft
  obtain ⟨c', hc', hlast'⟩ := Option.map_eq_some_iff.mp hright
  refine ⟨feed fork, feed [left1, right1, right2, left2, left3], c, c', .refl _, ?_, ?_, ?_, ?_,
    feed_timely _, feed_timely _, fork_blockTree, fork_heaviest, run_of_feedAll hc,
    run_of_feedAll hc', hlast, hlast'⟩
  all_goals decide +kernel

/-- Where one branch comes after the other, either order ends in the same block. -/
theorem fork_converges : ∃ c c',
    Runs.Run (Node.Feeds plainCore none) (Node.freshChain none Node.genesisPotAmount genesis)
      (feed fork) c ∧
    Runs.Run (Node.Feeds plainCore none) (Node.freshChain none Node.genesisPotAmount genesis)
      (feed [right1, right2, left1, left2, left3]) c' ∧
    c.blocks.getLast? = some left3 ∧ c'.blocks.getLast? = some left3 :=
  Node.converges_of_welcomed fork_blockTree rfl (by decide) (.refl _) (by decide +kernel)
    (feed_timely _) (feed_timely _) (by decide +kernel) (by decide +kernel) fork_heaviest

end Sample

end Lootcoin
