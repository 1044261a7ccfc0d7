import Lootcoin.Node.Quiet

/-! Trees of blocks rooted at a genesis block.  Every block of a tree ends a branch that a fresh
chain accepts block by block, and the hashes tell the blocks apart, so a block has one branch and
two branches agree up to the block where they part. -/

namespace Lootcoin

namespace Node

/-- Blocks that a fresh chain accepts one after the other, each at some time. -/
def Branch (core : Core) (env : Option ℚ) (pot : ℕ) (genesis : Block) (path : List Block) : Prop :=
  ∃ c, Blockchain.Grows core (freshChain env pot genesis) path c

/-- Blocks above a genesis block, told apart by their hashes, each of which ends a branch of the
tree. -/
structure BlockTree (core : Core) (env : Option ℚ) (pot : ℕ) (genesis : Block) (tree : List Block) :
    Prop where
  distinct : ((genesis :: tree).map fun b => b.hash).Nodup
  valid : ∀ b ∈ tree, ∃ path, (∀ x ∈ path, x ∈ tree) ∧ Branch core env pot genesis (path ++ [b])

/-- The branch to `best` has strictly more work than the branch to every other block that no block
of the tree follows. -/
structure Heaviest (core : Core) (env : Option ℚ) (pot : ℕ) (genesis : Block)
    (tree path : List Block) (best : Block) : Prop where
  mem : ∀ x ∈ path ++ [best], x ∈ tree
  branch : Branch core env pot genesis (path ++ [best])
  lt : ∀ other y, (∀ x ∈ other ++ [y], x ∈ tree) → Branch core env pot genesis (other ++ [y]) →
    (∀ z ∈ tree, z.previousHash ≠ y.hash) → y ≠ best →
      chainSegmentWork (other ++ [y]) < chainSegmentWork (path ++ [best])

section

variable {core : Core} {env : Option ℚ} {pot : ℕ} {genesis : Block} {tree path p q : List Block}
  {b x y : Block}

theorem Branch.nil : Branch core env pot genesis [] := ⟨_, .nil _⟩

/-- The last block of a branch follows the block before it. -/
theorem Branch.snoc (h : Branch core env pot genesis (path ++ [b])) :
    Branch core env pot genesis path ∧ b.previousHash = (path.getLastD genesis).hash ∧
      b.index = path.length + 1 := by
  obtain ⟨c, hgrow⟩ := h
  obtain ⟨d, hd, hb⟩ := hgrow.split
  obtain _ | ⟨hs, hrest⟩ := hb
  cases hrest
  have hblocks : d.blocks = genesis :: path := Blockchain.Grows.blocks hd
  have hoffset : d.blocksOffset = 0 := Blockchain.Grows.blocksOffset hd
  refine ⟨⟨d, hd⟩, ?_, ?_⟩
  · rw [hs.appended.previousHash, Blockchain.getLatestHash, hblocks, List.getLast?_cons,
      List.getLastD_eq_getLast?]
    rfl
  · rw [hs.appended.index, Blockchain.getHeight, hblocks, hoffset, List.length_cons, Nat.zero_add]

theorem Branch.of_append (h : Branch core env pot genesis (p ++ q)) :
    Branch core env pot genesis p := by
  obtain ⟨c, hgrow⟩ := h
  obtain ⟨d, hd, -⟩ := hgrow.split
  exact ⟨d, hd⟩

/-- The first block of the rest of a branch follows the last block before it. -/
theorem Branch.head_append (h : Branch core env pot genesis (p ++ q)) {first : Block}
    (hfirst : q.head? = some first) : first.previousHash = (p.getLastD genesis).hash := by
  obtain ⟨rest, rfl⟩ : ∃ rest, q = first :: rest := by
    cases q with
    | nil => simp at hfirst
    | cons z q =>
      cases hfirst
      exact ⟨q, rfl⟩
  rw [List.append_cons] at h
  exact h.of_append.snoc.2.1

theorem Branch.map_index (h : Branch core env pot genesis path) :
    path.map (fun b => b.index) = List.range' 1 path.length := by
  induction path using List.reverseRecOn with
  | nil => rfl
  | append_singleton path b ih =>
    obtain ⟨hpath, -, hindex⟩ := h.snoc
    rw [List.map_append, ih hpath, List.length_append, List.length_singleton, List.range'_concat,
      List.map_singleton, hindex, Nat.one_mul, Nat.add_comm]

theorem Branch.nodup (h : Branch core env pot genesis path) : path.Nodup := by
  apply List.Nodup.of_map (fun b => b.index)
  rw [h.map_index]
  exact List.nodup_range'

theorem BlockTree.eq_of_hash (ht : BlockTree core env pot genesis tree) (hx : x ∈ genesis :: tree)
    (hy : y ∈ genesis :: tree) (h : x.hash = y.hash) : x = y :=
  List.inj_on_of_nodup_map ht.distinct hx hy h

theorem getLastD_mem (hp : ∀ x ∈ path, x ∈ tree) : path.getLastD genesis ∈ genesis :: tree := by
  cases path using List.reverseRecOn with
  | nil => exact List.mem_cons_self
  | append_singleton p z =>
    rw [List.getLastD_concat]
    exact List.mem_cons_of_mem _ (hp z (by simp))

theorem BlockTree.genesis_notMem (ht : BlockTree core env pot genesis tree) : genesis ∉ tree := by
  intro hmem
  have hdistinct := ht.distinct
  rw [List.map_cons, List.nodup_cons] at hdistinct
  exact hdistinct.1 (List.mem_map.mpr ⟨genesis, hmem, rfl⟩)

/-- A block has one branch. -/
theorem BlockTree.branch_unique (ht : BlockTree core env pot genesis tree)
    (hp : ∀ x ∈ p, x ∈ tree) (hq : ∀ x ∈ q, x ∈ tree) (hbp : Branch core env pot genesis p)
    (hbq : Branch core env pot genesis q)
    (h : (p.getLastD genesis).hash = (q.getLastD genesis).hash) : p = q := by
  induction p using List.reverseRecOn generalizing q with
  | nil =>
    cases q using List.reverseRecOn with
    | nil => rfl
    | append_singleton q y =>
      have hy := hq y (by simp)
      rw [List.getLastD_concat] at h
      exact absurd (ht.eq_of_hash List.mem_cons_self (List.mem_cons_of_mem _ hy) h ▸ hy)
        ht.genesis_notMem
  | append_singleton p x ih =>
    have hx := hp x (by simp)
    cases q using List.reverseRecOn with
    | nil =>
      rw [List.getLastD_concat] at h
      exact absurd (ht.eq_of_hash List.mem_cons_self (List.mem_cons_of_mem _ hx) h.symm ▸ hx)
        ht.genesis_notMem
    | append_singleton q y =>
      have hy := hq y (by simp)
      rw [List.getLastD_concat, List.getLastD_concat] at h
      obtain rfl := ht.eq_of_hash (List.mem_cons_of_mem _ hx) (List.mem_cons_of_mem _ hy) h
      obtain ⟨hbp, hprev, -⟩ := hbp.snoc
      obtain ⟨hbq, hprev', -⟩ := hbq.snoc
      rw [ih (fun z hz => hp z (List.mem_append_left _ hz))
        (fun z hz => hq z (List.mem_append_left _ hz)) hbp hbq (hprev.symm.trans hprev')]

/-- Two branches to a block are the same. -/
theorem BlockTree.branch_unique_snoc (ht : BlockTree core env pot genesis tree)
    (hp : ∀ x ∈ p, x ∈ tree) (hq : ∀ x ∈ q, x ∈ tree)
    (hbp : Branch core env pot genesis (p ++ [b])) (hbq : Branch core env pot genesis (q ++ [b])) :
    p = q :=
  ht.branch_unique hp hq hbp.snoc.1 hbq.snoc.1 (hbp.snoc.2.1.symm.trans hbq.snoc.2.1)

/-- The blocks of a branch and its root are told apart by their hashes. -/
theorem BlockTree.nodup_hashes (ht : BlockTree core env pot genesis tree)
    (hp : ∀ x ∈ path, x ∈ tree) (hbranch : Branch core env pot genesis path) :
    ((genesis :: path).map fun x => x.hash).Nodup := by
  have hsub : ∀ x ∈ genesis :: path, x ∈ genesis :: tree :=
    List.forall_mem_cons.mpr ⟨List.mem_cons_self, fun x hx => List.mem_cons_of_mem _ (hp x hx)⟩
  apply List.Nodup.map_on (fun x hx y hy h => ht.eq_of_hash (hsub x hx) (hsub y hy) h)
  exact List.nodup_cons.mpr ⟨fun h => ht.genesis_notMem (hp _ h), hbranch.nodup⟩

/-- A branch that ends on another one begins it. -/
theorem BlockTree.eq_append (ht : BlockTree core env pot genesis tree)
    (hp : ∀ x ∈ p, x ∈ tree) (hpath : ∀ x ∈ path, x ∈ tree) (hbp : Branch core env pot genesis p)
    (hbpath : Branch core env pot genesis path) (hmem : p.getLastD genesis ∈ genesis :: path) :
    ∃ m, path = p ++ m := by
  rcases List.mem_cons.mp hmem with hlast | hlast
  · have hnil : p = [] := ht.branch_unique hp (by simp) hbp .nil (by rw [hlast]; rfl)
    exact ⟨path, by rw [hnil, List.nil_append]⟩
  · obtain ⟨s, t, hst⟩ := List.append_of_mem hlast
    rw [List.append_cons] at hst
    have hbs : Branch core env pot genesis (s ++ [p.getLastD genesis]) :=
      Branch.of_append (q := t) (hst ▸ hbpath)
    have hps : p = s ++ [p.getLastD genesis] := by
      refine ht.branch_unique hp (fun x hx => hpath x ?_) hbp hbs (by rw [List.getLastD_concat])
      rw [hst]
      exact List.mem_append_left _ hx
    exact ⟨t, by rw [← hps] at hst; exact hst⟩

/-- The branch of a block of a tree, told by its hash. -/
theorem BlockTree.branch_of_mem (ht : BlockTree core env pot genesis tree) (hb : b ∈ tree) :
    ∃ path, (∀ x ∈ path, x ∈ tree) ∧ Branch core env pot genesis (path ++ [b]) ∧
      b.previousHash = (path.getLastD genesis).hash := by
  obtain ⟨path, hpath, hbranch⟩ := ht.valid b hb
  exact ⟨path, hpath, hbranch, hbranch.snoc.2.1⟩

end

end Node

end Lootcoin
