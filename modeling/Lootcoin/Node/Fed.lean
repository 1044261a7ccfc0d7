import Lootcoin.Node.Tree

/-! A chain that is fed the blocks of a tree.  As long as it knows the predecessor of every block it
is given and can place the block, its canonical chain has at least the work of every branch fed so
far, and a block that it is given next leaves it so. -/

namespace Lootcoin

namespace Blockchain

variable {core : Core} {c c' : Blockchain} {b : Block} {order : PoolOrder}

/-- The hash is that of a canonical or a pooled block. -/
def Knows (c : Blockchain) (h : Bytes) : Prop :=
  (∃ y ∈ c.blocks, y.hash = h) ∨ (c.orphanPool.lookup h).isSome = true

/-- The pool takes another orphan of the index without evicting one. -/
def HasRoom (c : Blockchain) (index : ℕ) : Prop :=
  HashTable.size c.orphanPool < maxOrphanPoolSize ∧
  ((HashTable.values c.orphanPool).filter fun x => x.index = index).length < maxOrphansPerHeight

/-- The chain knows the predecessor of the block, and if the block does not extend the tip, then
it passes the checks on an orphan and the pool has room for it. -/
def Welcome (core : Core) (c : Blockchain) (b : Block) : Prop :=
  c.Knows b.previousHash ∧ (b.previousHash ≠ c.getLatestHash →
    c.validateBlockStandalone core b = true ∧ c.HasRoom b.index)

instance (core : Core) (c : Blockchain) (b : Block) : Decidable (c.Welcome core b) := by
  unfold Welcome Knows HasRoom
  infer_instance

/-- With room in the pool, an orphan displaces none. -/
theorem admitOrphan_of_hasRoom (h : c.HasRoom b.index) :
    (c.admitOrphan order b).orphanPool = c.orphanPool.insert b.hash b := by
  have hfull : evictFromFullPool order c.orphanPool = c.orphanPool :=
    if_neg (Nat.not_le.mpr h.1)
  have hcount : ((order.entries c.orphanPool).filter fun e => e.2.index = b.index).length =
      ((HashTable.values c.orphanPool).filter fun x => x.index = b.index).length := by
    rw [((order.perm c.orphanPool).filter _).length_eq, HashTable.values, List.filter_map,
      List.filter_map, List.length_map, List.length_map]
    rfl
  have hheight : evictAtHeight order c.orphanPool b.index = c.orphanPool :=
    if_neg (Nat.not_le.mpr (hcount ▸ h.2))
  simp only [admitOrphan, hfull, hheight]

/-- The hash table leads from the hash of every block of a whole chain to its index. -/
def Indexed (c : Blockchain) : Prop :=
  ∀ (i : ℕ) (x : Block), c.blocks[i]? = some x → c.blockHashes.lookup x.hash = some i

theorem indexed_reset (c : Blockchain) (genesis : Block) : (c.reset genesis).Indexed := by
  intro i x hx
  simp only [reset, List.getElem?_singleton] at hx ⊢
  split at hx
  · rename_i hi
    cases hx
    rw [hi, AList.lookup_insert]
  · cases hx

theorem Appended.indexed (ha : Appended core c b c') (hc : c.Indexed) (ho : c.blocksOffset = 0)
    (hnew : ∀ y ∈ c.blocks, y.hash ≠ b.hash) : c'.Indexed := by
  intro i x hx
  rw [ha.blocks] at hx
  rw [ha.blockHashes]
  rcases getElem?_snoc hx with hx | ⟨rfl, rfl⟩
  · rw [AList.lookup_insert_ne (hnew x (List.mem_of_getElem? hx)), hc i x hx]
  · rw [AList.lookup_insert, ha.index, Blockchain.getHeight, ho, Nat.zero_add]

theorem Indexed.grows {bs : List Block} (hc : c.Indexed) (ho : c.blocksOffset = 0)
    (h : Grows core c bs c') (hnodup : ((c.blocks ++ bs).map fun x => x.hash).Nodup) :
    c'.Indexed := by
  induction h with
  | nil => exact hc
  | @cons c d c' b bs hs _ ih =>
    have ha := hs.appended
    have hd : d.blocks ++ bs = c.blocks ++ b :: bs := by
      rw [ha.blocks, List.append_assoc, List.singleton_append]
    refine ih (ha.indexed hc ho fun y hy heq => ?_) (ha.blocksOffset.trans ho) (hd ▸ hnodup)
    rw [List.map_append, List.nodup_append] at hnodup
    exact hnodup.2.2 _ (List.mem_map_of_mem hy) _ (List.mem_map_of_mem List.mem_cons_self) heq

end Blockchain

namespace Node

open Blockchain (Grows)

variable {core : Core} {env : Option ℚ} {pot : ℕ} {genesis : Block} {tree : List Block}
  {db : Option BlockReader} {D : List Block} {c : Blockchain} {b : Block} {ambient : Ambient}
  {p : List Block}

/-- What holds of a chain that has been fed the blocks `D` of a tree. Its canonical chain and its
pool are made of them, an orphan's predecessor is known, and no branch has more work than the
canonical chain. -/
structure Fed (core : Core) (env : Option ℚ) (pot : ℕ) (genesis : Block) (tree : List Block)
    (db : Option BlockReader) (D : List Block) (c : Blockchain) : Prop where
  whole : c.blocksOffset = 0
  grown : ∃ path full, c.blocks = genesis :: path ∧ (∀ x ∈ path, x ∈ D) ∧
    Grows core (freshChain env pot genesis) path full ∧ full.PrunedFrom c
  window : c.WindowSound core
  indexed : c.Indexed
  delivered : ∀ x ∈ D, x ∈ tree
  parents : ∀ x ∈ D, ∃ y ∈ genesis :: D, y.hash = x.previousHash
  pooled : ∀ k x, c.orphanPool.lookup k = some x →
    x ∈ D ∧ c.Knows x.previousHash
  last : ∀ y ∈ D, y.previousHash ≠ c.getLatestHash
  heaviest : ∀ path y, (∀ x ∈ path, x ∈ tree) → Branch core env pot genesis (path ++ [y]) →
    y ∈ D → chainSegmentWork (path ++ [y]) ≤ chainSegmentWork c.blocks.tail
  settled : c.Settled db

namespace Fed

theorem mem_blocks (hf : Fed core env pot genesis tree db D c) {x : Block} (hx : x ∈ c.blocks) :
    x ∈ genesis :: D := by
  obtain ⟨path, -, hblocks, hpath, -⟩ := hf.grown
  rw [hblocks] at hx
  rcases List.mem_cons.mp hx with rfl | hx
  · exact List.mem_cons_self
  · exact List.mem_cons_of_mem _ (hpath x hx)

theorem mem_tree (hf : Fed core env pot genesis tree db D c) {x : Block} (hx : x ∈ genesis :: D) :
    x ∈ genesis :: tree := by
  rcases List.mem_cons.mp hx with rfl | hx
  · exact List.mem_cons_self
  · exact List.mem_cons_of_mem _ (hf.delivered x hx)

/-- A new block has a new hash. -/
theorem hash_ne (hf : Fed core env pot genesis tree db D c)
    (ht : BlockTree core env pot genesis tree) (hb : b ∈ tree) (hnew : b ∉ D) {y : Block}
    (hy : y ∈ genesis :: D) : y.hash ≠ b.hash := by
  intro heq
  obtain rfl := ht.eq_of_hash (hf.mem_tree hy) (List.mem_cons_of_mem _ hb) heq
  rcases List.mem_cons.mp hy with rfl | hy
  · exact ht.genesis_notMem hb
  · exact hnew hy

/-- No block fed before names a new block as its predecessor. -/
theorem previousHash_ne (hf : Fed core env pot genesis tree db D c)
    (ht : BlockTree core env pot genesis tree) (hb : b ∈ tree) (hnew : b ∉ D) {y : Block}
    (hy : y ∈ D) : y.previousHash ≠ b.hash := by
  obtain ⟨z, hz, hzh⟩ := hf.parents y hy
  rw [← hzh]
  exact hf.hash_ne ht hb hnew hz

/-- A known hash is that of the genesis block or of a block fed before. -/
theorem mem_of_knows (hf : Fed core env pot genesis tree db D c) {h : Bytes} (hk : c.Knows h) :
    ∃ y ∈ genesis :: D, y.hash = h := by
  rcases hk with ⟨y, hy, hyh⟩ | hk
  · exact ⟨y, hf.mem_blocks hy, hyh⟩
  · obtain ⟨x, hx⟩ := Option.isSome_iff_exists.mp hk
    exact ⟨x, List.mem_cons_of_mem _ (hf.pooled h x hx).1, (hf.window.pool h x hx).1⟩

/-- The branch of a block whose predecessor is known goes from the canonical chain through the
pool. -/
theorem trace (hf : Fed core env pot genesis tree db D c)
    (ht : BlockTree core env pot genesis tree) {x : Block} (hp : ∀ z ∈ p, z ∈ tree)
    (hbranch : Branch core env pot genesis (p ++ [x])) (hknown : c.Knows x.previousHash) :
    ∃ stem q, p = stem ++ q ∧ PoolPath c.orphanPool x.previousHash q ∧
      stem.getLastD genesis ∈ c.blocks ∧ ∀ z ∈ q, c.orphanPool.lookup z.hash = some z := by
  induction p using List.reverseRecOn generalizing x with
  | nil =>
    have hprev := hbranch.snoc.2.1
    obtain ⟨path, -, hblocks, -⟩ := hf.grown
    refine ⟨[], [], rfl, .stop ?_, by rw [hblocks]; exact List.mem_cons_self, by simp⟩
    by_contra hne
    obtain ⟨y, hy⟩ := Option.ne_none_iff_exists'.mp hne
    have hyD := (hf.pooled _ y hy).1
    have hyh := (hf.window.pool _ y hy).1
    rw [hprev] at hyh
    obtain rfl := ht.eq_of_hash (List.mem_cons_of_mem _ (hf.delivered y hyD)) List.mem_cons_self hyh
    exact ht.genesis_notMem (hf.delivered _ hyD)
  | append_singleton p y ih =>
    have hy := hp y (by simp)
    obtain ⟨hbranch', hprev, -⟩ := hbranch.snoc
    rw [List.getLastD_concat] at hprev
    cases hl : c.orphanPool.lookup x.previousHash with
    | none =>
      obtain ⟨z, hz, hzh⟩ := hknown.resolve_right (by simp [hl])
      obtain rfl := ht.eq_of_hash (hf.mem_tree (hf.mem_blocks hz)) (List.mem_cons_of_mem _ hy)
        (hzh.trans hprev)
      exact ⟨p ++ [z], [], (List.append_nil _).symm, .stop hl, by rwa [List.getLastD_concat],
        by simp⟩
    | some z =>
      obtain ⟨hzD, hzknown⟩ := hf.pooled _ z hl
      obtain rfl := ht.eq_of_hash (List.mem_cons_of_mem _ (hf.delivered z hzD))
        (List.mem_cons_of_mem _ hy) ((hf.window.pool _ z hl).1.trans hprev)
      obtain ⟨stem, q, rfl, hpath, hstem, hq⟩ :=
        ih (fun w hw => hp w (List.mem_append_left _ hw)) hbranch' hzknown
      refine ⟨stem, q ++ [z], List.append_assoc _ _ _, .step hl hpath, hstem, fun w hw => ?_⟩
      rcases List.mem_append.mp hw with hw | hw
      · exact hq w hw
      · rw [List.mem_singleton.mp hw, ← hprev, hl]

/-- A new block whose predecessor was fed before keeps the parents. -/
theorem parents_cons (hf : Fed core env pot genesis tree db D c)
    (hb : ∃ y ∈ genesis :: D, y.hash = b.previousHash) :
    ∀ x ∈ b :: D, ∃ y ∈ genesis :: b :: D, y.hash = x.previousHash := by
  have hsub : ∀ y ∈ genesis :: D, y ∈ genesis :: b :: D :=
    (List.Sublist.cons_cons genesis (List.sublist_cons_self b D)).subset
  refine List.forall_mem_cons.mpr ⟨?_, fun x hx => ?_⟩
  · obtain ⟨y, hy, hyh⟩ := hb
    exact ⟨y, hsub y hy, hyh⟩
  · obtain ⟨y, hy, hyh⟩ := hf.parents x hx
    exact ⟨y, hsub y hy, hyh⟩

theorem getElem?_length (g : Block) (p m : List Block) :
    (g :: (p ++ m))[p.length]? = some (p.getLastD g) := by
  cases p using List.reverseRecOn with
  | nil => rfl
  | append_singleton p z =>
    rw [List.length_append, List.length_singleton, List.getElem?_cons_succ, List.getLastD_concat,
      List.append_assoc, List.getElem?_append_right (Nat.le_refl _), Nat.sub_self]
    rfl

/-- A branch that leaves the canonical chain attaches to it at the height of the last common
block, and competes with the canonical blocks above. -/
theorem attaches (hf : Fed core env pot genesis tree db D c)
    (ht : BlockTree core env pot genesis tree) {stem fork : List Block} {first : Block}
    (hstem : ∀ z ∈ stem, z ∈ tree) (hbranch : Branch core env pot genesis (stem ++ fork))
    (hfirst : fork.head? = some first) (hmem : stem.getLastD genesis ∈ c.blocks) :
    ∃ m, c.blocks = genesis :: (stem ++ m) ∧ c.ancestorIndex db first = some stem.length ∧
      c.mainWork db stem.length = some (chainSegmentWork m) := by
  obtain ⟨path, full, hblocks, hpath, hgrow, -⟩ := hf.grown
  rw [hblocks] at hmem
  obtain ⟨m, rfl⟩ := ht.eq_append hstem (fun z hz => hf.delivered z (hpath z hz))
    hbranch.of_append ⟨full, hgrow⟩ hmem
  have hl := hf.indexed stem.length (stem.getLastD genesis)
    (by rw [hblocks, getElem?_length])
  rw [← hbranch.head_append hfirst] at hl
  refine ⟨m, hblocks, ?_, ?_⟩
  · simp only [Blockchain.ancestorIndex, hl]
  · have hindex := hf.window.index
    rw [hf.whole] at hindex
    rw [Blockchain.mainWork, if_pos (by rw [hf.whole]; exact Nat.zero_le _),
      filter_index_eq_drop hindex, hblocks]
    simp

/-! ### A block on the tip -/

theorem getLatestHash_eq (hblocks : c.blocks = genesis :: p) :
    c.getLatestHash = (p.getLastD genesis).hash := by
  rw [Blockchain.getLatestHash, hblocks, List.getLast?_cons, List.getLastD_eq_getLast?]
  rfl

/-- The branch of a block on the tip is the canonical chain, whose whole form accepts the block. -/
theorem appends (hf : Fed core env pot genesis tree db D c)
    (ht : BlockTree core env pot genesis tree) (hb : b ∈ tree)
    (htip : b.previousHash = c.getLatestHash) :
    ∃ path full full', c.blocks = genesis :: path ∧ (∀ x ∈ path, x ∈ D) ∧ full.PrunedFrom c ∧
      Blockchain.Appends core full b full' ∧
      Grows core (freshChain env pot genesis) (path ++ [b]) full' ∧
      b.previousHash = (path.getLastD genesis).hash := by
  obtain ⟨path, full, hblocks, hpath, hgrow, hpruned⟩ := hf.grown
  have hpathTree : ∀ x ∈ path, x ∈ tree := fun x hx => hf.delivered x (hpath x hx)
  obtain ⟨branch, hbranchTree, hbranch, hprev⟩ := ht.branch_of_mem hb
  obtain rfl := ht.branch_unique hbranchTree hpathTree hbranch.snoc.1 ⟨full, hgrow⟩
    (hprev.symm.trans (htip.trans (getLatestHash_eq hblocks)))
  obtain ⟨full', hd⟩ := hbranch
  obtain ⟨mid, hmid, hrest⟩ := hd.split
  obtain rfl := Blockchain.Grows.unique hmid hgrow
  obtain _ | ⟨hs, hnil⟩ := hrest
  cases hnil
  exact ⟨branch, mid, full', hblocks, hpath, hpruned, hs, hd, hprev⟩

/-- A block on the tip is appended. -/
theorem append (hf : Fed core env pot genesis tree db D c)
    (ht : BlockTree core env pot genesis tree) (hb : b ∈ tree) (hnew : b ∉ D) {now : ℕ}
    (htime : b.timestamp ≤ now + 120) (htip : b.previousHash = c.getLatestHash) :
    ∃ c', c.updateState core now b = .ok (some c') ∧
      Fed core env pot genesis tree db (b :: D) c' := by
  obtain ⟨branch, full, d, hblocks, hpath, hpruned, hs, hd, hprev⟩ := hf.appends ht hb htip
  have hpathTree : ∀ x ∈ branch, x ∈ tree := fun x hx => hf.delivered x (hpath x hx)
  obtain ⟨c', hc', hpruned'⟩ := hpruned.accepts (Blockchain.updateState_at hs.choose_spec htime)
  have ha := Blockchain.appended_of_updateState hc'
  have hblocks' : c'.blocks = genesis :: (branch ++ [b]) := by
    rw [ha.blocks, hblocks, List.cons_append]
  have hlast : branch.getLastD genesis ∈ c.blocks := by
    rw [hblocks]
    exact getLastD_mem fun _ h => h
  have hknown : c.Knows b.previousHash := .inl ⟨_, hlast, hprev.symm⟩
  have hnot : ∀ y ∈ c.blocks, y.hash ≠ b.hash := fun y hy =>
    hf.hash_ne ht hb hnew (hf.mem_blocks hy)
  have hchild : ∀ y ∈ b :: D, y.previousHash ≠ b.hash := by
    intro y hy
    rcases List.mem_cons.mp hy with rfl | hy
    · rw [hprev]
      exact hf.hash_ne ht hb hnew (hf.mem_blocks hlast)
    · exact hf.previousHash_ne ht hb hnew hy
  refine ⟨c', hc', ?_, ⟨branch ++ [b], d, hblocks', ?_, hd, hpruned'⟩, hf.window.append ha,
    ha.indexed hf.indexed hf.whole hnot, List.forall_mem_cons.mpr ⟨hb, hf.delivered⟩,
    hf.parents_cons (hf.mem_of_knows hknown), ?_, ?_, ?_, ?_⟩
  · rw [ha.blocksOffset, hf.whole]
  · intro x hx
    rcases List.mem_append.mp hx with hx | hx
    · exact List.mem_cons_of_mem _ (hpath x hx)
    · exact List.mem_singleton.mp hx ▸ List.mem_cons_self
  · intro k x hx
    rw [ha.orphanPool] at hx
    obtain ⟨hxD, hxk⟩ := hf.pooled k x hx
    refine ⟨List.mem_cons_of_mem _ hxD, ?_⟩
    rw [Blockchain.Knows, ha.orphanPool, ha.blocks]
    rcases hxk with ⟨y, hy, hyh⟩ | hxk
    · exact .inl ⟨y, List.mem_append_left _ hy, hyh⟩
    · exact .inr hxk
  · rw [ha.getLatestHash]
    exact hchild
  · intro path' y hpath' hbranch' hy
    rw [hblocks', List.tail_cons]
    rcases List.mem_cons.mp hy with rfl | hy
    · rw [ht.branch_unique_snoc hpath' hpathTree hbranch' ⟨d, hd⟩]
    · apply (hf.heaviest path' y hpath' hbranch' hy).trans
      rw [hblocks, List.tail_cons, chainSegmentWork, chainSegmentWork, List.map_append]
      exact Word.saturatingSum_le_append 128 _ _
  · apply ha.settled hf.settled
    intro x hx
    obtain ⟨k, hk⟩ := HashTable.mem_values.mp hx
    exact hchild x (List.mem_cons_of_mem _ (hf.pooled k x hk).1)

/-! ### A block beside the tip -/

/-- The predecessor of a welcome new block is another block. -/
theorem previousHash_ne_hash (hf : Fed core env pot genesis tree db D c)
    (ht : BlockTree core env pot genesis tree) (hb : b ∈ tree) (hnew : b ∉ D)
    (hk : c.Knows b.previousHash) : b.previousHash ≠ b.hash := by
  obtain ⟨y, hy, hyh⟩ := hf.mem_of_knows hk
  rw [← hyh]
  exact hf.hash_ne ht hb hnew hy

/-- Pooling a new block keeps the orphans, which no orphan of before names as its predecessor. -/
theorem lookup_insert (hf : Fed core env pot genesis tree db D c)
    (ht : BlockTree core env pot genesis tree) (hb : b ∈ tree) (hnew : b ∉ D) {k : Bytes}
    {x : Block} : (c.orphanPool.insert b.hash b).lookup k = some x ↔
      (k = b.hash ∧ x = b) ∨ c.orphanPool.lookup k = some x := by
  by_cases hk : k = b.hash
  · subst hk
    rw [AList.lookup_insert, Option.some.injEq]
    refine ⟨fun h => .inl ⟨rfl, h.symm⟩, fun h => h.elim (fun h => h.2.symm) fun h => ?_⟩
    exact absurd (hf.window.pool _ x h).1
      (hf.hash_ne ht hb hnew (List.mem_cons_of_mem _ (hf.pooled _ x h).1))
  · rw [AList.lookup_insert_ne hk]
    exact ⟨.inr, fun h => h.resolve_left fun h => hk h.1⟩

/-- No orphan names a new block as its predecessor. -/
theorem orphan_previousHash_ne (hf : Fed core env pot genesis tree db D c)
    (ht : BlockTree core env pot genesis tree) (hb : b ∈ tree) (hnew : b ∉ D) :
    ∀ k x, c.orphanPool.lookup k = some x → x.previousHash ≠ b.hash := fun k x hx =>
  hf.previousHash_ne ht hb hnew (hf.pooled k x hx).1

/-- The orphans of before lead to no candidate after a new block is pooled. -/
theorem forkCandidate_insert (hf : Fed core env pot genesis tree db D c)
    (ht : BlockTree core env pot genesis tree) (hb : b ∈ tree) (hnew : b ∉ D) {d : Blockchain}
    (hpool : d.orphanPool = c.orphanPool.insert b.hash b)
    (hanc : ∀ first, d.ancestorIndex db first = c.ancestorIndex db first)
    (hmain : ∀ a, d.mainWork db a = c.mainWork db a) {order : PoolOrder} {tip : Block}
    (htip : tip ∈ Blockchain.poolTips order d.orphanPool) (hne : tip ≠ b) :
    d.forkCandidate db tip = .ok none := by
  obtain ⟨k, hk, hlast⟩ := Blockchain.mem_poolTips.mp htip
  rw [hpool] at hk hlast
  have hkc : c.orphanPool.lookup k = some tip :=
    ((hf.lookup_insert ht hb hnew).mp hk).resolve_left fun h => hne h.2
  have hnone := Blockchain.settled_iff.mp hf.settled k tip hkc fun j x hx =>
    hlast j x ((hf.lookup_insert ht hb hnew).mpr (.inr hx))
  obtain ⟨chain, htrace, hbeaten⟩ := Blockchain.forkCandidate_eq_none.mp hnone
  obtain ⟨path, hpath, hlen, hchain⟩ := Blockchain.traceForkChain_eq_ok.mp htrace
  have hall := hf.orphan_previousHash_ne ht hb hnew
  refine Blockchain.forkCandidate_eq_none.mpr
    ⟨chain, Blockchain.traceForkChain_eq_ok.mpr ⟨path, ?_, ?_, hchain⟩, fun a ha work hwork => ?_⟩
  · rw [hpool]
    exact hpath.insert (hall k tip hkc) hall
  · rw [hpool]
    exact hlen.trans (HashTable.size_le_insert _ _ _)
  · rw [hmain] at hwork
    rw [funext hanc] at ha
    exact hbeaten a ha work hwork

/-- A pooled block is the tip of the orphans that lead to it. -/
theorem traceForkChain_insert (hf : Fed core env pot genesis tree db D c)
    (ht : BlockTree core env pot genesis tree) (hb : b ∈ tree) (hnew : b ∉ D)
    (hk : c.Knows b.previousHash) {d : Blockchain}
    (hpool : d.orphanPool = c.orphanPool.insert b.hash b) {stem q : List Block}
    (hpathTree : ∀ z ∈ stem ++ q, z ∈ tree)
    (hbranch : Branch core env pot genesis (stem ++ q ++ [b]))
    (hpath : PoolPath c.orphanPool b.previousHash q)
    (hq : ∀ z ∈ q, c.orphanPool.lookup z.hash = some z) {order : PoolOrder} :
    b ∈ Blockchain.poolTips order d.orphanPool ∧ d.traceForkChain b = .ok (q ++ [b]) := by
  have hprev := hf.previousHash_ne_hash ht hb hnew hk
  have hall := hf.orphan_previousHash_ne ht hb hnew
  have hnodup : (q.map fun z => z.hash).Nodup := by
    refine List.Nodup.map_on (fun x hx y hy h => ?_) (hbranch.snoc.1.nodup.sublist
      (List.sublist_append_right stem q))
    exact ht.eq_of_hash (List.mem_cons_of_mem _ (hpathTree x (List.mem_append_right _ hx)))
      (List.mem_cons_of_mem _ (hpathTree y (List.mem_append_right _ hy))) h
  constructor
  · refine Blockchain.mem_poolTips.mpr ⟨b.hash, ?_, fun j x hx => ?_⟩
    · rw [hpool, AList.lookup_insert]
    · rw [hpool] at hx
      rcases (hf.lookup_insert ht hb hnew).mp hx with ⟨-, rfl⟩ | hx
      · exact hprev
      · exact hall j x hx
  · refine Blockchain.traceForkChain_eq_ok.mpr ⟨q, ?_, ?_, rfl⟩
    · rw [hpool]
      exact hpath.insert hprev hall
    · rw [hpool]
      exact (HashTable.length_le_size hnodup fun z hz => ⟨z, hq z hz⟩).trans
        (HashTable.size_le_insert _ _ _)

/-- After a welcome block is pooled, the search finds the branch that it ends, if that beats the
canonical blocks above its ancestor, and nothing otherwise. -/
theorem search (hf : Fed core env pot genesis tree db D c)
    (ht : BlockTree core env pot genesis tree) (hb : b ∈ tree) (hnew : b ∉ D)
    (hk : c.Knows b.previousHash) (hroom : c.HasRoom b.index) (order : PoolOrder) :
    ∃ stem q m, c.blocks = genesis :: (stem ++ m) ∧
      Branch core env pot genesis (stem ++ q ++ [b]) ∧ (∀ z ∈ stem ++ q, z ∈ D) ∧
      ((chainSegmentWork (q ++ [b]) ≤ chainSegmentWork m ∧ (c.admitOrphan order b).Settled db) ∨
        (chainSegmentWork m < chainSegmentWork (q ++ [b]) ∧
          Blockchain.findLongestFork order (c.admitOrphan order b) db =
            .ok (some (q ++ [b], stem.length)))) := by
  have hpool : (c.admitOrphan order b).orphanPool = c.orphanPool.insert b.hash b :=
    Blockchain.admitOrphan_of_hasRoom hroom
  -- where the branch of the block leaves the canonical chain
  obtain ⟨path, hpathTree, hbranch, -⟩ := ht.branch_of_mem hb
  obtain ⟨stem, q, rfl, hpath, hstem, hq⟩ := hf.trace ht hpathTree hbranch hk
  obtain ⟨first, hfirst⟩ : ∃ first, (q ++ [b]).head? = some first := by
    cases q with
    | nil => exact ⟨b, rfl⟩
    | cons z q => exact ⟨z, rfl⟩
  obtain ⟨m, hblocks, hanc, hmain⟩ :=
    hf.attaches ht (fun z hz => hpathTree z (List.mem_append_left _ hz))
      (by rwa [List.append_assoc] at hbranch) hfirst hstem
  have hD : ∀ z ∈ stem ++ q, z ∈ D := by
    intro z hz
    rcases List.mem_append.mp hz with hz | hz
    · obtain ⟨canonical, -, hc, hcD, -⟩ := hf.grown
      rw [hblocks, List.cons.injEq] at hc
      exact hcD z (hc.2 ▸ List.mem_append_left _ hz)
    · exact (hf.pooled _ z (hq z hz)).1
  have hself : b ∈ Blockchain.poolTips order (c.admitOrphan order b).orphanPool ∧
      (c.admitOrphan order b).traceForkChain b = .ok (q ++ [b]) :=
    hf.traceForkChain_insert ht hb hnew hk hpool hpathTree hbranch hpath hq
  obtain ⟨hbtip, htrace⟩ := hself
  have hothers : ∀ tip ∈ Blockchain.poolTips order (c.admitOrphan order b).orphanPool, tip ≠ b →
      (c.admitOrphan order b).forkCandidate db tip = .ok none := fun tip htip hne =>
    hf.forkCandidate_insert ht hb hnew hpool (fun _ => rfl) (fun _ => rfl) htip hne
  refine ⟨stem, q, m, hblocks, hbranch, hD, ?_⟩
  by_cases hbeats : chainSegmentWork m < chainSegmentWork (q ++ [b])
  · have hcand : (c.admitOrphan order b).forkCandidate db b =
        .ok (some ⟨q ++ [b], stem.length, chainSegmentWork (q ++ [b])⟩) :=
      Blockchain.forkCandidate_eq_some.mpr
        ⟨htrace, by rw [hfirst]; exact hanc, rfl, _, hmain, hbeats⟩
    exact .inr ⟨hbeats, Blockchain.findLongestFork_of_others hbtip hcand hothers⟩
  · have hle := Nat.not_lt.mp hbeats
    have hcand : (c.admitOrphan order b).forkCandidate db b = .ok none := by
      refine Blockchain.forkCandidate_eq_none.mpr ⟨_, htrace, fun a ha work hwork => ?_⟩
      rw [hfirst] at ha
      cases hanc.symm.trans ha
      cases hmain.symm.trans hwork
      exact hle
    exact .inl ⟨hle, Blockchain.settled_of_findLongestFork
      (Blockchain.findLongestFork_of_others hbtip hcand hothers)⟩

/-- A block whose branch does not beat the canonical chain is kept as an orphan. -/
theorem orphaned (hf : Fed core env pot genesis tree db D c)
    (ht : BlockTree core env pot genesis tree) (hb : b ∈ tree) (hnew : b ∉ D)
    (hw : c.Welcome core b) (hside : b.previousHash ≠ c.getLatestHash) {order : PoolOrder}
    {stem q m : List Block} (hblocks : c.blocks = genesis :: (stem ++ m))
    (hbranch : Branch core env pot genesis (stem ++ q ++ [b])) (hD : ∀ z ∈ stem ++ q, z ∈ D)
    (hle : chainSegmentWork (q ++ [b]) ≤ chainSegmentWork m)
    (hs : (c.admitOrphan order b).Settled db) :
    Fed core env pot genesis tree db (b :: D) (c.admitOrphan order b) := by
  obtain ⟨hv, hroom⟩ := hw.2 hside
  have hpool : (c.admitOrphan order b).orphanPool = c.orphanPool.insert b.hash b :=
    Blockchain.admitOrphan_of_hasRoom hroom
  obtain ⟨path, full, hpath, hpathD, hgrow, hpruned⟩ := hf.grown
  refine ⟨hf.whole, ⟨path, full, hpath, fun x hx => List.mem_cons_of_mem _ (hpathD x hx), hgrow,
    hpruned.congr rfl rfl rfl rfl rfl⟩, hf.window.admitOrphan hv, hf.indexed,
    List.forall_mem_cons.mpr ⟨hb, hf.delivered⟩, hf.parents_cons (hf.mem_of_knows hw.1), ?_,
    List.forall_mem_cons.mpr ⟨hside, hf.last⟩, ?_, hs⟩
  · intro k x hx
    rw [hpool] at hx
    have hknows : ∀ {h : Bytes}, c.Knows h → (c.admitOrphan order b).Knows h := by
      rintro h (hk | hk)
      · exact .inl hk
      · obtain ⟨y, hy⟩ := Option.isSome_iff_exists.mp hk
        refine .inr ?_
        rw [hpool, (hf.lookup_insert ht hb hnew).mpr (.inr hy)]
        rfl
    rcases (hf.lookup_insert ht hb hnew).mp hx with ⟨-, rfl⟩ | hx
    · exact ⟨List.mem_cons_self, hknows hw.1⟩
    · obtain ⟨hxD, hxk⟩ := hf.pooled k x hx
      exact ⟨List.mem_cons_of_mem _ hxD, hknows hxk⟩
  · intro path' y hpath' hbranch' hy
    rcases List.mem_cons.mp hy with rfl | hy
    · have hsame := ht.branch_unique_snoc hpath' (fun z hz => hf.delivered z (hD z hz)) hbranch'
        hbranch
      have hwork := Word.saturatingAdd_mono_right 128 (chainSegmentWork stem) hle
      rw [hsame, List.append_assoc, chainSegmentWork_append]
      apply hwork.trans_eq
      rw [← chainSegmentWork_append]
      exact congrArg (fun l => chainSegmentWork l.tail) hblocks.symm
    · exact hf.heaviest path' y hpath' hbranch' hy

/-- The branch of a block that beats the canonical chain, applied from the genesis block on, leaves
a chain that has been fed the block. -/
theorem rebuilt (hf : Fed core env pot genesis tree db D c)
    (ht : BlockTree core env pot genesis tree) (hi : genesis.index = 0) (hb : b ∈ tree)
    (hnew : b ∉ D) (hk : c.Knows b.previousHash) {stem q m : List Block}
    (hblocks : c.blocks = genesis :: (stem ++ m)) (hD : ∀ z ∈ stem ++ q, z ∈ D)
    (hlt : chainSegmentWork m < chainSegmentWork (q ++ [b])) {c' d : Blockchain}
    (hd : Blockchain.Grows core (freshChain env pot genesis) (stem ++ q ++ [b]) d)
    (hgrow : Blockchain.Grows core (c.reset genesis) (stem ++ q ++ [b]) c')
    (hpruned : d.PrunedFrom c') : Fed core env pot genesis tree db (b :: D) c' := by
  have hmem : ∀ z ∈ stem ++ q ++ [b], z ∈ b :: D := by
    intro z hz
    rcases List.mem_append.mp hz with hz | hz
    · exact List.mem_cons_of_mem _ (hD z hz)
    · exact List.mem_singleton.mp hz ▸ List.mem_cons_self
  have hdelivered : ∀ z ∈ b :: D, z ∈ tree := List.forall_mem_cons.mpr ⟨hb, hf.delivered⟩
  have hblocks' : c'.blocks = genesis :: (stem ++ q ++ [b]) := hgrow.blocks
  have hempty : c'.orphanPool = ∅ := hgrow.orphanPool
  refine ⟨hgrow.blocksOffset, ⟨_, d, hblocks', hmem, hd, hpruned⟩,
    (Blockchain.windowSound_reset hi).grows hgrow, ?_, hdelivered,
    hf.parents_cons (hf.mem_of_knows hk), ?_, ?_, ?_, Blockchain.settled_of_empty hempty⟩
  · exact (Blockchain.indexed_reset c genesis).grows rfl hgrow
      (ht.nodup_hashes (fun z hz => hdelivered z (hmem z hz)) ⟨d, hd⟩)
  · intro k x hx
    rw [hempty] at hx
    simp at hx
  · have hlatest : c'.getLatestHash = b.hash := by
      rw [Blockchain.getLatestHash, hblocks', ← List.cons_append, List.getLast?_concat]
      rfl
    rw [hlatest]
    exact List.forall_mem_cons.mpr
      ⟨hf.previousHash_ne_hash ht hb hnew hk, fun y hy => hf.previousHash_ne ht hb hnew hy⟩
  · intro path' y hpath' hbranch' hy
    rw [hblocks', List.tail_cons]
    rcases List.mem_cons.mp hy with rfl | hy
    · rw [ht.branch_unique_snoc hpath' (fun z hz => hf.delivered z (hD z hz)) hbranch' ⟨d, hd⟩]
    · have hwork := Word.saturatingAdd_mono_right 128 (chainSegmentWork stem) hlt.le
      apply (hf.heaviest path' y hpath' hbranch' hy).trans
      rw [hblocks, List.tail_cons, chainSegmentWork_append, List.append_assoc,
        chainSegmentWork_append]
      exact hwork

/-- A block whose branch beats the canonical chain makes it canonical. -/
theorem reorged (hf : Fed core env pot genesis tree db D c)
    (ht : BlockTree core env pot genesis tree) (hi : genesis.index = 0) (hpot : pot < 2 ^ 64)
    (hb : b ∈ tree) (hnew : b ∉ D) (hk : c.Knows b.previousHash)
    (htime : ∀ x ∈ tree, ∀ k, x.timestamp ≤ ambient.clock k + 120)
    {stem q m : List Block} (hblocks : c.blocks = genesis :: (stem ++ m))
    (hbranch : Branch core env pot genesis (stem ++ q ++ [b])) (hD : ∀ z ∈ stem ++ q, z ∈ D)
    (hlt : chainSegmentWork m < chainSegmentWork (q ++ [b])) :
    ∃ new c', c.splice (q ++ [b]) stem.length = .ok (new, m) ∧
      (c.admitOrphan ambient.order b).reorgTo core (laterReadings ambient.clock) new db = .ok c' ∧
      Fed core env pot genesis tree db (b :: D) c' := by
  obtain ⟨path, full, -, -, hgrow, hpruned⟩ := hf.grown
  have htree : ∀ z ∈ stem ++ q ++ [b], z ∈ tree := by
    intro z hz
    rcases List.mem_append.mp hz with hz | hz
    · exact hf.delivered z (hD z hz)
    · exact List.mem_singleton.mp hz ▸ hb
  -- the branch was accepted by a fresh chain, and so it is by the chain that is reset
  obtain ⟨d, hd⟩ := hbranch
  have hall : Blockchain.applyAll core (laterReadings ambient.clock)
      (freshChain env pot genesis) (stem ++ q ++ [b]) = .ok (some d) :=
    hd.applyAll fun z hz k => htime z (htree z hz) (k + 1)
  obtain ⟨c', hc', hpruned'⟩ := (prunedFrom_reset hpruned hgrow hpot).applyAll hall
  have htake : c.blocks.take (stem.length + 1) ++ (q ++ [b]) = genesis :: (stem ++ q ++ [b]) := by
    rw [hblocks, List.take_succ_cons, List.take_left, List.cons_append, List.append_assoc]
  have hdrop : c.blocks.drop (stem.length + 1) = m := by
    rw [hblocks, List.drop_succ_cons, List.drop_left]
  refine ⟨genesis :: (stem ++ q ++ [b]), c', Blockchain.splice_eq_ok.mpr (.inl ?_),
    Blockchain.reorgTo_eq_ok.mpr (.inr ⟨genesis, stem ++ q ++ [b], ?_, ?_⟩),
    hf.rebuilt ht hi hb hnew hk hblocks hD hlt hd (Blockchain.applyAll_grows hc') hpruned'⟩
  · have hlen := congrArg List.length hblocks
    rw [List.length_cons, List.length_append] at hlen
    rw [hf.whole, Nat.sub_zero]
    exact ⟨Nat.zero_le _, by omega, htake.symm, hdrop.symm⟩
  · exact if_neg (by omega)
  · exact (Blockchain.replay_complete_iff.mp hc').1

/-- A welcome block that is new leaves a chain that has been fed it. -/
theorem step (hf : Fed core env pot genesis tree db D c)
    (ht : BlockTree core env pot genesis tree) (hi : genesis.index = 0) (hpot : pot < 2 ^ 64)
    (hb : b ∈ tree) (hnew : b ∉ D) (hw : c.Welcome core b)
    (htime : ∀ x ∈ tree, ∀ k, x.timestamp ≤ ambient.clock k + 120) :
    ∃ outcome c', c.applyInMemory core ambient b db = .ok (outcome, c') ∧
      Fed core env pot genesis tree db (b :: D) c' := by
  by_cases htip : b.previousHash = c.getLatestHash
  · obtain ⟨c', hup, hf'⟩ := hf.append ht hb hnew (htime b hb 0) htip
    exact ⟨.applied, c', Blockchain.applyInMemory_eq_ok.mpr (.inl ⟨rfl, hup⟩), hf'⟩
  have hlink : c.linksToTip b = false := by
    rw [← Bool.not_eq_true, Blockchain.linksToTip_iff]
    exact fun h => htip h.2
  have hup : c.updateState core (ambient.clock 0) b = .ok none := by
    rw [Blockchain.updateState_eq_none, Blockchain.acceptsBlock, hlink]
    simp
  have hadmits : c.admits core ambient b = some (c.admitOrphan ambient.order b) :=
    Blockchain.admits_eq_some.mpr ⟨hup, hlink, (hw.2 htip).1, rfl⟩
  obtain ⟨stem, q, m, hblocks, hbranch, hD, ⟨hle, hs⟩ | ⟨hlt, hfound⟩⟩ :=
    hf.search ht hb hnew hw.1 (hw.2 htip).2 ambient.order
  · refine ⟨.orphaned, _, Blockchain.applyInMemory_eq_ok.mpr (.inr (.inr (.inl ?_))),
      hf.orphaned ht hb hnew hw htip hblocks hbranch hD hle hs⟩
    exact ⟨rfl, hadmits, hs ambient.order⟩
  · obtain ⟨new, c', hsplice, hre, hf'⟩ :=
      hf.reorged ht hi hpot hb hnew hw.1 htime hblocks hbranch hD hlt
    refine ⟨.reorged m (q ++ [b]), c', Blockchain.applyInMemory_eq_ok.mpr ?_, hf'⟩
    refine .inr (.inr (.inr ?_))
    exact ⟨m, q ++ [b], stem.length, new, rfl, hadmits, hfound, hsplice, hre⟩

end Fed

end Node

end Lootcoin
