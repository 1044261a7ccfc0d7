import Lootcoin.Node.CatchUp
import Lootcoin.Node.View

/-! Agreement and progress, where every fork that a reorganization chooses replays completely.  Two
nodes with one genesis block then agree up to where their chains part, and share no block above it,
whatever blocks each was sent and in which order.  A node that changes its chain raises the work
that the hashes of the chain show, so it never returns to a chain that it left.  A fork of which a
block is refused in the replay breaks both, since it leaves the node on a part of it. -/

namespace Lootcoin

/-- Two lists part after the longest list that begins both. -/
theorem exists_common_prefix {α : Type*} (l m : List α) :
    ∃ common left right, l = common ++ left ∧ m = common ++ right ∧
      ∀ x, left.head? = some x → right.head? ≠ some x := by
  induction l generalizing m with
  | nil => exact ⟨[], [], m, rfl, rfl, by simp⟩
  | cons x l ih =>
    cases m with
    | nil => exact ⟨[], x :: l, [], rfl, rfl, by simp⟩
    | cons y m =>
      by_cases hxy : x = y
      · obtain ⟨common, left, right, rfl, rfl, hparts⟩ := ih m
        exact ⟨x :: common, left, right, rfl, by rw [hxy, List.cons_append], hparts⟩
      · refine ⟨[], x :: l, y :: m, rfl, rfl, ?_⟩
        rintro _ ⟨⟩ heq
        exact hxy (Option.some.inj heq).symm

/-- Two chains agree up to where they part, and no hash is in both above it. -/
structure PartAfter (chain chain' common left right : List Block) : Prop where
  eq_left : chain = common ++ left
  eq_right : chain' = common ++ right
  apart_left : ∀ x ∈ left, ∀ y ∈ chain', x.hash ≠ y.hash
  apart_right : ∀ x ∈ chain, ∀ y ∈ right, x.hash ≠ y.hash

namespace Node

variable {core : Core} {env : Option ℚ} {pot : ℕ} {genesis : Block} {n n' m : Node}
  {ds es fs : List Delivery} {p q : List Block} {x y : Block}

/-! ### Agreement -/

/-- A branch that ends in one of its blocks. -/
theorem Branch.take_snoc (h : Branch core env pot genesis p) {i : ℕ} (hx : p[i]? = some x) :
    p.take (i + 1) = p.take i ++ [x] ∧ Branch core env pot genesis (p.take i ++ [x]) := by
  have htake : p.take (i + 1) = p.take i ++ [x] := by rw [List.take_add_one, hx, Option.toList_some]
  refine ⟨htake, Branch.of_append (q := p.drop (i + 1)) ?_⟩
  rwa [← htake, List.take_append_drop]

theorem Branch.hash_ne_nil (h : Branch core env pot genesis p) (hcore : core.CollisionFree)
    (hx : x ∈ p) : x.hash ≠ [] := by
  obtain ⟨i, hi⟩ := List.mem_iff_getElem?.mp hx
  exact hcore.nonempty (h.take_snoc hi).2.valid_snoc.1

/-- Branches that share a block hash agree up to its block. -/
theorem Branch.agree (hcore : core.CollisionFree) (hroots : core.RootsDiffer)
    (hp : Branch core env pot genesis p) (hq : Branch core env pot genesis q) {i j : ℕ}
    (hx : p[i]? = some x) (hy : q[j]? = some y) (h : x.hash = y.hash) :
    i = j ∧ p.take (i + 1) = q.take (i + 1) := by
  obtain ⟨hpx, hbx⟩ := hp.take_snoc hx
  obtain ⟨hqy, hby⟩ := hq.take_snoc hy
  have hheader : x.toHeader = y.toHeader :=
    hcore.injective hbx.valid_snoc.1 (h ▸ hby.valid_snoc.1)
  have hindex : x.index = y.index := congrArg Header.index hheader
  have hi : (p.take i).length = i :=
    List.length_take_of_le (List.getElem?_eq_some_iff.mp hx).1.le
  have hj : (q.take j).length = j :=
    List.length_take_of_le (List.getElem?_eq_some_iff.mp hy).1.le
  obtain rfl : i = j := by
    rw [hbx.snoc.2.2, hby.snoc.2.2, hi, hj] at hindex
    omega
  refine ⟨rfl, ?_⟩
  rw [hpx, hqy]
  refine hbx.unique hcore hroots hby ?_ ?_
  · rw [List.length_append, List.length_append, hi, hj]
    rfl
  · rwa [List.getLastD_concat, List.getLastD_concat]

/-- Above the block where two branches part, they share no block hash. -/
theorem Branch.apart (hcore : core.CollisionFree) (hroots : core.RootsDiffer)
    {common left right : List Block} (hp : Branch core env pot genesis (common ++ left))
    (hq : Branch core env pot genesis (common ++ right))
    (hparts : ∀ x, left.head? = some x → right.head? ≠ some x) (hx : x ∈ left)
    (hy : y ∈ common ++ right) : x.hash ≠ y.hash := by
  intro h
  obtain ⟨i, hi⟩ := List.mem_iff_getElem?.mp hx
  obtain ⟨j, hj⟩ := List.mem_iff_getElem?.mp hy
  have hi' : (common ++ left)[common.length + i]? = some x := by
    rw [List.getElem?_append_right (Nat.le_add_right _ _), Nat.add_sub_cancel_left, hi]
  obtain ⟨-, htake⟩ := hp.agree hcore hroots hq hi' hj h
  -- the block after the common ones is then the same on both branches
  have hnext := congrArg (fun l : List Block => l[common.length]?) htake
  simp only [List.getElem?_take_of_lt (show common.length < common.length + i + 1 by omega),
    List.getElem?_append_right le_rfl, Nat.sub_self, ← List.head?_eq_getElem?] at hnext
  cases left with
  | nil => simp at hx
  | cons z left => exact hparts z rfl (hnext.symm.trans rfl)

/-- Branches part after the longest one that begins both. -/
theorem Branch.parts (hcore : core.CollisionFree) (hroots : core.RootsDiffer)
    (hh : genesis.hash = []) (hp : Branch core env pot genesis p)
    (hq : Branch core env pot genesis q) :
    ∃ common left right, PartAfter (genesis :: p) (genesis :: q) (genesis :: common) left right := by
  obtain ⟨common, left, right, rfl, rfl, hparts⟩ := exists_common_prefix p q
  refine ⟨common, left, right, rfl, rfl, fun x hx y hy h => ?_, fun x hx y hy h => ?_⟩
  · rcases List.mem_cons.mp hy with rfl | hy
    · exact hp.hash_ne_nil hcore (List.mem_append_right _ hx) (h.trans hh)
    · exact hp.apart hcore hroots hq hparts hx hy h
  · rcases List.mem_cons.mp hx with rfl | hx
    · exact hq.hash_ne_nil hcore (List.mem_append_right _ hy) (h.symm.trans hh)
    · exact hq.apart hcore hroots hp (fun z hz hz' => hparts z hz' hz) hy hx h.symm

/-- Nodes whose windows are the ends of one whole chain give every block the same verdict. -/
theorem verdict_of_pruned {c d full : Blockchain} (hc : full.PrunedFrom c) (hd : full.PrunedFrom d)
    (now : ℕ) (b : Block) : (c.updateState core now b).map Option.isSome =
      (d.updateState core now b).map Option.isSome := by
  by_cases hb : b.index = c.getHeight
  · rw [hc.sameTip.verdict (hc.sameRules hb)]
    rw [hc.sameTip.getHeight, ← hd.sameTip.getHeight] at hb
    exact (hd.sameTip.verdict (hd.sameRules hb)).symm
  · have hno : ∀ {e : Blockchain}, e.getHeight = c.getHeight →
        e.updateState core now b = .ok none := by
      intro e he
      refine Blockchain.updateState_eq_none.mpr (Bool.eq_false_iff.mpr fun hacc => hb ?_)
      rw [(Blockchain.linksToTip_iff.mp (Blockchain.acceptsBlock_iff.mp hacc).1).1, he]
    rw [hno rfl, hno (hd.sameTip.getHeight.trans hc.sameTip.getHeight.symm)]

/-- What two nodes agree on: their chains up to where they part, above which they share no block
hash, and, where both chains end in one hash, the whole chain, the state, and the verdict on every
next block. -/
structure Agree (core : Core) (genesis : Block) (n n' : Node) : Prop where
  parts : ∃ common left right,
    PartAfter n.canonicalChain n'.canonicalChain (genesis :: common) left right
  same : n.chain.getLatestHash = n'.chain.getLatestHash →
    n.canonicalChain = n'.canonicalChain ∧ n.chain.toDerivedState = n'.chain.toDerivedState ∧
      ∀ now b, (n.chain.updateState core now b).map Option.isSome =
        (n'.chain.updateState core now b).map Option.isSome

theorem Consistent.agree (hcore : core.CollisionFree) (hroots : core.RootsDiffer)
    (hh : genesis.hash = []) (h : Consistent core env pot genesis n)
    (h' : Consistent core env pot genesis n') : Agree core genesis n n' := by
  obtain ⟨-, full, ht⟩ := h
  obtain ⟨-, full', ht'⟩ := h'
  obtain ⟨p, hp, hgrow⟩ := ht.blocks
  obtain ⟨q, hq, hgrow'⟩ := ht'.blocks
  have hbp : Branch core env pot genesis p := ⟨full, hgrow⟩
  have hbq : Branch core env pot genesis q := ⟨full', hgrow'⟩
  have hchain : n.canonicalChain = genesis :: p := ht.canonicalChain.trans hp
  have hchain' : n'.canonicalChain = genesis :: q := ht'.canonicalChain.trans hq
  refine ⟨by rw [hchain, hchain']; exact hbp.parts hcore hroots hh hbq, fun hhash => ?_⟩
  have hon : On core env pot genesis p n := ⟨full, ht, hp⟩
  have hon' : On core env pot genesis q n' := ⟨full', ht', hq⟩
  rw [hon.getLatestHash, hon'.getLatestHash] at hhash
  obtain rfl : p = q := by
    cases p using List.reverseRecOn with
    | nil =>
      cases q using List.reverseRecOn with
      | nil => rfl
      | append_singleton q y =>
        rw [List.getLastD_concat] at hhash
        exact absurd (hhash.symm.trans hh) (hbq.hash_ne_nil hcore (by simp))
    | append_singleton p x =>
      cases q using List.reverseRecOn with
      | nil =>
        rw [List.getLastD_concat] at hhash
        exact absurd (hhash.trans hh) (hbp.hash_ne_nil hcore (by simp))
      | append_singleton q y =>
        rw [List.getLastD_concat, List.getLastD_concat] at hhash
        obtain ⟨hlength, htake⟩ := hbp.agree hcore hroots hbq List.getElem?_concat_length
          List.getElem?_concat_length hhash
        rwa [List.take_of_length_le (by simp), List.take_of_length_le (by simp [hlength])] at htake
  obtain rfl := hgrow.unique hgrow'
  exact ⟨hchain.trans hchain'.symm, by rw [ht.pruned.derived, ht'.pruned.derived],
    verdict_of_pruned ht.pruned ht'.pruned⟩

/-- In every interleaving of deliveries to the nodes of a network in which every fork that a
reorganization chooses replays completely, any two of the nodes agree. -/
theorem agreement_of_network {κ : Type*} {s : κ → Node} {es : List (κ × Delivery)}
    (hcore : core.CollisionFree) (hroots : core.RootsDiffer) (hi : genesis.index = 0)
    (hh : genesis.hash = []) (hpot : pot < 2 ^ 64)
    (run : Runs.Run (Runs.Interleaves (DeliversCompletely core))
      (fun _ => fresh env pot genesis) es s) (k k' : κ) : Agree core genesis (s k) (s k') := by
  obtain ⟨ds, hrun⟩ := run.component k
  obtain ⟨ds', hrun'⟩ := run.component k'
  exact (consistent_of_run hi hpot hrun).agree hcore hroots hh (consistent_of_run hi hpot hrun')

/-! ### Progress -/

/-- The work that the hashes of blocks show, without the bound of a machine word. -/
def hashWork (blocks : List Block) : ℕ := (blocks.map fun b => blockWork b.hash).sum

theorem hashWork_append (l r : List Block) : hashWork (l ++ r) = hashWork l + hashWork r := by
  rw [hashWork, List.map_append, List.sum_append, hashWork, hashWork]

theorem hashWork_singleton_pos (b : Block) : 0 < hashWork [b] := by
  show 0 < Word.shiftOne 128 (leadingZeroBits b.hash) + 0
  unfold Word.shiftOne
  split
  · exact Nat.lt_add_right 0 (Nat.two_pow_pos _)
  · decide

/-- A saturating sum that lies below another is exact. -/
theorem hashWork_lt {l r : List Block} (h : chainSegmentWork l < chainSegmentWork r) :
    hashWork l < hashWork r := by
  simp only [chainSegmentWork, Word.saturatingSum_eq] at h
  unfold hashWork
  omega

/-- A delivery leaves the whole chain as it is or raises its work. -/
theorem Tracks.advances {ambient : Ambient} {b : Block} {outcome : BlockOutcome}
    {full : Blockchain} (ht : Tracks core env pot genesis n full) (hcore : core.CollisionFree)
    (hn : Sound core n) (hd : Hashed core n) (hi : genesis.index = 0) (hh : genesis.hash = [])
    (hpot : pot < 2 ^ 64) (hfits : b.Fits) (h : Effect core ambient n b n' outcome)
    (hrep : n.chain.ForkReplays core ambient b (some n.db.reader)) :
    ∃ full', Tracks core env pot genesis n' full' ∧
      (full'.blocks = full.blocks ∨ hashWork full.blocks < hashWork full'.blocks) := by
  cases h with
  | applied hup hchain hblocks =>
    obtain ⟨full', hfull, -, ht'⟩ := ht.applied hfits hup hchain hblocks
    refine ⟨full', ht', .inr ?_⟩
    rw [hfull, hashWork_append]
    exact Nat.lt_add_of_pos_right (hashWork_singleton_pos b)
  | rejected _ _ heq => exact heq ▸ ⟨full, ht, .inl rfl⟩
  | orphaned hadm hfind heq =>
    subst heq
    exact ⟨full, ht.orphaned hfits (.orphaned hadm hfind rfl), .inl rfl⟩
  | @reorged old fork new ancestor chain payouts hre hchain hblocks =>
    obtain ⟨full', hfull, ht'⟩ := ht.reorged hn hi hpot hfits hre hchain hblocks hrep
    obtain ⟨-, -, -, -, -, -, -, -, -, work, hwork, hlt⟩ :=
      Blockchain.fork_of_findLongestFork hre.found
    have hmain : n.chain.mainWork (some n.db.reader) ancestor = some work := hwork
    rw [(ht.views hcore hi hh hn hd).mainWork, Option.some.injEq] at hmain
    have hsplit := List.take_append_drop (ancestor + 1) full.blocks
    refine ⟨full', ht', .inr ?_⟩
    rw [← hsplit, hfull.blocks, hashWork_append, hashWork_append]
    exact Nat.add_lt_add_left (hashWork_lt (hmain ▸ hlt)) _

/-- Deliveries from a reachable node leave its canonical chain as it is or raise the work. -/
theorem advances_of_run (hcore : core.CollisionFree) (hi : genesis.index = 0)
    (hh : genesis.hash = []) (hpot : pot < 2 ^ 64)
    (run : Runs.Run (DeliversCompletely core) (fresh env pot genesis) ds n)
    (later : Runs.Run (DeliversCompletely core) n es m) :
    m.canonicalChain = n.canonicalChain ∨ hashWork n.canonicalChain < hashWork m.canonicalChain := by
  have hall : ∀ {ds n}, Runs.Run (DeliversCompletely core) (fresh env pot genesis) ds n →
      Sound core n ∧ Hashed core n := fun run =>
    have run := run.mono fun h => h.1
    ⟨sound_of_run hi run, hashed_of_run hcore hi hh run⟩
  obtain ⟨hn, hd⟩ := hall run
  obtain ⟨-, full, ht⟩ := consistent_of_run hi hpot run
  have hinv := later.invariant (P := fun m => Sound core m ∧ Hashed core m ∧ ∃ full',
    Tracks core env pot genesis m full' ∧
      (full'.blocks = full.blocks ∨ hashWork full.blocks < hashWork full'.blocks)) ?_
    ⟨hn, hd, full, ht, .inl rfl⟩
  · obtain ⟨-, -, full', ht', hwork⟩ := hinv
    rwa [ht.canonicalChain, ht'.canonicalChain]
  · rintro m d m' ⟨⟨hfits, outcome, happ⟩, hrep⟩ ⟨hm, hmd, full', ht', hwork⟩
    have heff := effect_of_applyBlock happ
    obtain ⟨next, hnext, hstep⟩ := ht'.advances hcore hm hmd hi hh hpot hfits heff hrep
    refine ⟨hm.step heff, hmd.step hcore hm heff, next, hnext, ?_⟩
    rcases hstep with heq | hlt
    · rwa [heq]
    · rcases hwork with heq | hlt'
      · exact .inr (heq ▸ hlt)
      · exact .inr (hlt'.trans hlt)

/-- Where every fork that a reorganization chooses replays completely, a node never returns to a
canonical chain that it left, since every change raises the work. -/
theorem never_returns (hcore : core.CollisionFree) (hi : genesis.index = 0)
    (hh : genesis.hash = []) (hpot : pot < 2 ^ 64)
    (run : Runs.Run (DeliversCompletely core) (fresh env pot genesis) ds n)
    (later : Runs.Run (DeliversCompletely core) n es m)
    (latest : Runs.Run (DeliversCompletely core) m fs n') :
    (m.canonicalChain = n.canonicalChain ∨
      hashWork n.canonicalChain < hashWork m.canonicalChain) ∧
    (n'.canonicalChain = n.canonicalChain → m.canonicalChain = n.canonicalChain) := by
  have hfirst := advances_of_run hcore hi hh hpot run later
  refine ⟨hfirst, fun hback => ?_⟩
  rcases advances_of_run hcore hi hh hpot (run.append later) latest with heq | hlt
  · exact heq.symm.trans hback
  · rw [hback] at hlt
    exact hfirst.resolve_right (Nat.lt_asymm hlt)

end Node

namespace Sample

/-! ### Nodes that hear of blocks in different orders -/

/-- One node adopts the main block and gives it up for the rival branch, of which the other node
hears first. -/
theorem rival_agreement : ∃ (n n' : Node) (es : List (Bool × Node.Delivery)),
    Runs.Run (Runs.Interleaves (Node.DeliversCompletely rootedCore))
      (fun _ : Bool => Node.fresh none Node.genesisPotAmount genesis) es
        (fun k => if k then n else n') ∧
    n.chain.getLatestHash = n'.chain.getLatestHash ∧ Node.Agree rootedCore genesis n n' := by
  have hboth : ((nodeAfter node [mainBlock, rivalBlock, rivalChild]).bind fun n =>
      (nodeAfter node [rivalBlock, mainBlock, rivalChild]).map fun n' =>
        decide (n.chain.getLatestHash = n'.chain.getLatestHash)) = some true := by
    decide +kernel
  obtain ⟨n, hn, hother⟩ := Option.bind_eq_some_iff.mp hboth
  obtain ⟨n', hn', hseen⟩ := Option.map_eq_some_iff.mp hother
  have hfirst := (run_of_nodeAfter hn).lift (s := fun _ : Bool => node) (k := true) rfl
  have hlast := (run_of_nodeAfter hn').lift (s := Function.update (fun _ : Bool => node) true n)
    (k := false) rfl
  have hstate : Function.update (Function.update (fun _ : Bool => node) true n) false n' =
      fun k => if k then n else n' := by
    funext k
    cases k <;> rfl
  rw [hstate] at hlast
  exact ⟨n, n', _, hfirst.append hlast, of_decide_eq_true hseen,
    Node.agreement_of_network rootedCore_collisionFree rootedCore_rootsDiffer rfl rfl (by decide)
      (hfirst.append hlast) true false⟩

/-- The node leaves the main block for the rival branch and does not come back. -/
theorem mainBlock_left : ∃ (n m n' : Node),
    n.canonicalChain = [genesis, mainBlock] ∧ m.canonicalChain = [genesis, rivalBlock, rivalChild] ∧
    ((m.canonicalChain = n.canonicalChain ∨
      Node.hashWork n.canonicalChain < Node.hashWork m.canonicalChain) ∧
    (n'.canonicalChain = n.canonicalChain → m.canonicalChain = n.canonicalChain)) := by
  have hall : ((nodeAfter node [mainBlock]).bind fun n =>
      (nodeAfter n [rivalBlock, rivalChild]).bind fun m =>
        (nodeAfter m [mainBlock]).map fun _ => (n.canonicalChain, m.canonicalChain)) =
      some ([genesis, mainBlock], [genesis, rivalBlock, rivalChild]) := by
    decide +kernel
  obtain ⟨n, hn, hlater⟩ := Option.bind_eq_some_iff.mp hall
  obtain ⟨m, hm, hlatest⟩ := Option.bind_eq_some_iff.mp hlater
  obtain ⟨n', hn', hseen⟩ := Option.map_eq_some_iff.mp hlatest
  obtain ⟨hleft, hright⟩ := Prod.mk.inj hseen
  exact ⟨n, m, n', hleft, hright, Node.never_returns rootedCore_collisionFree rfl rfl (by decide)
    (run_of_nodeAfter hn) (run_of_nodeAfter hm) (run_of_nodeAfter hn')⟩

end Sample

end Lootcoin
