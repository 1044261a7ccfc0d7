import Lootcoin.Sync
import Lootcoin.Node.Branch
import Lootcoin.Node.Mirror
import Lootcoin.Node.Swapped
import Lootcoin.Node.Tree
import Lootcoin.Node.Work

/-! A synchronization with one honest peer that shows more work.  A node whose chain begins the
peer's downloads the rest of it.  A node on another branch asks for the peer's block at its own
height, which follows a block that the node does not have, and gives up; it catches up only if its
orphans already lead from its chain to that block. -/

namespace Lootcoin

namespace Node

variable {core : Core} {ambient : Ambient} {ambients : ℕ → Ambient} {env : Option ℚ} {pot : ℕ}
  {genesis : Block} {n n' : Node} {full peer : Blockchain} {path p q bs rest : List Block}
  {b first : Block}

/-! ### Branches told by their last hash -/

theorem Branch.valid_snoc (h : Branch core env pot genesis (path ++ [b])) :
    core.calculateHash b.toHeader = some b.hash ∧
      core.computeTxRoot b.transactions = some b.txRoot := by
  obtain ⟨c, hgrow⟩ := h
  obtain ⟨d, -, hb⟩ := hgrow.split
  obtain _ | ⟨hs, -⟩ := hb
  have hbody := DerivedState.validBody_iff.mp hs.appended.validBody
  exact ⟨hbody.1, hbody.2.2.2.2.2.1⟩

theorem Branch.unique (hcore : core.CollisionFree) (hroots : core.RootsDiffer)
    (hp : Branch core env pot genesis p) (hq : Branch core env pot genesis q)
    (hlength : p.length = q.length)
    (hhash : (p.getLastD genesis).hash = (q.getLastD genesis).hash) : p = q := by
  induction p using List.reverseRecOn generalizing q with
  | nil => exact (List.length_eq_zero_iff.mp hlength.symm).symm
  | append_singleton p x ih =>
    cases q using List.reverseRecOn with
    | nil => simp at hlength
    | append_singleton q y =>
      obtain ⟨hx, hxroot⟩ := hp.valid_snoc
      obtain ⟨hy, hyroot⟩ := hq.valid_snoc
      rw [List.getLastD_concat, List.getLastD_concat] at hhash
      have hheader : x.toHeader = y.toHeader := hcore.injective hx (hhash ▸ hy)
      have hbody : x.transactions = y.transactions := by
        refine hroots hxroot ?_
        rw [hyroot, show x.txRoot = y.txRoot from congrArg Header.txRoot hheader]
      obtain ⟨hp, hprev, -⟩ := hp.snoc
      obtain ⟨hq, hprev', -⟩ := hq.snoc
      have hlast : (p.getLastD genesis).hash = (q.getLastD genesis).hash := by
        rw [← hprev, ← hprev', show x.previousHash = y.previousHash from
          congrArg Header.previousHash hheader]
      rw [List.length_append, List.length_append, List.length_singleton, List.length_singleton,
        Nat.add_right_cancel_iff] at hlength
      obtain rfl := ih hp hq hlength hlast
      cases x
      cases y
      simp_all

theorem Branch.unique_snoc (hcore : core.CollisionFree) (hroots : core.RootsDiffer)
    (hp : Branch core env pot genesis (p ++ [b])) (hq : Branch core env pot genesis (q ++ [b])) :
    p = q := by
  obtain ⟨hp, hprev, hindex⟩ := hp.snoc
  obtain ⟨hq, hprev', hindex'⟩ := hq.snoc
  exact hp.unique hcore hroots hq (by omega) (hprev.symm.trans hprev')

/-! ### Nodes on a branch -/

/-- The whole chain of a node is the genesis block with a branch on it. -/
def On (core : Core) (env : Option ℚ) (pot : ℕ) (genesis : Block) (path : List Block) (n : Node) :
    Prop :=
  ∃ full, Tracks core env pot genesis n full ∧ full.blocks = genesis :: path

theorem On.grows (h : On core env pot genesis path n) : ∃ full,
    Tracks core env pot genesis n full ∧
      Blockchain.Grows core (freshChain env pot genesis) path full := by
  obtain ⟨full, ht, hblocks⟩ := h
  obtain ⟨rest, hrest, hgrow⟩ := ht.blocks
  cases hblocks.symm.trans hrest
  exact ⟨full, ht, hgrow⟩

theorem On.branch (h : On core env pot genesis path n) : Branch core env pot genesis path := by
  obtain ⟨full, -, hgrow⟩ := h.grows
  exact ⟨full, hgrow⟩

theorem On.getHeight (h : On core env pot genesis path n) :
    n.chain.getHeight = path.length + 1 := by
  obtain ⟨full, ht, hblocks⟩ := h
  rw [ht.getHeight, hblocks, List.length_cons]

theorem On.getLatestHash (h : On core env pot genesis path n) :
    n.chain.getLatestHash = (path.getLastD genesis).hash := by
  obtain ⟨full, ht, hblocks⟩ := h
  rw [ht.pruned.sameTip.getLatestHash, Blockchain.getLatestHash, hblocks, List.getLast?_cons,
    List.getLastD_eq_getLast?]
  rfl

theorem On.chainWork (h : On core env pot genesis path n)
    (hgrow : Blockchain.Grows core (freshChain env pot genesis) path full) :
    n.chain.chainWork = full.chainWork := by
  obtain ⟨full', ht, hgrow'⟩ := h.grows
  rw [ht.pruned.derived, hgrow'.unique hgrow]

/-- A node applies the next block of a branch that its chain begins. -/
theorem On.applyBlock (h : On core env pot genesis path n) (ambient : Ambient)
    (hbranch : Branch core env pot genesis (path ++ [b])) (hfits : b.Fits)
    (htime : b.timestamp ≤ ambient.clock 0 + 120) :
    ∃ n', n.applyBlock core ambient b = .ok (.applied, n') ∧
      On core env pot genesis (path ++ [b]) n' := by
  obtain ⟨full, ht, hgrow⟩ := h.grows
  obtain ⟨c, hc⟩ := hbranch
  obtain ⟨d, hd, hb⟩ := hc.split
  obtain rfl := hgrow.unique hd
  obtain _ | ⟨⟨now, hfull⟩, -⟩ := hb
  obtain ⟨chain, hup, -⟩ := ht.pruned.accepts (Blockchain.updateState_at hfull htime)
  have hlast : chain.blocks.getLast? = some b := by
    rw [(Blockchain.appended_of_updateState hup).blocks, List.getLast?_concat]
  have happ : n.applyBlock core ambient b =
      .ok (.applied, persistApplied core ⟨chain, n.db⟩ b) := by
    refine applyBlock_eq_ok.mpr ⟨chain, Blockchain.applyInMemory_eq_ok.mpr (.inl ⟨rfl, hup⟩), ?_⟩
    exact .inl ⟨rfl, b, hlast, rfl⟩
  obtain ⟨payouts, hchain⟩ := persistApplied_chain core ⟨chain, n.db⟩ b
  obtain ⟨full', hblocks, -, ht'⟩ := ht.applied hfits hup hchain
    (persistApplied_blocks core ⟨chain, n.db⟩ b)
  refine ⟨_, happ, full', ht', ?_⟩
  rw [hblocks, hgrow.blocks]
  rfl

/-! ### Downloads on a branch -/

/-- Blocks of a peer that a node can apply when they come: they fit, and none lies in the future. -/
structure OnTime (ambients : ℕ → Ambient) (rest : List Block) : Prop where
  fits : ∀ b ∈ rest, b.Fits
  times : ∀ b ∈ rest, ∀ k j, b.timestamp ≤ (ambients k).clock j + 120

/-- A node whose chain begins a branch applies the blocks that follow it. -/
theorem On.appliesBatch (h : On core env pot genesis path n) (handled : ℕ)
    (hbranch : Branch core env pot genesis (path ++ bs)) (hbs : OnTime ambients bs) :
    ∃ n', applyBatch core ambients n handled bs = .ok (true, n', handled + bs.length) ∧
      On core env pot genesis (path ++ bs) n' := by
  induction bs generalizing n path handled with
  | nil => exact ⟨n, rfl, by rwa [List.append_nil]⟩
  | cons b bs ih =>
    rw [List.append_cons] at hbranch
    obtain ⟨m, happ, hm⟩ := h.applyBlock (ambients handled) hbranch.of_append
      (hbs.fits b List.mem_cons_self) (hbs.times b List.mem_cons_self handled 0)
    obtain ⟨n', hrest, hn'⟩ := ih hm (handled + 1) hbranch
      ⟨fun x hx => hbs.fits x (List.mem_cons_of_mem _ hx),
        fun x hx => hbs.times x (List.mem_cons_of_mem _ hx)⟩
    have hraised : n.chain.getHeight < m.chain.getHeight := by
      rw [h.getHeight, hm.getHeight, List.length_append, List.length_singleton]
      omega
    refine ⟨n', ?_, by rwa [List.append_cons]⟩
    rw [applyBatch]
    simp only [happ, bind, Except.bind, hraised, if_true, hrest, List.length_cons]
    rw [show handled + 1 + bs.length = handled + (bs.length + 1) by omega]

theorem OnTime.subset (h : OnTime ambients bs) (hsub : rest ⊆ bs) : OnTime ambients rest :=
  ⟨fun b hb => h.fits b (hsub hb), fun b hb => h.times b (hsub hb)⟩

theorem blocks_honest (hblocks : peer.blocks = genesis :: (path ++ rest)) :
    (Peer.honest peer).blocks (path.length + 1) batchSize = some (rest.take batchSize) := by
  show some ((peer.blocks.drop (path.length + 1)).take (min batchSize maxBlockLimit)) = _
  rw [hblocks, List.drop_succ_cons, List.drop_left,
    show min batchSize maxBlockLimit = batchSize by decide]

/-- A node as a peer of others. -/
def asPeer (n : Node) : Peer where
  head := some ⟨n.chain.getHeight, lowerHex n.chain.getChainWork⟩
  blocks := fun start limit => some (n.db.getBlocksRange start (min limit maxBlockLimit))

/-- A node that stores its whole chain and nothing else answers as an honest peer does. -/
theorem Tracks.asPeer_honest (ht : Tracks core env pot genesis n full) (hm : n.Mirrors full) :
    n.asPeer.head = (Peer.honest full).head ∧ ∀ start limit, start + maxBlockLimit < 2 ^ 64 →
      n.asPeer.blocks start limit = (Peer.honest full).blocks start limit := by
  constructor
  · show some (PeerHead.mk n.chain.getHeight (lowerHex n.chain.chainWork)) = _
    rw [ht.pruned.sameTip.getHeight, ht.pruned.derived]
    rfl
  · intro start limit hfits
    show some (n.db.getBlocksRange start (min limit maxBlockLimit)) =
      some ((full.blocks.drop start).take (min limit maxBlockLimit))
    rw [Db.getBlocksRange, Word.saturatingAdd_of_lt (by omega), OrderedTable.range_eq_take hm]

theorem getHeight_of_grows {whole : List Block}
    (h : Blockchain.Grows core (freshChain env pot genesis) whole peer) :
    peer.getHeight = whole.length + 1 := by
  rw [h.getHeight, Nat.add_comm]
  rfl

/-- A request whose batch raises the height block by block is followed by the next one. -/
theorem syncFromPeer_of_batch {m : Node} {fuel handled handled' : ℕ}
    (hheight : n.chain.getHeight = path.length + 1) (hlt : path.length + 1 < peer.getHeight)
    (hblocks : peer.blocks = genesis :: (path ++ b :: bs))
    (happ : applyBatch core ambients n handled ((b :: bs).take batchSize) =
      .ok (true, m, handled')) :
    syncFromPeer core ambients (Peer.honest peer) peer.getHeight (fuel + 1) n handled =
      syncFromPeer core ambients (Peer.honest peer) peer.getHeight fuel m handled' := by
  have hbatch : (Peer.honest peer).blocks (path.length + 1) batchSize =
      some (b :: bs.take (batchSize - 1)) := blocks_honest hblocks
  rw [syncFromPeer]
  simp only [hheight, if_neg (Nat.not_le.mpr hlt), hbatch]
  simp only [show b :: bs.take (batchSize - 1) = (b :: bs).take batchSize from rfl, happ, bind,
    Except.bind, if_true]

/-- A node whose chain begins that of an honest peer downloads the rest. -/
theorem On.downloads (h : On core env pot genesis path n) {whole : List Block} {fuel : ℕ}
    (handled : ℕ) (hgrow : Blockchain.Grows core (freshChain env pot genesis) whole peer)
    (hwhole : whole = path ++ rest) (hrest : OnTime ambients rest) (hfuel : rest.length < fuel) :
    ∃ n' handled', syncFromPeer core ambients (Peer.honest peer) peer.getHeight fuel n handled =
      .ok (true, n', handled') ∧ On core env pot genesis whole n' := by
  induction fuel generalizing n path rest handled with
  | zero => omega
  | succ fuel ih =>
    have hheight : peer.getHeight = path.length + 1 + rest.length := by
      rw [getHeight_of_grows hgrow, hwhole, List.length_append]
      omega
    cases rest with
    | nil =>
      refine ⟨n, handled, ?_, by rwa [hwhole, List.append_nil]⟩
      rw [syncFromPeer]
      simp only [h.getHeight]
      exact if_pos hheight.le
    | cons b bs =>
      have hsplit : whole = (path ++ (b :: bs).take batchSize) ++ (b :: bs).drop batchSize := by
        rw [hwhole, List.append_assoc, List.take_append_drop]
      have hbranch : Branch core env pot genesis (path ++ (b :: bs).take batchSize) :=
        Branch.of_append (q := (b :: bs).drop batchSize) ⟨peer, hsplit ▸ hgrow⟩
      have hblocks : peer.blocks = genesis :: (path ++ b :: bs) := hwhole ▸ hgrow.blocks
      have hfuel' : ((b :: bs).drop batchSize).length < fuel := by
        rw [List.length_cons] at hfuel
        rw [List.length_drop, List.length_cons, batchSize]
        omega
      obtain ⟨m, happ, hm⟩ := h.appliesBatch handled hbranch (hrest.subset (List.take_subset _ _))
      obtain ⟨n', handled', hdone, hn'⟩ := ih hm (handled + ((b :: bs).take batchSize).length)
        hsplit (hrest.subset (List.drop_subset _ _)) hfuel'
      rw [List.length_cons] at hheight
      exact ⟨n', handled',
        (syncFromPeer_of_batch h.getHeight (by omega) hblocks happ).trans hdone, hn'⟩

/-- A node that the first block it asks for brings onto the chain of an honest peer, downloads the
rest. -/
theorem On.downloads_of_first (h : On core env pot genesis path n) {whole post : List Block}
    {fuel : ℕ} {m : Node} {outcome : BlockOutcome}
    (hgrow : Blockchain.Grows core (freshChain env pot genesis) whole peer)
    (hwhole : whole = p ++ first :: post) (hlength : p.length = path.length)
    (htime : OnTime ambients whole)
    (happ : n.applyBlock core (ambients 0) first = .ok (outcome, m))
    (hm : On core env pot genesis (p ++ [first]) m) (hfuel : whole.length < fuel) :
    ∃ n' handled, syncFromPeer core ambients (Peer.honest peer) peer.getHeight fuel n 0 =
      .ok (true, n', handled) ∧ On core env pot genesis whole n' := by
  obtain ⟨fuel, rfl⟩ : ∃ k, fuel = k + 1 := ⟨fuel - 1, by omega⟩
  have hlen : whole.length = p.length + 1 + post.length := by
    rw [hwhole, List.length_append, List.length_cons]
    omega
  have hpost : post ⊆ whole := by
    rw [hwhole]
    exact fun x hx => List.mem_append_right _ (List.mem_cons_of_mem _ hx)
  have hsplit : whole = ((p ++ [first]) ++ post.take (batchSize - 1)) ++
      post.drop (batchSize - 1) := by
    rw [List.append_assoc, List.take_append_drop, hwhole, List.append_cons]
  have hbranch : Branch core env pot genesis ((p ++ [first]) ++ post.take (batchSize - 1)) :=
    Branch.of_append (q := post.drop (batchSize - 1)) ⟨peer, hsplit ▸ hgrow⟩
  have hblocks : peer.blocks = genesis :: (p ++ first :: post) := hwhole ▸ hgrow.blocks
  have hraised : n.chain.getHeight < m.chain.getHeight := by
    rw [h.getHeight, hm.getHeight, List.length_append, List.length_singleton]
    omega
  obtain ⟨m', hrest, hm'⟩ := hm.appliesBatch 1 hbranch
    (htime.subset fun x hx => hpost (List.take_subset _ _ hx))
  have hbatch : applyBatch core ambients n 0 ((first :: post).take batchSize) =
      .ok (true, m', 1 + (post.take (batchSize - 1)).length) := by
    rw [show (first :: post).take batchSize = first :: post.take (batchSize - 1) from rfl,
      applyBatch]
    simp only [happ, bind, Except.bind, hraised, if_true, Nat.zero_add, hrest]
  have hfuel' : (post.drop (batchSize - 1)).length < fuel := by
    rw [List.length_drop]
    omega
  obtain ⟨n', handled, hdone, hn'⟩ := hm'.downloads _ hgrow hsplit
    (htime.subset fun x hx => hpost (List.drop_subset _ _ hx)) hfuel'
  refine ⟨n', handled, ?_, hn'⟩
  exact (syncFromPeer_of_batch (h.getHeight.trans (by rw [hlength]))
    (by rw [getHeight_of_grows hgrow]; omega) hblocks hbatch).trans hdone

/-! ### Switches -/

theorem Sound.splice_of_chosenFork (hn : Sound core n) {fork : List Block} {ancestor : ℕ}
    (hfind : (n.chain.admitOrphan ambient.order b).findLongestFork ambient.order
      (some n.db.reader) = .ok (some (fork, ancestor))) :
    ∃ new old, n.chain.splice fork ancestor = .ok (new, old) ∧ new ≠ [] := by
  obtain ⟨-, -, first, -, -, -, hfirst, hanc, -⟩ := Blockchain.fork_of_findLongestFork hfind
  have hfork : fork ≠ [] := by
    rintro rfl
    cases hfirst
  by_cases ho : n.chain.blocksOffset ≤ ancestor
  · have hlookup : n.chain.blockHashes.lookup first.previousHash = some ancestor := by
      rcases Blockchain.ancestorIndex_eq_some hanc with hl | ⟨-, -, hlt, -⟩
      · exact hl
      · exact absurd ho (Nat.not_le.mpr hlt)
    obtain ⟨-, x, hx, -⟩ := hn.window.hashes _ _ hlookup
    obtain ⟨hlt, -⟩ := List.getElem?_eq_some_iff.mp hx
    exact ⟨_, _, Blockchain.splice_eq_ok.mpr (.inl ⟨ho, hlt, rfl, rfl⟩),
      List.append_ne_nil_of_right_ne_nil _ hfork⟩
  · exact ⟨_, _, Blockchain.splice_eq_ok.mpr (.inr ⟨Nat.not_le.mp ho, rfl, rfl⟩), hfork⟩

/-- A node returns from the switch to a fork that replays completely. -/
theorem Sound.applyBlock_of_chosenFork (hn : Sound core n) {fork : List Block} {ancestor : ℕ}
    (hfork : n.chain.chosenFork core ambient b (some n.db.reader) = some (fork, ancestor))
    (hrep : n.chain.ForkReplays core ambient b (some n.db.reader)) :
    ∃ old n', n.applyBlock core ambient b = .ok (.reorged old fork, n') := by
  obtain ⟨hadm, hfind⟩ := Blockchain.chosenFork_eq_some.mp hfork
  obtain ⟨new, old, hsplice, hne⟩ := hn.splice_of_chosenFork hfind
  obtain ⟨stem, hstem, g, rest, chain, hstemfork, happ⟩ := hrep fork ancestor hfork
  obtain ⟨-, -, first, -, -, -, hfirst, hanc, -⟩ := Blockchain.fork_of_findLongestFork hfind
  obtain ⟨target, htarget⟩ :
      ∃ target, Blockchain.withHistory new (some n.db.reader) = .ok target := by
    unfold Blockchain.withHistory
    split
    · exact absurd rfl hne
    · split
      · exact ⟨_, rfl⟩
      · exact ⟨_, rfl⟩
  have hwhole : target = some (g :: rest) := by
    rw [Blockchain.withHistory_splice hn.window.nonempty hn.window.numbered.head
      hn.window.numbered.hashes hfirst hanc hsplice htarget, hstem, Option.map_some, hstemfork]
  have hreplay := (Blockchain.replay_complete_iff.mp happ).1
  have hrebuilt : (n.chain.admitOrphan ambient.order b).reorgTo core
      (laterReadings ambient.clock) new (some n.db.reader) = .ok chain :=
    Blockchain.reorgTo_eq_ok.mpr (.inr ⟨g, rest, hwhole ▸ htarget, hreplay⟩)
  have hre : n.chain.Reorganizes core ambient b (some n.db.reader) old fork chain ancestor new :=
    ⟨hadm, hfind, hsplice, hrebuilt⟩
  exact ⟨old, _, applyBlock_eq_ok.mpr ⟨chain, Blockchain.applyInMemory_eq_ok.mpr
    (.inr (.inr (.inr ⟨old, fork, ancestor, new, rfl, hre⟩))), .inr (.inl ⟨old, fork, rfl, rfl⟩)⟩⟩

/-- A switch to a fork that ends in a block of a branch brings the node onto the branch. -/
theorem On.applyBlock_of_switch (h : On core env pot genesis path n) (hn : Sound core n)
    (hcore : core.CollisionFree) (hroots : core.RootsDiffer) (hi : genesis.index = 0)
    (hpot : pot < 2 ^ 64) (hfits : b.Fits) {fork : List Block} {ancestor : ℕ}
    (hfork : n.chain.chosenFork core ambient b (some n.db.reader) = some (fork, ancestor))
    (hlast : fork.getLast? = some b)
    (hrep : n.chain.ForkReplays core ambient b (some n.db.reader))
    (hbranch : Branch core env pot genesis (p ++ [b])) :
    ∃ outcome n', n.applyBlock core ambient b = .ok (outcome, n') ∧
      On core env pot genesis (p ++ [b]) n' := by
  obtain ⟨full, ht, hblocks⟩ := h
  obtain ⟨old, n', happ⟩ := hn.applyBlock_of_chosenFork hfork hrep
  refine ⟨_, n', happ, ?_⟩
  obtain ⟨full', stem, displaced, base, ht', -, -, hchange, -⟩ :=
    ht.branches hn hi hpot hfits (effect_of_applyBlock happ) hrep
  obtain ⟨front, rfl⟩ : ∃ front, fork = front ++ [b] :=
    ⟨_, (List.dropLast_append_getLast? b hlast).symm⟩
  have hpath : Blockchain.Grows core (freshChain env pot genesis) (stem ++ (front ++ [b])) full' :=
    hchange.stem.append hchange.new
  have heq : stem ++ front = p := by
    refine Branch.unique_snoc hcore hroots ⟨full', ?_⟩ hbranch
    rwa [List.append_assoc]
  refine ⟨full', ht', ?_⟩
  rw [← heq, List.append_assoc]
  exact hpath.blocks

/-! ### The first block -/

/-- The first block that a node asks a peer for brings the node onto the peer's chain: it follows
the tip, or it makes the node switch to a fork that ends in it and replays completely. -/
def Joins (core : Core) (ambient : Ambient) (n : Node) (peer : Blockchain) : Prop :=
  ∃ first, peer.blocks[n.chain.getHeight]? = some first ∧ (n.chain.linksToTip first = true ∨
    ∃ fork ancestor,
      n.chain.chosenFork core ambient first (some n.db.reader) = some (fork, ancestor) ∧
      fork.getLast? = some first ∧ n.chain.ForkReplays core ambient first (some n.db.reader))

/-- The first block that a node asks a peer for makes the node switch to a fork, which does not end
in it or does not replay completely. -/
def Strays (core : Core) (ambient : Ambient) (n : Node) (peer : Blockchain) : Prop :=
  ∃ first fork ancestor, peer.blocks[n.chain.getHeight]? = some first ∧
    n.chain.chosenFork core ambient first (some n.db.reader) = some (fork, ancestor) ∧
    ¬ (fork.getLast? = some first ∧ n.chain.ForkReplays core ambient first (some n.db.reader))

/-- A node that the first block brings onto the chain of an honest peer downloads all of it. -/
theorem downloads_of_joins {whole : List Block} {fuel : ℕ}
    (hw : Consistent core env pot genesis n) (hcore : core.CollisionFree)
    (hroots : core.RootsDiffer) (hi : genesis.index = 0) (hpot : pot < 2 ^ 64)
    (hgrow : Blockchain.Grows core (freshChain env pot genesis) whole peer)
    (htime : OnTime ambients whole) (hfuel : whole.length < fuel)
    (hjoins : Joins core (ambients 0) n peer) :
    ∃ n' handled, syncFromPeer core ambients (Peer.honest peer) peer.getHeight fuel n 0 =
      .ok (true, n', handled) ∧ On core env pot genesis whole n' := by
  obtain ⟨hn, full, ht⟩ := hw
  obtain ⟨path, hpath, -⟩ := ht.blocks
  have hon : On core env pot genesis path n := ⟨full, ht, hpath⟩
  obtain ⟨first, hfirst, hcase⟩ := hjoins
  rw [show peer.blocks = genesis :: whole from hgrow.blocks, hon.getHeight,
    List.getElem?_cons_succ] at hfirst
  obtain ⟨hlt, heq⟩ := List.getElem?_eq_some_iff.mp hfirst
  have hwhole : whole = whole.take path.length ++ first :: whole.drop (path.length + 1) := by
    rw [← heq, List.getElem_cons_drop, List.take_append_drop]
  have hlength : (whole.take path.length).length = path.length := by
    rw [List.length_take]
    omega
  have hbranch : Branch core env pot genesis (whole.take path.length ++ [first]) :=
    Branch.of_append (q := whole.drop (path.length + 1)) ⟨peer, by
      rwa [List.append_assoc, List.singleton_append, ← hwhole]⟩
  have hmem : first ∈ whole := List.mem_of_getElem? hfirst
  suffices h : ∃ outcome m, n.applyBlock core (ambients 0) first = .ok (outcome, m) ∧
      On core env pot genesis (whole.take path.length ++ [first]) m by
    obtain ⟨outcome, m, happ, hm⟩ := h
    exact hon.downloads_of_first hgrow hwhole hlength htime happ hm hfuel
  rcases hcase with hlink | ⟨fork, ancestor, hfork, hlast, hrep⟩
  · have hpeer : path = whole.take path.length := by
      refine hon.branch.unique hcore hroots hbranch.of_append hlength.symm ?_
      rw [← hon.getLatestHash, ← (Blockchain.linksToTip_iff.mp hlink).2, hbranch.snoc.2.1]
    rw [← hpeer] at hbranch ⊢
    obtain ⟨m, happ, hm⟩ := hon.applyBlock (ambients 0) hbranch (htime.fits first hmem)
      (htime.times first hmem 0 0)
    exact ⟨_, m, happ, hm⟩
  · exact hon.applyBlock_of_switch hn hcore hroots hi hpot (htime.fits first hmem) hfork hlast hrep
      hbranch

/-- A block that neither follows the tip nor makes the node switch to a fork leaves the chain as it
is. -/
theorem unmoved_of_effect {outcome : BlockOutcome} (h : Effect core ambient n b n' outcome)
    (hlink : n.chain.linksToTip b = false)
    (hfork : n.chain.chosenFork core ambient b (some n.db.reader) = none) :
    n'.chain.toDerivedState = n.chain.toDerivedState ∧
      n'.chain.getHeight = n.chain.getHeight := by
  cases h with
  | applied hup _ _ =>
    have hacc := (Blockchain.updateState_eq_some.mp hup).1
    rw [(Blockchain.acceptsBlock_iff.mp hacc).1] at hlink
    cases hlink
  | rejected _ _ heq => exact heq ▸ ⟨rfl, rfl⟩
  | orphaned _ _ heq => exact heq ▸ ⟨rfl, rfl⟩
  | reorged hre _ _ => cases hfork.symm.trans hre.chosenFork

/-- A node that the first block does not move gives the peer up. -/
theorem unmoved_of_not_joins {fuel handled : ℕ} {complete : Bool}
    (hjoins : ¬ Joins core (ambients 0) n peer) (hstrays : ¬ Strays core (ambients 0) n peer)
    (h : syncFromPeer core ambients (Peer.honest peer) peer.getHeight fuel n 0 =
      .ok (complete, n', handled)) : n'.chain.toDerivedState = n.chain.toDerivedState := by
  cases fuel with
  | zero => cases h
  | succ fuel =>
    rw [syncFromPeer] at h
    simp only at h
    split at h
    · cases h
      rfl
    split at h
    · cases h
      rfl
    · cases h
      rfl
    rename_i first bs hbatch
    obtain ⟨⟨accepted, m, handled'⟩, hstep, h⟩ := Fallible.bind_eq_ok.mp h
    rw [applyBatch] at hstep
    obtain ⟨⟨outcome, n1⟩, happ, hstep⟩ := Fallible.bind_eq_ok.mp hstep
    have hfirst : peer.blocks[n.chain.getHeight]? = some first := by
      have hhead := congrArg (fun l : List Block => l[0]?) (Option.some.inj hbatch)
      rwa [List.getElem?_take_of_lt (by decide), List.getElem?_drop, Nat.add_zero] at hhead
    have hlink : n.chain.linksToTip first = false := by
      by_contra hlink
      exact hjoins ⟨first, hfirst, .inl (Bool.eq_true_of_not_eq_false hlink)⟩
    have hfork : n.chain.chosenFork core (ambients 0) first (some n.db.reader) = none := by
      cases hsome : n.chain.chosenFork core (ambients 0) first (some n.db.reader) with
      | none => rfl
      | some k =>
        by_cases hends : k.1.getLast? = some first ∧
            n.chain.ForkReplays core (ambients 0) first (some n.db.reader)
        · exact absurd ⟨first, hfirst, .inr ⟨k.1, k.2, hsome, hends⟩⟩ hjoins
        · exact absurd ⟨first, k.1, k.2, hfirst, hsome, hends⟩ hstrays
    obtain ⟨hderived, hheight⟩ := unmoved_of_effect (effect_of_applyBlock happ) hlink hfork
    simp only [hheight, Nat.lt_irrefl, if_false] at hstep
    cases Fallible.pure_eq_ok.mp hstep
    cases Fallible.pure_eq_ok.mp h
    exact hderived

/-! ### The synchronization -/

/-- With one honest peer that shows more work, a synchronization is the download from it. -/
theorem syncFromPeers_eq_ok {fuel : ℕ} (hwork : n.chain.getChainWork < peer.getChainWork)
    (hfits : peer.getChainWork < 2 ^ 128) :
    syncFromPeers core ambients fuel n [Peer.honest peer] = .ok n' ↔ ∃ complete handled,
      syncFromPeer core ambients (Peer.honest peer) peer.getHeight fuel n 0 =
        .ok (complete, n', handled) := by
  rw [syncFromPeers, syncCandidates_honest hfits, if_pos hwork, syncFromCandidates,
    Fallible.bind_eq_ok]
  constructor
  · rintro ⟨⟨complete, m, handled⟩, hsync, h⟩
    cases complete with
    | true =>
      cases Fallible.pure_eq_ok.mp h
      exact ⟨true, handled, hsync⟩
    | false =>
      obtain rfl : m = n' := by simpa [syncFromCandidates] using h
      exact ⟨false, handled, hsync⟩
  · rintro ⟨complete, handled, hsync⟩
    refine ⟨_, hsync, ?_⟩
    cases complete with
    | true => rfl
    | false => rfl

theorem chainWork_lt {whole : List Block}
    (h : Blockchain.Grows core (freshChain env pot genesis) whole peer) :
    peer.chainWork < 2 ^ 128 := by
  rw [h.chainWork, show (freshChain env pot genesis).chainWork = 0 from rfl,
    Word.foldl_saturatingAdd 128 _ _ (Nat.zero_le _)]
  exact Nat.lt_of_le_of_lt (Nat.min_le_right _ _) (by decide)

end Node

namespace Sample

/-! ### Peers on another branch -/

/-- A block with less work than the block of the main chain beside it, and its child, with which it
has more. -/
def lightBlock : Block := block 1 [] 1748000061 31
def lightChild : Block := block 2 lightBlock.hash 1748000121 33

/-- The chain of a peer on the genesis block. -/
def peerChain (blocks : List Block) : Option Blockchain :=
  (Blockchain.applyAll rootedCore (fun _ => 1748000200) node.chain blocks).toOption.join

theorem grows_of_peerChain {blocks : List Block} {peer : Blockchain}
    (h : peerChain blocks = some peer) : Blockchain.Grows rootedCore
      (Node.freshChain none Node.genesisPotAmount genesis) blocks peer :=
  Blockchain.applyAll_grows (Fallible.toOption_eq_some.mp (Option.join_eq_some_iff.mp h))

/-- The node after blocks whose forks replay completely, or nothing when one does not. -/
def nodeAfter (n : Node) (bs : List Block) : Option Node :=
  (bs.map fun b => (⟨b, around 1748000160⟩ : Node.Delivery)).foldlM (fun n d =>
    if d.block.Fits ∧ n.chain.ForkReplays rootedCore d.ambient d.block (some n.db.reader) then
      (n.applyBlock rootedCore d.ambient d.block).toOption.map fun r => r.2
    else none) n

theorem run_of_nodeAfter {n n' : Node} {bs : List Block} (h : nodeAfter n bs = some n') :
    Runs.Run (Node.DeliversCompletely rootedCore) n
      (bs.map fun b => ⟨b, around 1748000160⟩) n' := by
  refine Runs.run_of_foldlM (fun {m d m'} hm => ?_) h
  obtain ⟨⟨hfits, hrep⟩, hm⟩ := Option.ite_none_right_eq_some.mp hm
  obtain ⟨⟨outcome, _⟩, happ, rfl⟩ := Fallible.exists_of_toOption_map hm
  exact ⟨⟨hfits, outcome, happ⟩, hrep⟩

theorem consistent_of_nodeAfter {n : Node} {bs : List Block} (h : nodeAfter node bs = some n) :
    Node.Consistent rootedCore none Node.genesisPotAmount genesis n :=
  Node.consistent_of_run rfl (by decide) (run_of_nodeAfter h)

theorem onTime_of_le {bs : List Block}
    (h : ∀ b ∈ bs, b.Fits ∧ b.timestamp ≤ 1748000160 + 120) :
    Node.OnTime (fun _ => around 1748000160) bs :=
  ⟨fun b hb => (h b hb).1, fun b hb _ _ => (h b hb).2⟩

end Sample

end Lootcoin
