import Lootcoin.App.Mined
import Lootcoin.Miner.Selection

/-! A node whose blocks all come from one miner.  While clients submit and peers relay, the miner
asks the node for its head and then for its pool, and posts what it has made of them.  Every such
block extends the chain, so nothing pending is confirmed or outspent behind the back of the pool,
and what is pending waits only behind full blocks of fees as high. -/

namespace Lootcoin

namespace DerivedState

theorem spentBy_append (txs txs' : List Transaction) (a : Address) :
    spentBy (txs ++ txs') a = spentBy txs a + spentBy txs' a := by
  simp [spentBy]

end DerivedState

namespace Mempool

variable {core : Core} {p : Mempool} {tx : Transaction} {txs : List Transaction} {b : Block}
  {height : ℕ} {a : Address}

theorem transactions_put (hc : tx.isCoinbase = false) (h : p.contains tx.signature = false) :
    (p.put core tx height hc).transactions = tx :: p.transactions := by
  have habsent : tx.signature ∉ p.entries :=
    AList.lookup_eq_none.mp (contains_eq_false.mp h)
  rw [transactions_eq, transactions_eq]
  show (HashTable.values (p.entries.insert tx.signature ⟨tx, height⟩)).map _ = _
  rw [HashTable.values, AList.entries_insert_of_notMem habsent]
  rfl

theorem listMempoolHandler_eq (p : Mempool) : listMempoolHandler p = p.entries.values := by
  rw [listMempoolHandler, allTransactionsWithHeight, List.map_map]
  exact List.map_id _

theorem nodup_transactions (p : Mempool) : p.transactions.Nodup := .of_map _ p.nodup_signatures

/-- What a block takes from a pool, its sender no longer has pending. -/
theorem pendingDebit_leftBy_add_spentBy (hsub : txs.Subperm p.transactions)
    (hsigs : signaturesIn b.transactions = txs.map fun tx => tx.signature)
    (h : p.pendingDebit a < Word.maxValue 64) :
    (p.leftBy core [b] height).pendingDebit a + DerivedState.spentBy txs a ≤ p.pendingDebit a := by
  have hleft : ∀ tx ∈ (p.leftBy core [b] height).transactions,
      tx ∈ p.transactions ∧ tx ∉ txs := by
    intro tx htx
    obtain ⟨e, he, rfl⟩ := mem_transactions.mp htx
    obtain ⟨hp, hnew, -⟩ := lookup_leftBy.mp he
    refine ⟨mem_transactions.mpr ⟨e, hp, rfl⟩, fun hmem => hnew ?_⟩
    apply List.mem_flatMap.mpr
    exact ⟨b, List.mem_singleton_self b, hsigs ▸ List.mem_map_of_mem hmem⟩
  have hnodup : ((p.leftBy core [b] height).transactions ++ txs).Nodup := by
    apply List.Nodup.append (nodup_transactions _)
    · obtain ⟨l, hperm, hl⟩ := hsub
      exact hperm.nodup_iff.mp (p.nodup_transactions.sublist hl)
    · exact fun tx htx => (hleft tx htx).2
  have hall : ((p.leftBy core [b] height).transactions ++ txs).Subperm p.transactions := by
    apply List.subperm_of_subset hnodup
    exact List.append_subset.mpr ⟨fun tx htx => (hleft tx htx).1, hsub.subset⟩
  have hle : (p.leftBy core [b] height).pendingDebit a ≤ p.pendingDebit a :=
    pendingDebit_leftBy_le a
  rw [← spentBy_transactions (Nat.lt_of_le_of_lt hle h), ← spentBy_transactions h,
    ← DerivedState.spentBy_append]
  exact DerivedState.spentBy_le_of_subperm hall a

end Mempool

namespace AppState

variable {core : Core} {env : Option ℚ} {pot : ℕ} {genesis : Block} {s s' : AppState} {e : Event}
  {ambient : Ambient} {b : Block}

/-- What a client or a peer sends, other than a block. -/
def Event.OfClient : Event → Prop
  | .submit _ | .relay _ => True
  | .incoming _ | .sync _ => False

theorem Steps.ofClient (hstep : Steps core s e s') (he : e.OfClient) :
    s' = s ∨ ∃ tx, Admits core s tx s' := by
  cases e with
  | submit req => exact hstep.submit
  | relay tx => exact hstep.relay.imp_right fun h => ⟨tx, h⟩
  | incoming d => cases he
  | sync d => cases he

theorem Steps.node_of_client (hstep : Steps core s e s') (he : e.OfClient) : s'.node = s.node := by
  rcases hstep.ofClient he with rfl | ⟨tx, hadm⟩
  · rfl
  · exact hadm.node

theorem Event.OfClient.harmless (he : e.OfClient) : e.ForkReplays core s ∧ e.SparesPool core s ∧
    e.SupplyFits core env pot genesis s ∧ e.LeavesEnough core env pot genesis s := by
  cases e with
  | submit req => exact ⟨trivial, trivial, trivial, trivial⟩
  | relay tx => exact ⟨trivial, trivial, trivial, trivial⟩
  | incoming d => cases he
  | sync d => cases he

/-- A block that the node has applied is the last of its canonical chain. -/
theorem canonicalChain_of_applied (hw : Node.Consistent core env pot genesis s.node)
    (hfits : b.Fits) (happ : s.node.applyBlock core ambient b = .ok (.applied, s'.node)) :
    s'.node.canonicalChain = s.node.canonicalChain ++ [b] := by
  obtain ⟨-, full, ht⟩ := hw
  cases Node.effect_of_applyBlock happ with
  | applied hup hchain hblocks =>
    obtain ⟨full', hfull, -, ht'⟩ := ht.applied hfits hup hchain hblocks
    rw [ht'.canonicalChain, hfull, ht.canonicalChain]

end AppState

/-- A node with its miner, and what it has reported since the miner last posted a block. -/
structure Solo where
  app : AppState
  head : Option HeadResp
  pool : Option (List MempoolEntry)

namespace Solo

open Miner AppState

/-- The miner makes a block of a head and a pool, for an address that exists. -/
def Makes (core : Core) (head : HeadResp) (entries : List MempoolEntry) (timestamp : ℕ)
    (b : Block) : Prop :=
  ∃ miner nonce candidate stopped fuel tries, isValidAddress core miner = true ∧
    assembleBlock core head entries miner timestamp nonce = .ok (some candidate) ∧
    mine core head.difficulty stopped fuel 0 candidate = .ok (some (b, tries))

inductive Event
  | client (e : AppState.Event)
  | askHead
  | askPool
  | post (d : Node.Delivery)

/-- One step. The miner posts at a time past the median and no more than two minutes ahead. -/
inductive Steps (core : Core) : Solo → Event → Solo → Prop
  | client {w : Solo} {e : AppState.Event} {app : AppState} : e.OfClient →
      AppState.Steps core w.app e app → Steps core w (.client e) { w with app := app }
  | askHead {w : Solo} :
      Steps core w .askHead ⟨w.app, some (chainHeadHandler w.app.node.chain), none⟩
  | askPool {w : Solo} :
      Steps core w .askPool { w with pool := some (listMempoolHandler w.app.mempool) }
  | post {w : Solo} {d : Node.Delivery} {head : HeadResp} {entries : List MempoolEntry}
      {timestamp : ℕ} {answer : Except String Bool} {app : AppState} :
      w.head = some head → w.pool = some entries → Makes core head entries timestamp d.block →
      d.block.Fits → timestamp ≤ d.ambient.clock 0 + 120 →
      pastMedian w.app.node.chain.blocks timestamp = true →
      w.app.applyIncomingBlock core d.ambient d.block = .ok (answer, app) →
      Steps core w (.post d) ⟨app, none, none⟩

def fresh (env : Option ℚ) (pot : ℕ) (genesis : Block) : Solo :=
  ⟨AppState.fresh env pot genesis, none, none⟩

/-- The block that an event posts. -/
def Event.block : Event → Option Block
  | .post d => some d.block
  | .client _ | .askHead | .askPool => none

/-- The blocks that the miner posts, in order. -/
def posted (es : List Event) : List Block := es.filterMap Event.block

variable {core : Core} {env : Option ℚ} {pot : ℕ} {genesis b : Block} {bs : List Block}
  {v w w' : Solo} {e : Event} {es fs : List Event} {d : Node.Delivery}

theorem posted_append (es fs : List Event) : posted (es ++ fs) = posted es ++ posted fs :=
  List.filterMap_append

theorem posted_of_none (h : e.block = none) : posted [e] = [] := by
  simp [posted, h]

/-! ### One step -/

/-- What holds while all blocks are the miner's: nothing pending is confirmed or outspent, and what
the miner knows is still so. -/
structure Closed (core : Core) (env : Option ℚ) (pot : ℕ) (genesis : Block) (w : Solo) : Prop where
  consistent : Node.Consistent core env pot genesis w.app.node
  lawful : w.app.HoldsLawful core
  unconfirmed : w.app.Unconfirmed
  affordable : w.app.Affordable
  head : ∀ head, w.head = some head → head = chainHeadHandler w.app.node.chain
  pool : ∀ entries, w.pool = some entries →
    (entries.map fun e => e.tx).Subperm w.app.mempool.transactions

/-- What a post adds: its block is the next of the chain, it confirms a selection of what the node
has reported, and the pool follows. -/
structure Extends (core : Core) (w : Solo) (b : Block) (w' : Solo) : Prop where
  index : b.index = w.app.node.chain.getHeight
  height : w'.app.node.chain.getHeight = w.app.node.chain.getHeight + 1
  canonicalChain : w'.app.node.canonicalChain = w.app.node.canonicalChain ++ [b]
  supply : w'.app.node.chain.totalSupply ≤ w.app.node.chain.totalSupply + 1
  confirmed : w'.app.node.chain.confirmedSignatures =
    w.app.node.chain.confirmedSignatures ∪ (signaturesIn b.transactions).toFinset
  mempool : w'.app.mempool = w.app.mempool.leftBy core [b] w'.app.node.chain.getHeight
  selection : ∃ miner entries, w.pool = some entries ∧
    b.transactions = coinbaseTo miner :: selectTransactions entries w.app.node.chain.getHeight ∧
    signaturesIn b.transactions =
      (selectTransactions entries w.app.node.chain.getHeight).map fun tx => tx.signature

theorem closed_fresh (hi : genesis.index = 0) : Closed core env pot genesis (fresh env pot genesis)
    where
  consistent := Node.consistent_fresh hi
  lawful := holdsLawful_fresh core env pot genesis
  unconfirmed := fun _ => startMempool_unconfirmed _ _
  affordable := affordable_fresh env pot genesis
  head := fun _ h => by cases h
  pool := fun _ h => by cases h

theorem Closed.client (h : Closed core env pot genesis w) (hi : genesis.index = 0)
    (hpot : pot < 2 ^ 64) {e : AppState.Event} {app : AppState} (he : e.OfClient)
    (hstep : AppState.Steps core w.app e app) :
    Closed core env pot genesis { w with app := app } := by
  obtain ⟨hrep, hspares, hsupply, hleaves⟩ : e.ForkReplays core w.app ∧ e.SparesPool core w.app ∧
    e.SupplyFits core env pot genesis w.app ∧ e.LeavesEnough core env pot genesis w.app :=
    he.harmless
  have hnode := hstep.node_of_client he
  have hgrown : w.app.mempool.transactions.Subperm app.mempool.transactions := by
    rcases hstep.ofClient he with rfl | ⟨tx, hadm⟩
    · exact List.Subperm.refl _
    · obtain ⟨hc, hpool⟩ := hadm.mempool
      rw [hpool, Mempool.transactions_put hc hadm.fresh]
      exact (List.sublist_cons_self _ _).subperm
  exact {
    consistent := hstep.consistent h.consistent hi hpot hrep
    lawful := hstep.holdsLawful h.consistent hi hpot hrep h.lawful
    unconfirmed := (hstep.unconfirmed_iff h.consistent hi hpot hrep h.unconfirmed).mpr hspares
    affordable :=
      (hstep.affordable_iff h.consistent hi hpot hrep hsupply h.affordable).mpr hleaves
    head := fun head hhead => (h.head head hhead).trans (by rw [hnode])
    pool := fun entries hentries => (h.pool entries hentries).trans hgrown }

/-- The node takes what the miner posts, as the next block. -/
theorem Closed.extends (h : Closed core env pot genesis w)
    (hs : w.app.node.chain.totalSupply + 1 < 2 ^ 64) (hstep : Steps core w (.post d) w') :
    Extends core w d.block w' ∧ w.app.node.applyBlock core d.ambient d.block =
      .ok (.applied, w'.app.node) := by
  cases hstep with
  | @post _ head entries timestamp answer app hhead hpool hmakes hfits hnow hpast happ =>
    obtain rfl := h.head head hhead
    obtain ⟨miner, nonce, candidate, stopped, fuel, tries, hminer, hassemble, hmine⟩ := hmakes
    obtain ⟨hshape, hacc, htxs, hsigs⟩ := accepts_of_mined hs
      (confirmable_of_pool h.lawful h.unconfirmed h.affordable hs) (h.pool entries hpool) hminer
      hassemble hmine hnow hpast
    obtain ⟨s', chain, happ', hnode, hup, hderived, hheight, -, hmempool⟩ :=
      applied_of_accepts hs hshape hacc
    obtain ⟨-, rfl⟩ := Prod.mk.inj (Except.ok.inj (happ.symm.trans happ'))
    have happended := Blockchain.appended_of_updateState hup
    refine ⟨?_, hnode⟩
    exact {
      index := happended.index
      height := hheight
      canonicalChain := canonicalChain_of_applied h.consistent hfits hnode
      supply := by
        show app.node.chain.toDerivedState.totalSupply ≤ _
        rw [hderived]
        exact Blockchain.Appends.totalSupply_le ⟨_, hup⟩ hs
      confirmed := by
        show app.node.chain.toDerivedState.confirmedSignatures = _
        rw [hderived, happended.signatures.2.2]
      mempool := hmempool
      selection := ⟨miner, entries, hpool, htxs, hsigs⟩ }

/-- A block spends no more of a balance than the pool has set aside for what it includes. -/
theorem Closed.affordable_of_extends (h : Closed core env pot genesis w)
    (hs : w.app.node.chain.totalSupply + 1 < 2 ^ 64) (hext : Extends core w d.block w')
    (happ : w.app.node.applyBlock core d.ambient d.block = .ok (.applied, w'.app.node)) :
    w'.app.Affordable := by
  intro a
  obtain ⟨miner, entries, hpool, htxs, hsigs⟩ := hext.selection
  have hsub : (selectTransactions entries w.app.node.chain.getHeight).Subperm
      w.app.mempool.transactions :=
    selectTransactions_subperm.trans (h.pool entries hpool)
  have hdebit : w.app.mempool.pendingDebit a ≤ w.app.node.chain.getBalance a := h.affordable a
  have hbound := DerivedState.getBalance_add_pot_le w.app.node.chain.toDerivedState a
  have hsplit : (w.app.mempool.leftBy core [d.block] w'.app.node.chain.getHeight).pendingDebit a +
      DerivedState.spentBy (selectTransactions entries w.app.node.chain.getHeight) a ≤
        w.app.mempool.pendingDebit a :=
    Mempool.pendingDebit_leftBy_add_spentBy hsub hsigs (by rw [Word.maxValue]; omega)
  cases Node.effect_of_applyBlock happ with
  | @applied chain payouts hup hchain _ =>
    have hbalance := Blockchain.getBalance_of_updateState hs hup a
    have hspent : DerivedState.spentBy d.block.transactions a =
        DerivedState.spentBy (selectTransactions entries w.app.node.chain.getHeight) a := by
      rw [htxs, DerivedState.spentBy_coinbase (coinbaseTo_isCoinbase miner)]
    have hsame : w'.app.node.chain.getBalance a = chain.getBalance a := by
      rw [hchain, Blockchain.pruneToWindow_toDerivedState]
    rw [hext.mempool, hsame]
    omega

theorem Closed.post (h : Closed core env pot genesis w) (hi : genesis.index = 0)
    (hpot : pot < 2 ^ 64) (hs : w.app.node.chain.totalSupply + 1 < 2 ^ 64)
    (hstep : Steps core w (.post d) w') : Closed core env pot genesis w' := by
  obtain ⟨hext, hnode⟩ := h.extends hs hstep
  have hafford := h.affordable_of_extends hs hext hnode
  have hrep : w.app.node.chain.ForkReplays core d.ambient d.block (some w.app.node.db.reader) := by
    cases Node.effect_of_applyBlock hnode with
    | applied hup =>
      intro fork ancestor hchosen
      rw [Blockchain.chosenFork_of_applied hup] at hchosen
      cases hchosen
  cases hstep with
  | @post _ _ _ _ answer app _ _ _ hfits _ _ happ =>
    have hincoming : AppState.Steps core w.app (.incoming d) app := ⟨hfits, answer, happ⟩
    exact {
      consistent := hincoming.consistent h.consistent hi hpot hrep
      lawful := hincoming.holdsLawful h.consistent hi hpot hrep h.lawful
      unconfirmed :=
        (hincoming.unconfirmed_iff h.consistent hi hpot hrep h.unconfirmed).mpr trivial
      affordable := hafford
      head := fun head hnone => by cases hnone
      pool := fun entries hnone => by cases hnone }

/-- A step adds the block that it posts, or leaves the chain as it is. -/
theorem Closed.step (h : Closed core env pot genesis w) (hi : genesis.index = 0)
    (hpot : pot < 2 ^ 64) (hs : w.app.node.chain.totalSupply + (posted [e]).length < 2 ^ 64)
    (hstep : Steps core w e w') : Closed core env pot genesis w' ∧
      (e.block = none ∧ w'.app.node = w.app.node ∨
        ∃ d, e = .post d ∧ Extends core w d.block w') := by
  cases e with
  | client e =>
    cases hstep with
    | client he hstep => exact ⟨h.client hi hpot he hstep, .inl ⟨rfl, hstep.node_of_client he⟩⟩
  | askHead =>
    cases hstep
    exact ⟨⟨h.consistent, h.lawful, h.unconfirmed, h.affordable,
      fun head hhead => (Option.some.inj hhead).symm, fun entries hnone => by cases hnone⟩,
      .inl ⟨rfl, rfl⟩⟩
  | askPool =>
    cases hstep
    refine ⟨⟨h.consistent, h.lawful, h.unconfirmed, h.affordable, h.head, ?_⟩, .inl ⟨rfl, rfl⟩⟩
    intro entries hentries
    cases hentries
    exact List.Subperm.refl _
  | post d => exact ⟨h.post hi hpot hs hstep, .inr ⟨d, rfl, (h.extends hs hstep).1⟩⟩

/-! ### Runs -/

/-- What a run has added: the blocks that were posted, one after the other, and nothing else. -/
structure Grown (core : Core) (env : Option ℚ) (pot : ℕ) (genesis : Block) (w : Solo)
    (bs : List Block) (w' : Solo) : Prop where
  closed : Closed core env pot genesis w'
  height : w'.app.node.chain.getHeight = w.app.node.chain.getHeight + bs.length
  canonicalChain : w'.app.node.canonicalChain = w.app.node.canonicalChain ++ bs
  supply : w'.app.node.chain.totalSupply ≤ w.app.node.chain.totalSupply + bs.length
  confirmed : w.app.node.chain.confirmedSignatures ⊆ w'.app.node.chain.confirmedSignatures
  index : ∀ i b, bs[i]? = some b → b.index = w.app.node.chain.getHeight + i

theorem Closed.grown (h : Closed core env pot genesis w) : Grown core env pot genesis w [] w where
  closed := h
  height := rfl
  canonicalChain := (List.append_nil _).symm
  supply := Nat.le_refl _
  confirmed := Finset.Subset.refl _
  index := fun i b hb => by simp at hb

/-- A block before what a run has added. -/
theorem Extends.grown (hext : Extends core w b v) (h : Grown core env pot genesis v bs w') :
    Grown core env pot genesis w (b :: bs) w' where
  closed := h.closed
  height := by
    rw [h.height, hext.height, List.length_cons]
    omega
  canonicalChain := by
    rw [h.canonicalChain, hext.canonicalChain, List.append_assoc, List.singleton_append]
  supply := by
    have := h.supply
    have := hext.supply
    rw [List.length_cons]
    omega
  confirmed := by
    apply Finset.Subset.trans _ h.confirmed
    rw [hext.confirmed]
    exact Finset.subset_union_left
  index i x hx := by
    cases i with
    | zero =>
      cases hx
      exact hext.index
    | succ i =>
      have := h.index i x hx
      have := hext.height
      omega

/-- A step that leaves the chain as it is, before what a run has added. -/
theorem Grown.of_node (h : Grown core env pot genesis v bs w') (hnode : v.app.node = w.app.node) :
    Grown core env pot genesis w bs w' := by
  obtain ⟨hclosed, hheight, hchain, hsupply, hconfirmed, hindex⟩ := h
  rw [hnode] at hheight hchain hsupply hconfirmed hindex
  exact ⟨hclosed, hheight, hchain, hsupply, hconfirmed, hindex⟩

theorem Closed.run (h : Closed core env pot genesis w) (hi : genesis.index = 0)
    (hpot : pot < 2 ^ 64) (run : Runs.Run (Steps core) w es w')
    (hs : w.app.node.chain.totalSupply + (posted es).length < 2 ^ 64) :
    Grown core env pot genesis w (posted es) w' := by
  induction run with
  | nil => exact h.grown
  | @cons w v w' e es hstep _ ih =>
    have hsplit : posted (e :: es) = posted [e] ++ posted es := posted_append [e] es
    rw [hsplit, List.length_append] at hs
    rw [hsplit]
    obtain ⟨hv, ⟨hnone, hnode⟩ | ⟨d, rfl, hext⟩⟩ := h.step hi hpot (by omega) hstep
    · rw [posted_of_none hnone, List.nil_append]
      exact (ih hv (by rw [hnode]; omega)).of_node hnode
    · rw [show posted [Event.post d] = [d.block] from rfl, List.length_singleton] at hs
      have hsupply := hext.supply
      exact hext.grown (ih hv (by omega))

/-- While all blocks are the miner's, and the coins fit, each extends the chain: the canonical chain
is the genesis block with what was posted, and nothing pending is confirmed or outspent. -/
theorem extended_of_run (hi : genesis.index = 0) (hpot : pot < 2 ^ 64)
    (run : Runs.Run (Steps core) (fresh env pot genesis) es w)
    (hs : (Node.freshChain env pot genesis).totalSupply + (posted es).length < 2 ^ 64) :
    w.app.node.canonicalChain = genesis :: posted es ∧
    w.app.node.chain.getHeight = (posted es).length + 1 ∧
    (∀ sig, w.app.mempool.contains sig = true → sig ∉ w.app.node.chain.confirmedSignatures) ∧
    ∀ a, w.app.mempool.pendingDebit a ≤ w.app.node.chain.getBalance a := by
  have hgrown := (closed_fresh hi).run hi hpot run hs
  have htracks : Node.Tracks core env pot genesis (Node.fresh env pot genesis)
      (Node.freshChain env pot genesis) := Node.tracks_fresh hi
  have hgenesis : (Node.fresh env pot genesis).canonicalChain = [genesis] := htracks.canonicalChain
  have hfirst : (Node.fresh env pot genesis).chain.getHeight = 1 := rfl
  refine ⟨hgrown.canonicalChain.trans ?_, hgrown.height.trans ?_, hgrown.closed.unconfirmed,
    hgrown.closed.affordable⟩
  · show (Node.fresh env pot genesis).canonicalChain ++ _ = _
    rw [hgenesis, List.singleton_append]
  · show (Node.fresh env pot genesis).chain.getHeight + _ = _
    rw [hfirst, Nat.add_comm]

/-! ### Waiting -/

/-- A transaction is pending, and the miner knows of it if it knows the pool. -/
structure Waits (w : Solo) (sig : Bytes) (entry : MempoolEntry) : Prop where
  pending : w.app.mempool.entries.lookup sig = some entry
  known : ∀ entries, w.pool = some entries → entry ∈ entries

/-- A block is full of transactions with fees as high. -/
def Outbids (b : Block) (entry : MempoolEntry) : Prop :=
  nonCoinbaseCount b = maxBlockTxs ∧
    ∀ tx ∈ b.transactions, tx.isCoinbase = false → entry.tx.fee ≤ tx.fee

variable {sig : Bytes} {entry : MempoolEntry}

theorem Waits.step (hw : Waits w sig entry) (hnone : e.block = none) (hstep : Steps core w e w') :
    Waits w' sig entry := by
  cases hstep with
  | @client _ app he hstep =>
    refine ⟨?_, hw.known⟩
    rcases hstep.ofClient he with rfl | ⟨tx, hadm⟩
    · exact hw.pending
    · obtain ⟨hc, hpool⟩ := hadm.mempool
      have hne : sig ≠ tx.signature := by
        rintro rfl
        cases hw.pending.symm.trans (Mempool.contains_eq_false.mp hadm.fresh)
      show app.mempool.entries.lookup sig = _
      rw [hpool, Mempool.lookup_put, if_neg hne]
      exact hw.pending
  | askHead => exact ⟨hw.pending, fun entries hnone => by cases hnone⟩
  | askPool =>
    refine ⟨hw.pending, fun entries hentries => ?_⟩
    cases hentries
    rw [Mempool.listMempoolHandler_eq]
    exact HashTable.mem_values.mpr ⟨sig, hw.pending⟩
  | post => cases hnone

/-- A transaction that waits is confirmed by the next block, or was outbid if it could be taken, and
then it still waits or has expired. -/
theorem Extends.waits (hext : Extends core w b w') (h : Closed core env pot genesis w)
    (hw : Waits w sig entry) (hnone : w'.pool = none) :
    sig ∈ w'.app.node.chain.confirmedSignatures ∨
      (isEligible entry b.index = true → Outbids b entry) ∧ (Waits w' sig entry ∨
        entry.addedHeight + txExpiryBlocks < w'.app.node.chain.getHeight) := by
  obtain ⟨miner, entries, hpool, htxs, hsigs⟩ := hext.selection
  set txs := selectTransactions entries w.app.node.chain.getHeight
  have hpending : ∀ tx ∈ txs, tx ∈ w.app.mempool.transactions := fun tx htx =>
    (h.pool entries hpool).subset (selectTransactions_subperm.subset htx)
  by_cases hsig : sig ∈ signaturesIn b.transactions
  · left
    rw [hext.confirmed]
    exact Finset.mem_union_right _ (List.mem_toFinset.mpr hsig)
  right
  have hleft : entry.tx ∉ txs := by
    intro hmem
    apply hsig
    rw [hsigs, ← (w.app.mempool.keyed sig entry hw.pending).1]
    exact List.mem_map_of_mem hmem
  constructor
  · intro heligible
    rw [hext.index] at heligible
    obtain ⟨hfull, hfees⟩ := left_behind (mem_candidates (hw.known entries hpool) heligible) hleft
    constructor
    · rw [nonCoinbaseCount, htxs, List.countP_cons_of_neg (by simp), List.countP_eq_length.mpr,
        hfull]
      intro tx htx
      simp [Mempool.isCoinbase_of_pending (hpending tx htx)]
    · intro tx htx hc
      rw [htxs] at htx
      rcases List.mem_cons.mp htx with rfl | htx
      · cases hc
      · exact hfees tx htx
  · by_cases hexpired : entry.unexpired w'.app.node.chain.getHeight = true
    · left
      refine ⟨?_, fun entries' hentries => by rw [hnone] at hentries; cases hentries⟩
      rw [hext.mempool, Mempool.lookup_leftBy]
      refine ⟨hw.pending, fun hmem => hsig ?_, hexpired⟩
      obtain ⟨x, hx, hmem⟩ := List.mem_flatMap.mp hmem
      rwa [List.mem_singleton.mp hx] at hmem
    · right
      rw [MempoolEntry.unexpired, decide_eq_true_eq] at hexpired
      omega

theorem fair_of_closed (h : Closed core env pot genesis w) (hi : genesis.index = 0)
    (hpot : pot < 2 ^ 64) (hw : Waits w sig entry) (run : Runs.Run (Steps core) w es w')
    (hs : w.app.node.chain.totalSupply + (posted es).length < 2 ^ 64) :
    (sig ∈ w'.app.node.chain.confirmedSignatures ∨
      w'.app.mempool.entries.lookup sig = some entry ∨
      entry.addedHeight + txExpiryBlocks < w'.app.node.chain.getHeight) ∧
    (sig ∉ w'.app.node.chain.confirmedSignatures → ∀ b ∈ posted es,
      isEligible entry b.index = true → b.index ≤ entry.addedHeight + txExpiryBlocks →
        Outbids b entry) := by
  induction run with
  | nil => exact ⟨.inr (.inl hw.pending), fun _ b hb => by cases hb⟩
  | @cons w v w' e es hstep run ih =>
    have hsplit : posted (e :: es) = posted [e] ++ posted es := posted_append [e] es
    rw [hsplit, List.length_append] at hs
    rw [hsplit]
    obtain ⟨hv, ⟨hnone, hnode⟩ | ⟨d, rfl, hext⟩⟩ := h.step hi hpot (by omega) hstep
    · rw [posted_of_none hnone, List.nil_append]
      exact ih hv (hw.step hnone hstep) (by rw [hnode]; omega)
    · rw [show posted [Event.post d] = [d.block] from rfl, List.length_singleton] at hs
      have hsupply := hext.supply
      have hforgets : v.pool = none := by
        cases hstep
        rfl
      have hgrown := hv.run hi hpot run (by omega)
      rcases hext.waits h hw hforgets with hconfirmed | ⟨hout, hwaits | hexpired⟩
      · -- what is confirmed stays confirmed
        have hmem := hgrown.confirmed hconfirmed
        exact ⟨.inl hmem, fun hnot => absurd hmem hnot⟩
      · obtain ⟨hfate, hrest⟩ := ih hv hwaits (by omega)
        refine ⟨hfate, fun hnot b hb heligible hyoung => ?_⟩
        rcases List.mem_cons.mp hb with rfl | hb
        · exact hout heligible
        · exact hrest hnot b hb heligible hyoung
      · -- no later block comes in time
        have hheight := hgrown.height
        refine ⟨.inr (.inr (by omega)), fun _ b hb heligible hyoung => ?_⟩
        rcases List.mem_cons.mp hb with rfl | hb
        · exact hout heligible
        · obtain ⟨i, hi⟩ := List.getElem?_of_mem hb
          have := hgrown.index i b hi
          omega

/-- How many transfers of a block pay at least a fee. -/
def payingAtLeast (fee : ℕ) (b : Block) : ℕ :=
  b.transactions.countP fun tx => !tx.isCoinbase && decide (fee ≤ tx.fee)

theorem Outbids.payingAtLeast (h : Outbids b entry) :
    payingAtLeast entry.tx.fee b = maxBlockTxs := by
  rw [← h.1, nonCoinbaseCount, Solo.payingAtLeast]
  apply List.countP_congr
  intro tx htx
  have hfee := h.2 tx htx
  cases hc : tx.isCoinbase <;> simp_all

/-- Of blocks that follow one another, those of a span hold as much as each of them at least. -/
theorem mul_le_sum_of_span {bs : List Block} {first start count least : ℕ} {f : Block → ℕ}
    (hindex : ∀ i b, bs[i]? = some b → b.index = first + i) (hfirst : first ≤ start)
    (hlast : start + count ≤ first + bs.length)
    (hleast : ∀ b ∈ bs, start ≤ b.index → b.index < start + count → least ≤ f b) :
    count * least ≤ (bs.map f).sum := by
  set span := (bs.drop (start - first)).take count with hspan
  have hlength : span.length = count := by
    rw [hspan, List.length_take, List.length_drop]
    omega
  have hsub : span.Sublist bs := (List.take_sublist _ _).trans (List.drop_sublist _ _)
  have hall : ∀ k ∈ span.map f, least ≤ k := by
    intro k hk
    obtain ⟨b, hb, rfl⟩ := List.mem_map.mp hk
    obtain ⟨i, hi⟩ := List.getElem?_of_mem hb
    have hcount : i < count := by
      have := (List.getElem?_eq_some_iff.mp hi).1
      omega
    rw [hspan, List.getElem?_take_of_lt hcount, List.getElem?_drop] at hi
    have := hindex _ b hi
    exact hleast b (List.mem_of_getElem? hi) (by omega) (by omega)
  calc count * least = (span.map f).length • least := by
        rw [List.length_map, hlength]
        rfl
    _ ≤ (span.map f).sum := List.card_nsmul_le_sum _ _ hall
    _ ≤ (bs.map f).sum := (hsub.map f).sum_le_sum fun _ _ => Nat.zero_le _

/-- A transaction that is pending while the miner has no answer for the pool in hand, and so will
hear of it before its next block, is confirmed, is still pending, or has expired. Until it is
confirmed, every block that could take it and comes in time is full of transactions with fees as
high, so where it expires, 42 blocks full of them have come first. -/
theorem fair_of_run (hi : genesis.index = 0) (hpot : pot < 2 ^ 64)
    (run : Runs.Run (Steps core) (fresh env pot genesis) es w) (hpool : w.pool = none)
    (hpending : w.app.mempool.entries.lookup sig = some entry)
    (run' : Runs.Run (Steps core) w fs w')
    (hs : (Node.freshChain env pot genesis).totalSupply + (posted (es ++ fs)).length < 2 ^ 64) :
    (sig ∈ w'.app.node.chain.confirmedSignatures ∨
      w'.app.mempool.entries.lookup sig = some entry ∨
      entry.addedHeight + txExpiryBlocks < w'.app.node.chain.getHeight) ∧
    (sig ∉ w'.app.node.chain.confirmedSignatures →
      (∀ b ∈ posted fs, isEligible entry b.index = true →
        b.index ≤ entry.addedHeight + txExpiryBlocks → Outbids b entry) ∧
      (w.app.node.chain.getHeight ≤ entry.addedHeight + 59 →
        entry.addedHeight + txExpiryBlocks < w'.app.node.chain.getHeight →
          42 * maxBlockTxs ≤ ((posted fs).map (payingAtLeast entry.tx.fee)).sum)) := by
  rw [posted_append, List.length_append] at hs
  have hgrown := (closed_fresh hi).run hi hpot run (Nat.lt_of_le_of_lt (Nat.le_add_right _ _)
    (by rwa [← Nat.add_assoc] at hs))
  have hsupply := hgrown.supply
  have hfresh : (fresh env pot genesis).app.node.chain.totalSupply =
      (Node.freshChain env pot genesis).totalSupply := rfl
  have hlater := hgrown.closed.run hi hpot run' (by omega)
  have hwaits : Waits w sig entry := ⟨hpending, fun entries hentries => by
    rw [hpool] at hentries
    cases hentries⟩
  obtain ⟨hfate, houtbid⟩ := fair_of_closed hgrown.closed hi hpot hwaits run' (by omega)
  refine ⟨hfate, fun hnot => ⟨houtbid hnot, fun hyoung hexpired => ?_⟩⟩
  have hheight := hlater.height
  rw [txExpiryBlocks] at hexpired
  apply mul_le_sum_of_span hlater.index hyoung (by omega)
  intro b hb hstart hend
  have heligible := isEligible_of_lawful (hgrown.closed.lawful.limited.known hpending) hstart
  exact (houtbid hnot b hb heligible (by rw [txExpiryBlocks]; omega)).payingAtLeast.ge

end Solo

namespace Sample

open Miner Solo

instance (e : AppState.Event) : Decidable e.OfClient :=
  match e with
  | .submit _ | .relay _ => isTrue trivial
  | .incoming _ | .sync _ => isFalse id

/-- One step, where the miner finds each block at its first try, or nothing. -/
def nextSolo (w : Solo) : Solo.Event → Option Solo
  | .client e =>
    if e.OfClient then (stepEvent w.app e).map fun app => { w with app := app } else none
  | .askHead => some ⟨w.app, some (chainHeadHandler w.app.node.chain), none⟩
  | .askPool => some { w with pool := some (listMempoolHandler w.app.mempool) }
  | .post d => do
    let head ← w.head
    let entries ← w.pool
    let candidate ← (assembleBlock plainCore head entries "miner" d.block.timestamp
      d.block.nonce).toOption.join
    let found ← (mine plainCore head.difficulty (fun _ => false) 0 0 candidate).toOption.join
    if found.1 = d.block ∧ d.block.Fits ∧ d.block.timestamp ≤ d.ambient.clock 0 + 120 ∧
        pastMedian w.app.node.chain.blocks d.block.timestamp = true then
      (w.app.applyIncomingBlock plainCore d.ambient d.block).toOption.map fun r => ⟨r.2, none, none⟩
    else none

theorem steps_of_nextSolo {w w' : Solo} {e : Solo.Event} (h : nextSolo w e = some w') :
    Solo.Steps plainCore w e w' := by
  cases e with
  | client e =>
    obtain ⟨he, h⟩ := Option.ite_none_right_eq_some.mp h
    obtain ⟨app, happ, rfl⟩ := Option.map_eq_some_iff.mp h
    exact .client he (steps_of_stepEvent happ)
  | askHead =>
    cases h
    exact .askHead
  | askPool =>
    cases h
    exact .askPool
  | post d =>
    obtain ⟨head, hhead, h⟩ := Option.bind_eq_some_iff.mp h
    obtain ⟨entries, hpool, h⟩ := Option.bind_eq_some_iff.mp h
    obtain ⟨candidate, hcandidate, h⟩ := Option.bind_eq_some_iff.mp h
    obtain ⟨⟨b, tries⟩, hb, h⟩ := Option.bind_eq_some_iff.mp h
    obtain ⟨⟨rfl, hfits, hnow, hpast⟩, hpost⟩ := Option.ite_none_right_eq_some.mp h
    obtain ⟨⟨answer, app⟩, happ, rfl⟩ := Fallible.exists_of_toOption_map hpost
    have hassemble := Fallible.toOption_eq_some.mp (Option.join_eq_some_iff.mp hcandidate)
    have hmine := Fallible.toOption_eq_some.mp (Option.join_eq_some_iff.mp hb)
    exact .post hhead hpool ⟨"miner", _, candidate, _, 0, tries, rfl, hassemble, hmine⟩ hfits hnow
      hpast happ

/-- The miner's block with the one payment, and its next with the other. -/
def soloBlock : Block := blockOf [coinbaseTo "miner", smallPayment] 1 [] 1748000060 32
def soloChild : Block := blockOf [coinbaseTo "miner", largePayment] 2 soloBlock.hash 1748000121 32

/-- A payment and the miner's block, before which another payment comes too late for the miner. -/
def soloEvents : List Solo.Event :=
  [.client (.relay smallPayment), .askHead, .askPool, .client (.relay largePayment),
    .post (deliveryOf soloBlock)]

/-- The miner's next block. -/
def laterEvents : List Solo.Event := [.askHead, .askPool, .post (deliveryOf soloChild)]

theorem soloChild_extends : ∃ w : Solo,
    w.app.node.canonicalChain = [genesis, soloBlock, soloChild] ∧
    w.app.node.chain.getHeight = 3 ∧
    (∀ sig, w.app.mempool.contains sig = true → sig ∉ w.app.node.chain.confirmedSignatures) ∧
    ∀ a, w.app.mempool.pendingDebit a ≤ w.app.node.chain.getBalance a := by
  have hrun : ((soloEvents ++ laterEvents).foldlM nextSolo
      (Solo.fresh none Node.genesisPotAmount genesis)).isSome = true := by
    decide +kernel
  obtain ⟨w, hw⟩ := Option.isSome_iff_exists.mp hrun
  exact ⟨w, Solo.extended_of_run rfl (by decide) (Runs.run_of_foldlM steps_of_nextSolo hw)
    (by decide +kernel)⟩

/-- The late payment waits for the next block, which confirms it. -/
theorem largePayment_fair : ∃ w w' : Solo,
    w.app.mempool.entries.lookup largePayment.signature = some ⟨largePayment, 1⟩ ∧
    w'.app.node.chain.getHeight = 3 ∧
    largePayment.signature ∈ w'.app.node.chain.confirmedSignatures ∧
    (largePayment.signature ∈ w'.app.node.chain.confirmedSignatures ∨
      w'.app.mempool.entries.lookup largePayment.signature = some ⟨largePayment, 1⟩ ∨
      1 + txExpiryBlocks < w'.app.node.chain.getHeight) ∧
    (largePayment.signature ∉ w'.app.node.chain.confirmedSignatures →
      (∀ b ∈ posted laterEvents, isEligible ⟨largePayment, 1⟩ b.index = true →
        b.index ≤ 1 + txExpiryBlocks → Outbids b ⟨largePayment, 1⟩) ∧
      (w.app.node.chain.getHeight ≤ 1 + 59 → 1 + txExpiryBlocks < w'.app.node.chain.getHeight →
        42 * maxBlockTxs ≤ ((posted laterEvents).map (payingAtLeast largePayment.fee)).sum)) := by
  have hrun : ((soloEvents.foldlM nextSolo (Solo.fresh none Node.genesisPotAmount genesis)).bind
      fun w => (laterEvents.foldlM nextSolo w).map fun w' =>
        (w.pool.isNone, w.app.mempool.entries.lookup largePayment.signature,
          w'.app.node.chain.getHeight,
          decide (largePayment.signature ∈ w'.app.node.chain.confirmedSignatures))) =
      some (true, some ⟨largePayment, 1⟩, 3, true) := by
    decide +kernel
  obtain ⟨w, hw, hrun⟩ := Option.bind_eq_some_iff.mp hrun
  obtain ⟨w', hw', hseen⟩ := Option.map_eq_some_iff.mp hrun
  simp only [Prod.mk.injEq, decide_eq_true_eq, Option.isNone_iff_eq_none] at hseen
  obtain ⟨hpool, hpending, hheight, hconfirmed⟩ := hseen
  exact ⟨w, w', hpending, hheight, hconfirmed,
    Solo.fair_of_run rfl (by decide) (Runs.run_of_foldlM steps_of_nextSolo hw) hpool hpending
      (Runs.run_of_foldlM steps_of_nextSolo hw') (by decide +kernel)⟩

end Sample

end Lootcoin
