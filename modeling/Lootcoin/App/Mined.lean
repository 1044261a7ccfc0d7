import Lootcoin.Miner
import Lootcoin.App.Afford
import Lootcoin.App.Pending
import Lootcoin.App.Stored

/-! From the pool into a block.  Whatever is pending passes the rules that a block asks of its
transfers, and so does whatever a restart reads back.  So where the chain has neither confirmed nor
outspent what is pending, the block that a miner makes of what the node reports is one that the node
takes, and what it selects is then confirmed and pending no longer. -/

namespace Lootcoin

/-- What the rules ask of a transfer, whatever the state. -/
structure Lawful (core : Core) (tx : Transaction) : Prop where
  verified : core.verify tx = true
  fee : minTxFee ≤ tx.fee
  receiver : isValidAddress core tx.receiver = true

namespace DerivedState

variable {core : Core} {s : DerivedState} {acc : Prevalidation} {txs : List Transaction}

theorem lawful_of_prevalidated
    (h : (txs.foldlM (prevalidateTransaction core s) acc).isSome = true) :
    ∀ tx ∈ txs, tx.isCoinbase = false → Lawful core tx := by
  induction txs generalizing acc with
  | nil => exact nofun
  | cons tx txs ih =>
    rw [List.foldlM_cons, Option.bind_eq_bind] at h
    obtain ⟨acc', hacc⟩ := Option.isSome_iff_exists.mp (Option.isSome_of_isSome_bind h)
    rw [hacc, Option.bind_some] at h
    intro tx' htx' hc
    rcases List.mem_cons.mp htx' with rfl | htx'
    · obtain ⟨hverified, hfee, hreceiver, -⟩ := (prevalidateTransaction_transfer hc).mp hacc
      exact ⟨hverified, hfee, hreceiver⟩
    · exact ih h tx' htx' hc

end DerivedState

namespace Blockchain

variable {core : Core} {c c' : Blockchain} {b : Block} {bs : List Block} {tx : Transaction}

theorem Grows.lawful (h : Grows core c bs c') (hb : b ∈ bs) (htx : tx ∈ b.transactions)
    (hc : tx.isCoinbase = false) : Lawful core tx := by
  induction h with
  | nil => cases hb
  | cons hstep _ ih =>
    rcases List.mem_cons.mp hb with rfl | hb
    · obtain ⟨-, -, -, -, -, -, hpre⟩ := DerivedState.validBody_iff.mp hstep.appended.validBody
      exact DerivedState.lawful_of_prevalidated (Option.isSome_iff_exists.mpr hpre) tx htx hc
    · exact ih hb

end Blockchain

namespace Mempool

/-- The pool is within its limits, and what it holds and has stored is among `S`. -/
structure Holds (S : Set Transaction) (p : Mempool) : Prop where
  limited : p.Limited S
  stored : ∀ t, p.table = some t → ∀ id e, t.get id = some e → e.1 ∈ S

variable {core : Core} {p q : Mempool} {tx : Transaction} {txs : List Transaction} {bs : List Block}
  {height : ℕ} {getBalance : Address → ℕ} {S : Set Transaction}

theorem holds_new : (new (some .empty)).Holds S :=
  ⟨limited_new _, fun t ht id e he => by cases ht; cases he⟩

theorem Holds.put (hp : p.Holds S) (h : p.Admits tx) (htx : tx ∈ S) :
    (p.put core tx height h.transfer).Holds S where
  limited := hp.limited.put h htx
  stored t ht id e he := by
    obtain ⟨t₀, ht₀, rfl⟩ := Option.map_eq_some_iff.mp ht
    by_cases hid : id = core.txid tx
    · rw [hid, OrderedTable.get_insert, Option.some.injEq] at he
      rwa [← he]
    · rw [OrderedTable.get_insert_ne _ _ hid] at he
      exact hp.stored t₀ ht₀ id e he

/-- Nothing comes in where entries are taken out of the pool and of its table. -/
theorem Holds.of_removed (hp : p.Holds S) (txids : List Bytes) (h : q.Within p)
    (htable : q.table = p.table.map fun t => t.removeAll txids) : q.Holds S where
  limited := hp.limited.of_within h
  stored t ht id e he := by
    rw [htable] at ht
    obtain ⟨t₀, ht₀, rfl⟩ := Option.map_eq_some_iff.mp ht
    rw [OrderedTable.get_removeAll] at he
    exact hp.stored t₀ ht₀ id e (Option.ite_none_left_eq_some.mp he).2

theorem Holds.addTransaction (hp : p.Holds S) (htx : tx ∈ S) :
    (p.addTransaction core tx height).2.Holds S :=
  addTransaction_induction hp fun h => hp.put h htx

theorem Holds.removeIncluded (hp : p.Holds S) : (p.removeIncluded core txs).Holds S := by
  refine hp.of_removed (txs.foldl (takeOut core) (p, [])).2 within_removeIncluded ?_
  show (txs.foldl (takeOut core) (p, [])).1.table.map _ = _
  rw [table_foldl_takeOut]
  rfl

theorem Holds.evictExpired (hp : p.Holds S) : (p.evictExpired core height).Holds S :=
  hp.of_removed _ within_evictExpired rfl

theorem Holds.readdBlocks (hp : p.Holds S)
    (h : ∀ b ∈ bs, ∀ tx ∈ b.transactions, tx.isCoinbase = false → tx ∈ S) :
    (p.readdBlocks core getBalance height bs).Holds S := by
  induction bs generalizing p with
  | nil => exact hp
  | cons b bs ih =>
    refine ih ?_ fun b' hb' => h b' (List.mem_cons_of_mem _ hb')
    exact readdDisplaced_induction
      (fun htx hadmits hq => hq.put hadmits (h b List.mem_cons_self _ htx hadmits.transfer)) hp

theorem Holds.leftBy (hp : p.Holds S) : (p.leftBy core bs height).Holds S := by
  refine Holds.evictExpired ?_
  induction bs generalizing p with
  | nil => exact hp
  | cons b bs ih => exact ih hp.removeIncluded

/-- A restart reads back what was stored, within the limits. -/
theorem Holds.restart (core : Core) (hp : p.Holds S) (c : Blockchain) :
    (p.perform core (.restart c)).Holds S := by
  rw [perform]
  cases ht : p.table with
  | none =>
    refine ⟨limited_new _, fun t ht => ?_⟩
    cases ht
  | some t =>
    have hmem : ∀ e ∈ t.values, e.1 ∈ S := by
      intro e he
      obtain ⟨entry, hentry, rfl⟩ := List.mem_map.mp he
      exact hp.stored t ht entry.1 entry.2 (OrderedTable.mem_entries.mp hentry)
    refine ⟨(limited_new _).restore core fun e he => hmem e (List.mem_filter.mp he).1, ?_⟩
    intro t' ht' id e he
    rw [Option.elim_some, AppState.startMempool, table_restore] at ht'
    cases ht'
    exact hp.stored t ht id e he

end Mempool

namespace AppState

variable {core : Core} {ambient : Ambient} {s s' : AppState} {tx : Transaction} {b : Block}
  {req : SubmitTransactionRequest} {env : Option ℚ} {pot : ℕ} {genesis : Block} {e : Event}
  {es : List Event}

/-! ### What comes in -/

/-- The pool holds transfers that pass the rules. -/
def HoldsLawful (core : Core) (s : AppState) : Prop := s.mempool.Holds {tx | Lawful core tx}

theorem relayTxInner_mempool (core : Core) (s : AppState) (tx : Transaction) :
    (s.relayTxInner core tx).2.mempool = s.mempool ∨ Lawful core tx ∧ ∃ height,
      (s.relayTxInner core tx).2.mempool = (s.mempool.addTransaction core tx height).2 := by
  unfold relayTxInner
  split
  · exact .inl rfl
  split
  · exact .inl rfl
  rename_i hverify
  split
  · exact .inl rfl
  rename_i hreceiver
  split
  · exact .inl rfl
  rename_i hvalid
  simp only
  split
  · exact .inl rfl
  simp only [Blockchain.validateTransactionState, Bool.not_eq_true', Bool.not_eq_false,
    Bool.and_eq_true, decide_eq_true_eq] at hverify hreceiver hvalid
  refine .inr ⟨⟨hverify, hvalid.1.1, hreceiver⟩, s.node.chain.getHeight, ?_⟩
  rcases s.mempool.addTransaction core tx s.node.chain.getHeight with ⟨_ | _, pool⟩ <;> rfl

theorem submitTransactionHandler_mempool (core : Core) (s : AppState)
    (req : SubmitTransactionRequest) :
    (s.submitTransactionHandler core req).2.mempool = s.mempool ∨ ∃ tx, Lawful core tx ∧ ∃ height,
      (s.submitTransactionHandler core req).2.mempool =
        (s.mempool.addTransaction core tx height).2 := by
  unfold submitTransactionHandler
  split
  · exact .inl rfl
  split
  · exact .inl rfl
  rename_i hreceiver
  split
  · exact .inl rfl
  split
  · exact .inl rfl
  split
  · exact .inl rfl
  split
  · exact .inl rfl
  simp only
  split
  · exact .inl rfl
  rename_i hverify
  split
  · exact .inl rfl
  rename_i hvalid
  split
  · exact .inl rfl
  simp only [Blockchain.validateTransactionState, Bool.not_eq_true', Bool.not_eq_false,
    Bool.and_eq_true, decide_eq_true_eq] at hverify hreceiver hvalid
  refine .inr ⟨_, ⟨hverify, hvalid.1.1, hreceiver⟩, s.node.chain.getHeight, ?_⟩
  rcases s.mempool.addTransaction core _ s.node.chain.getHeight with ⟨_ | _, pool⟩ <;> rfl

/-- What a block displaces was on the chain and passes the rules. -/
theorem holdsLawful_of_poolAfter {full : Blockchain} {outcome : BlockOutcome}
    (ht : Node.Tracks core env pot genesis s.node full) (hn : Node.Sound core s.node)
    (hi : genesis.index = 0) (hpot : pot < 2 ^ 64) (hfits : b.Fits)
    (happ : s.node.applyBlock core ambient b = .ok (outcome, s'.node))
    (hrep : s.node.chain.ForkReplays core ambient b (some s.node.db.reader))
    (hpool : s'.mempool = s.poolAfter core b s'.node outcome) (hs : s.HoldsLawful core) :
    s'.HoldsLawful core := by
  obtain ⟨_, _, displaced, _, -, -, -, hbranch, hold⟩ :=
    ht.branches hn hi hpot hfits (Node.effect_of_applyBlock happ) hrep
  rw [HoldsLawful, hpool]
  cases outcome with
  | applied => exact hs.leftBy
  | reorged old fork =>
    refine Mempool.Holds.leftBy (hs.readdBlocks fun x hx tx htx hc => ?_)
    exact hbranch.displaced.lawful (hold hx) htx hc
  | orphaned => exact hs
  | rejected => exact hs

theorem Steps.holdsLawful (hstep : Steps core s e s')
    (hw : Node.Consistent core env pot genesis s.node) (hi : genesis.index = 0)
    (hpot : pot < 2 ^ 64) (hrep : e.ForkReplays core s) (hs : s.HoldsLawful core) :
    s'.HoldsLawful core := by
  obtain ⟨hn, full, ht⟩ := hw
  cases e with
  | submit req =>
    obtain rfl : s' = _ := hstep
    rcases submitTransactionHandler_mempool core s req with hsame | ⟨tx, hlawful, height, hadd⟩
    · rwa [HoldsLawful, hsame]
    · rw [HoldsLawful, hadd]
      exact hs.addTransaction hlawful
  | relay tx =>
    obtain rfl : s' = _ := hstep
    rcases relayTxInner_mempool core s tx with hsame | ⟨hlawful, height, hadd⟩
    · rwa [HoldsLawful, hsame]
    · rw [HoldsLawful, hadd]
      exact hs.addTransaction hlawful
  | incoming d =>
    obtain ⟨hfits, answer, happ⟩ := hstep
    rcases applyIncomingBlock_cases happ with ⟨-, rfl⟩ | ⟨-, outcome, happ, hpool⟩
    · exact hs
    · exact holdsLawful_of_poolAfter ht hn hi hpot hfits happ hrep hpool hs
  | sync d =>
    obtain ⟨-, happ⟩ := hstep
    obtain ⟨-, -, hpool⟩ := syncBlock_cases happ
    rw [HoldsLawful, hpool]
    exact hs

theorem holdsLawful_fresh (core : Core) (env : Option ℚ) (pot : ℕ) (genesis : Block) :
    (fresh env pot genesis).HoldsLawful core := Mempool.holds_new

/-! ### Runs -/

/-- A step whose fork replays completely. -/
def StepsCompletely (core : Core) (s : AppState) (e : Event) (s' : AppState) : Prop :=
  Steps core s e s' ∧ e.ForkReplays core s

theorem holdsLawful_of_run (hi : genesis.index = 0) (hpot : pot < 2 ^ 64)
    (run : Runs.Run (StepsCompletely core) (fresh env pot genesis) es s) :
    Node.Consistent core env pot genesis s.node ∧ s.HoldsLawful core := by
  refine run.invariant
    (P := fun s => Node.Consistent core env pot genesis s.node ∧ s.HoldsLawful core) ?_
    ⟨Node.consistent_fresh hi, holdsLawful_fresh core env pot genesis⟩
  rintro s e s' ⟨hstep, hrep⟩ ⟨hw, hs⟩
  exact ⟨hstep.consistent hw hi hpot hrep, hstep.holdsLawful hw hi hpot hrep hs⟩

/-- From an age at which it has not expired, a full block takes a lawful transaction. -/
theorem isEligible_of_lawful {entry : MempoolEntry} {height : ℕ} (h : Lawful core entry.tx)
    (hage : entry.addedHeight + 59 ≤ height) : Miner.isEligible entry height = true := by
  have hfee := h.fee
  rw [minTxFee] at hfee
  have hdiv : guaranteeAfter / entry.tx.fee ≤ guaranteeAfter / 2 := Nat.div_le_div_left hfee (by omega)
  rw [Miner.isEligible, if_neg (by omega), decide_eq_true_eq]
  have : guaranteeAfter / 2 = 60 := rfl
  omega

/-- In every state of a run, and after a restart with any chain, the pool is within its limits, and
all that is pending passes the rules and can be mined before it expires. -/
theorem pool_of_run (hi : genesis.index = 0) (hpot : pot < 2 ^ 64)
    (run : Runs.Run (StepsCompletely core) (fresh env pot genesis) es s) {p : Mempool}
    (hp : p = s.mempool ∨ ∃ c, p = s.mempool.perform core (.restart c)) :
    p.len ≤ maxMempoolSize ∧ (∀ a, p.pendingCount a ≤ maxPendingPerSender) ∧
      ∀ sig entry, p.entries.lookup sig = some entry → Lawful core entry.tx ∧
        entry.tx.signature = sig ∧ ∀ height, entry.addedHeight + 59 ≤ height →
          height ≤ entry.addedHeight + 100 →
          Miner.isEligible entry height = true ∧ entry.unexpired height = true := by
  have hs := (holdsLawful_of_run hi hpot run).2
  have hholds : p.Holds {tx | Lawful core tx} := by
    rcases hp with rfl | ⟨c, rfl⟩
    · exact hs
    · exact hs.restart core c
  refine ⟨hholds.limited.len, hholds.limited.sender, fun sig entry hentry => ?_⟩
  have hlawful : Lawful core entry.tx := hholds.limited.known hentry
  refine ⟨hlawful, (p.keyed sig entry hentry).1, fun height hage hyoung => ?_⟩
  refine ⟨isEligible_of_lawful hlawful hage, ?_⟩
  rw [MempoolEntry.unexpired, decide_eq_true_eq, txExpiryBlocks]
  omega

end AppState

namespace Mempool

variable {p : Mempool} {a : Address} {tx : Transaction}

/-- What is pending lies under its own signature. -/
theorem mem_transactions :
    tx ∈ p.transactions ↔ ∃ e, p.entries.lookup tx.signature = some e ∧ e.tx = tx := by
  rw [transactions_eq, List.mem_map]
  constructor
  · rintro ⟨e, he, rfl⟩
    obtain ⟨sig, hlookup⟩ := HashTable.mem_values.mp he
    exact ⟨e, (p.keyed sig e hlookup).1 ▸ hlookup, rfl⟩
  · rintro ⟨e, he, rfl⟩
    exact ⟨e, HashTable.mem_values.mpr ⟨_, he⟩, rfl⟩

theorem nodup_signatures (p : Mempool) : (p.transactions.map fun tx => tx.signature).Nodup := by
  have hkeys : p.transactions.map (fun tx => tx.signature) = p.entries.entries.map Sigma.fst := by
    rw [transactions_eq, HashTable.values, List.map_map, List.map_map]
    refine List.map_congr_left fun e he => ?_
    exact (p.keyed e.1 e.2 (HashTable.mem_entries.mp he)).1
  rw [hkeys]
  exact p.entries.nodupKeys

/-- A debit that does not reach the bound of a word is the sum of what is spent. -/
theorem spentBy_transactions (h : p.pendingDebit a < Word.maxValue 64) :
    DerivedState.spentBy p.transactions a = p.pendingDebit a := by
  have hsum : ((p.entriesOf a).map fun e => costOf e.tx).sum = p.pendingDebit a := by
    rw [pendingDebit, Word.saturatingSum_eq] at h ⊢
    omega
  have hexact : ∀ e ∈ p.entriesOf a, costOf e.tx = e.tx.amount + e.tx.fee := by
    intro e he
    have hle := List.single_le_sum (fun _ _ => Nat.zero_le _) _
      (List.mem_map.mpr ⟨e, he, rfl⟩ : costOf e.tx ∈ (p.entriesOf a).map fun e => costOf e.tx)
    rw [costOf, Word.saturatingAdd] at hle ⊢
    omega
  have hfilter : p.transactions.filter (fun tx => tx.isCoinbase = false ∧ tx.sender = a) =
      (p.entriesOf a).map fun e => e.tx := by
    rw [transactions_eq, List.filter_map, entriesOf]
    refine congrArg (List.map _) (List.filter_congr fun e he => ?_)
    have hc := isCoinbase_of_pending (p := p)
      (transactions_eq p ▸ List.mem_map.mpr ⟨e, he, rfl⟩ : e.tx ∈ p.transactions)
    simp [hc]
  rw [DerivedState.spentBy, hfilter, List.map_map, ← hsum]
  exact congrArg List.sum (List.map_congr_left fun e he => (hexact e he).symm)

end Mempool

namespace AppState

open Miner

variable {core : Core} {ambient : Ambient} {s : AppState} {b candidate : Block} {env : Option ℚ}
  {pot : ℕ} {genesis : Block} {es : List Event} {miner : Address} {timestamp nonce : ℕ}

/-! ### From the pool into a block -/

/-- A step whose fork replays completely, that confirms nothing behind the back of the pool and
leaves the senders of the pool enough, while the coins fit. -/
def StepsMineable (core : Core) (env : Option ℚ) (pot : ℕ) (genesis : Block) (s : AppState)
    (e : Event) (s' : AppState) : Prop :=
  Steps core s e s' ∧ e.ForkReplays core s ∧ e.SparesPool core s ∧
    e.SupplyFits core env pot genesis s ∧ e.LeavesEnough core env pot genesis s

/-- What passes the rules, is not confirmed and can be paid for can be confirmed together. -/
theorem confirmable_of_pool (hlawful : s.HoldsLawful core) (hunconfirmed : s.Unconfirmed)
    (hafford : s.Affordable) (hs : s.node.chain.totalSupply + 1 < 2 ^ 64) :
    DerivedState.Confirmable core s.node.chain.toDerivedState s.mempool.transactions := by
  have hall : ∀ tx ∈ s.mempool.transactions, Lawful core tx := by
    intro tx htx
    obtain ⟨e, he, rfl⟩ := Mempool.mem_transactions.mp htx
    exact hlawful.limited.known he
  refine ⟨fun tx htx => (hall tx htx).verified, fun tx htx => (hall tx htx).fee,
    fun tx htx => (hall tx htx).receiver, fun tx htx => ?_, s.mempool.nodup_signatures,
    fun a => ?_⟩
  · obtain ⟨e, he, -⟩ := Mempool.mem_transactions.mp htx
    exact hunconfirmed _ (Option.isSome_iff_exists.mpr ⟨e, he⟩)
  · have hbound := DerivedState.getBalance_add_pot_le s.node.chain.toDerivedState a
    have hdebit : s.mempool.pendingDebit a ≤ s.node.chain.getBalance a := hafford a
    rw [Mempool.spentBy_transactions (by rw [Word.maxValue]; omega)]
    exact hdebit

theorem confirmable_of_run (hi : genesis.index = 0) (hpot : pot < 2 ^ 64)
    (run : Runs.Run (StepsMineable core env pot genesis) (fresh env pot genesis) es s)
    (hs : s.node.chain.totalSupply + 1 < 2 ^ 64) :
    DerivedState.Confirmable core s.node.chain.toDerivedState s.mempool.transactions := by
  have hinv : Node.Consistent core env pot genesis s.node ∧ s.HoldsLawful core ∧ s.Unconfirmed ∧
      s.Affordable := by
    refine run.invariant (P := fun s => Node.Consistent core env pot genesis s.node ∧
      s.HoldsLawful core ∧ s.Unconfirmed ∧ s.Affordable) ?_ ⟨Node.consistent_fresh hi,
        holdsLawful_fresh core env pot genesis, fun _ => startMempool_unconfirmed _ _,
        affordable_fresh env pot genesis⟩
    rintro s e s' ⟨hstep, hrep, hspares, hsupply, hleaves⟩ ⟨hw, hlawful, hunconfirmed, hafford⟩
    exact ⟨hstep.consistent hw hi hpot hrep, hstep.holdsLawful hw hi hpot hrep hlawful,
      (hstep.unconfirmed_iff hw hi hpot hrep hunconfirmed).mpr hspares,
      (hstep.affordable_iff hw hi hpot hrep hsupply hafford).mpr hleaves⟩
  exact confirmable_of_pool hinv.2.1 hinv.2.2.1 hinv.2.2.2 hs

theorem timestamp_of_mined {head : HeadResp} {entries : List MempoolEntry}
    (h : assembleBlock core head entries miner timestamp nonce = .ok (some candidate))
    (hseal : Seals core candidate b) : b.timestamp = timestamp := by
  obtain ⟨_, _, -, rfl⟩ := hseal
  simp only [assembleBlock] at h
  split at h
  · cases h
  split at h
  · cases h
  cases h
  rfl

/-- A block that the rules accept is applied by the handler, and the pool follows. -/
theorem applied_of_accepts (hs : s.node.chain.totalSupply + 1 < 2 ^ 64)
    (hshape : incomingBlockError core b = none)
    (hacc : s.node.chain.acceptsBlock core (ambient.clock 0) b = true) :
    ∃ s' chain, s.applyIncomingBlock core ambient b = .ok (.ok true, s') ∧
      s.node.applyBlock core ambient b = .ok (.applied, s'.node) ∧
      s.node.chain.updateState core (ambient.clock 0) b = .ok (some chain) ∧
      s'.node.chain.toDerivedState = chain.toDerivedState ∧
      s'.node.chain.getHeight = s.node.chain.getHeight + 1 ∧
      s'.node.chain.getLatestHash = b.hash ∧
      s'.mempool = s.mempool.leftBy core [b] s'.node.chain.getHeight := by
  obtain ⟨-, -, -, hbody⟩ := Blockchain.acceptsBlock_iff.mp hacc
  obtain ⟨d, payouts, hadv, -⟩ := DerivedState.advance_exact hbody hs
  obtain ⟨node, happ⟩ := Node.applied_iff.mpr ⟨hacc, by rw [hadv]; rfl⟩
  cases Node.effect_of_applyBlock happ with
  | @applied chain payouts hup hchain _ =>
    have happended := Blockchain.appended_of_updateState hup
    have hne : ({ chain with settledPayoutsByBlock := payouts } : Blockchain).blocks ≠ [] := by
      simp [happended.blocks]
    refine ⟨_, chain, applyIncomingBlock_eq_ok.mpr (.inr ⟨hshape, .applied, node, happ, rfl⟩), happ,
      hup, ?_, ?_, ?_, rfl⟩
    · show node.chain.toDerivedState = _
      rw [hchain, Blockchain.pruneToWindow_toDerivedState]
    · show node.chain.getHeight = _
      rw [hchain, Blockchain.pruneToWindow_getHeight hne]
      exact happended.getHeight
    · show node.chain.getLatestHash = _
      rw [hchain, Blockchain.getLatestHash, Blockchain.pruneToWindow_blocks, List.getLast?_drop,
        if_neg (Nat.not_le.mpr (Blockchain.excess_lt hne))]
      exact happended.getLatestHash

/-- What a block confirms is pending no longer. -/
theorem confirmed_of_applied {s' : AppState} {chain : Blockchain}
    (hup : s.node.chain.updateState core (ambient.clock 0) b = .ok (some chain))
    (hderived : s'.node.chain.toDerivedState = chain.toDerivedState)
    (hpool : s'.mempool = s.mempool.leftBy core [b] s'.node.chain.getHeight) {sig : Bytes}
    (hsig : sig ∈ signaturesIn b.transactions) :
    sig ∈ s'.node.chain.confirmedSignatures ∧ s'.mempool.contains sig = false := by
  constructor
  · rw [hderived, (Blockchain.appended_of_updateState hup).signatures.2.2]
    exact Finset.mem_union_right _ (List.mem_toFinset.mpr hsig)
  · refine Mempool.contains_eq_false.mpr (Option.eq_none_iff_forall_ne_some.mpr fun e he => ?_)
    rw [hpool] at he
    obtain ⟨-, hleft, -⟩ := Mempool.lookup_leftBy.mp he
    exact hleft (List.mem_flatMap.mpr ⟨b, List.mem_singleton_self b, hsig⟩)

/-- What a miner makes of a head and of entries of a pool that can be confirmed, at a time past the
median and no more than two minutes ahead, passes every check. -/
theorem accepts_of_mined {entries : List MempoolEntry} (hs : s.node.chain.totalSupply + 1 < 2 ^ 64)
    (hconf : DerivedState.Confirmable core s.node.chain.toDerivedState s.mempool.transactions)
    (hentries : (entries.map fun e => e.tx).Subperm s.mempool.transactions)
    (hminer : isValidAddress core miner = true)
    (hassemble : assembleBlock core (chainHeadHandler s.node.chain) entries miner timestamp nonce =
      .ok (some candidate)) {stopped : ℕ → Bool} {fuel tries : ℕ}
    (hmine : mine core (chainHeadHandler s.node.chain).difficulty stopped fuel 0 candidate =
      .ok (some (b, tries)))
    (hnow : timestamp ≤ ambient.clock 0 + 120)
    (hpast : pastMedian s.node.chain.blocks timestamp = true) :
    incomingBlockError core b = none ∧
    s.node.chain.acceptsBlock core (ambient.clock 0) b = true ∧
    b.transactions = coinbaseTo miner :: selectTransactions entries s.node.chain.getHeight ∧
    signaturesIn b.transactions =
      (selectTransactions entries s.node.chain.getHeight).map fun tx => tx.signature := by
  have hbalance : ∀ a, s.node.chain.getBalance a < 2 ^ 64 := by
    intro a
    have hbound := DerivedState.getBalance_add_pot_le s.node.chain.toDerivedState a
    have : s.node.chain.getBalance a = s.node.chain.toDerivedState.getBalance a := rfl
    omega
  obtain ⟨hseal, hmeets⟩ := seals_of_mine hmine
  have htime := timestamp_of_mined hassemble hseal
  obtain ⟨hindex, hprev, htxs, hroot⟩ := assembleBlock_eq_some hassemble
  obtain ⟨hindex', hprev', hroot', htxs', hhash⟩ := hseal.fields
  rw [← htxs', ← hroot'] at hroot
  rw [← htxs'] at htxs
  have hsub : (selectTransactions entries (chainHeadHandler s.node.chain).height).Subperm
      s.mempool.transactions :=
    selectTransactions_subperm.trans hentries
  have hcs : ∀ tx ∈ selectTransactions entries (chainHeadHandler s.node.chain).height,
      tx.isCoinbase = false :=
    fun tx htx => Mempool.isCoinbase_of_pending (hsub.subset htx)
  have hshape := incomingBlockError_of_coinbaseTo htxs length_selectTransactions hcs hminer hhash
  have hbody := (validBody_of_coinbaseTo htxs length_selectTransactions hcs hminer hhash hroot
    (hconf.of_subperm hsub) hbalance).mpr hmeets
  have hlinks : s.node.chain.linksToTip b = true := by
    refine Blockchain.linksToTip_iff.mpr ⟨hindex'.trans hindex, ?_⟩
    rw [hprev', hprev, chainHeadHandler, fromHex_hexEncode, Option.getD_some]
  have hacc : s.node.chain.acceptsBlock core (ambient.clock 0) b = true :=
    Blockchain.acceptsBlock_iff.mpr ⟨hlinks, htime ▸ hnow, htime ▸ hpast, hbody⟩
  refine ⟨hshape, hacc, htxs, ?_⟩
  rw [htxs, signaturesIn_coinbase (coinbaseTo_isCoinbase miner), signaturesIn,
    List.filter_eq_self.mpr fun tx htx => by simp [hcs tx htx]]
  rfl

/-- In every run whose blocks spare the pool and leave its senders enough, what a miner makes of the
head and the pool that the node reports, at a time past the median and no more than two minutes
ahead, the node takes: all that the miner selected is then confirmed and pending no longer. -/
theorem mined_of_run (hi : genesis.index = 0) (hpot : pot < 2 ^ 64)
    (run : Runs.Run (StepsMineable core env pot genesis) (fresh env pot genesis) es s)
    (hs : s.node.chain.totalSupply + 1 < 2 ^ 64) (hminer : isValidAddress core miner = true)
    (hassemble : assembleBlock core (chainHeadHandler s.node.chain) (listMempoolHandler s.mempool)
      miner timestamp nonce = .ok (some candidate)) {stopped : ℕ → Bool} {fuel tries : ℕ}
    (hmine : mine core (chainHeadHandler s.node.chain).difficulty stopped fuel 0 candidate =
      .ok (some (b, tries)))
    (hnow : timestamp ≤ ambient.clock 0 + 120)
    (hpast : pastMedian s.node.chain.blocks timestamp = true) :
    ∃ s', s.applyIncomingBlock core ambient b = .ok (.ok true, s') ∧
      s'.node.chain.getHeight = s.node.chain.getHeight + 1 ∧
      s'.node.chain.getLatestHash = b.hash ∧
      ∀ tx ∈ selectTransactions (listMempoolHandler s.mempool) s.node.chain.getHeight,
        tx.signature ∈ s'.node.chain.confirmedSignatures ∧
          s'.mempool.contains tx.signature = false := by
  obtain ⟨hshape, hacc, -, hsigs⟩ := accepts_of_mined hs (confirmable_of_run hi hpot run hs)
    (List.Subperm.refl _) hminer hassemble hmine hnow hpast
  obtain ⟨s', chain, happ, -, hup, hderived, hheight, hlatest, hpool⟩ :=
    applied_of_accepts hs hshape hacc
  refine ⟨s', happ, hheight, hlatest, fun tx htx => confirmed_of_applied hup hderived hpool ?_⟩
  rw [hsigs]
  exact List.mem_map_of_mem htx

end AppState

namespace Sample

open AppState Miner

/-- A payment is displaced and comes back beside another, and the node restarts with a chain that
has confirmed neither. -/
theorem displaced_restarted : ∃ (s : AppState) (p : Mempool),
    p = s.mempool.perform plainCore (.restart node.chain) ∧
    p.len = 2 ∧ p.len ≤ maxMempoolSize ∧ (∀ a, p.pendingCount a ≤ maxPendingPerSender) ∧
      ∀ sig entry, p.entries.lookup sig = some entry → Lawful plainCore entry.tx ∧
        entry.tx.signature = sig ∧ ∀ height, entry.addedHeight + 59 ≤ height →
          height ≤ entry.addedHeight + 100 →
          isEligible entry height = true ∧ entry.unexpired height = true := by
  have hrun : (runEvents (fun s e => e.ForkReplays plainCore s) app
      [.relay smallPayment, .incoming (deliveryOf largeBlock),
        .incoming (deliveryOf bareBlock)]).map (fun s =>
          (s.mempool.perform plainCore (.restart node.chain)).len) = some 2 := by
    decide +kernel
  obtain ⟨s, hs, hlen⟩ := Option.map_eq_some_iff.mp hrun
  have hcomplete : Runs.Run (StepsCompletely plainCore)
      (AppState.fresh none Node.genesisPotAmount genesis)
      [.relay smallPayment, .incoming (deliveryOf largeBlock), .incoming (deliveryOf bareBlock)] s :=
    run_of_runEvents hs
  exact ⟨s, _, rfl, hlen,
    AppState.pool_of_run rfl (by decide) hcomplete (.inr ⟨node.chain, rfl⟩)⟩

/-- Two payments are pending above a block, and the miner finds a nonce at the second try. -/
theorem payments_mined : ∃ (s : AppState) (candidate b : Block),
    s.mempool.len = 2 ∧ s.node.chain.getHeight = 2 ∧
    assembleBlock plainCore (chainHeadHandler s.node.chain) (listMempoolHandler s.mempool) "miner"
      1748000120 24 = .ok (some candidate) ∧
    mine plainCore (chainHeadHandler s.node.chain).difficulty (fun _ => false) 1 0 candidate =
      .ok (some (b, 1)) ∧
    ∃ s', s.applyIncomingBlock plainCore (around 1748000160) b = .ok (.ok true, s') ∧
      s'.node.chain.getHeight = s.node.chain.getHeight + 1 ∧
      s'.node.chain.getLatestHash = b.hash ∧
      ∀ tx ∈ selectTransactions (listMempoolHandler s.mempool) s.node.chain.getHeight,
        tx.signature ∈ s'.node.chain.confirmedSignatures ∧
          s'.mempool.contains tx.signature = false := by
  have hrun : (runEvents (fun s e => e.ForkReplays plainCore s ∧ e.SparesPool plainCore s ∧
      e.SupplyFits plainCore none Node.genesisPotAmount genesis s ∧
      e.LeavesEnough plainCore none Node.genesisPotAmount genesis s) app
      [.relay smallPayment, .incoming (deliveryOf minedBlock), .relay largePayment]).map (fun s =>
        (s.mempool.len, s.node.chain.getHeight, decide (s.node.chain.totalSupply + 1 < 2 ^ 64),
          pastMedian s.node.chain.blocks 1748000120,
          (assembleBlock plainCore (chainHeadHandler s.node.chain) (listMempoolHandler s.mempool)
            "miner" 1748000120 24).toOption.join.map fun candidate =>
            (mine plainCore (chainHeadHandler s.node.chain).difficulty (fun _ => false) 1 0
              candidate).toOption.join.map fun r => r.2)) =
      some (2, 2, true, true, some (some 1)) := by
    decide +kernel
  obtain ⟨s, hs, hseen⟩ := Option.map_eq_some_iff.mp hrun
  simp only [Prod.mk.injEq, decide_eq_true_eq] at hseen
  obtain ⟨hlen, hheight, hsupply, hpast, hassembled⟩ := hseen
  obtain ⟨candidate, hcandidate, hmined⟩ := Option.map_eq_some_iff.mp hassembled
  obtain ⟨⟨b, tries⟩, hb, rfl⟩ := Option.map_eq_some_iff.mp hmined
  have hassemble := Fallible.toOption_eq_some.mp (Option.join_eq_some_iff.mp hcandidate)
  have hmine := Fallible.toOption_eq_some.mp (Option.join_eq_some_iff.mp hb)
  have hmineable : Runs.Run (StepsMineable plainCore none Node.genesisPotAmount genesis)
      (AppState.fresh none Node.genesisPotAmount genesis)
      [.relay smallPayment, .incoming (deliveryOf minedBlock), .relay largePayment] s :=
    run_of_runEvents hs
  exact ⟨s, candidate, b, hlen, hheight, hassemble, hmine,
    AppState.mined_of_run rfl (by decide) hmineable hsupply (by decide) hassemble hmine
      (by decide) hpast⟩

end Sample

end Lootcoin
