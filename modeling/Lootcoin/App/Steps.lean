import Lootcoin.App.Entry
import Lootcoin.App.Pool
import Lootcoin.Node.Branch

/-! The steps of chain and pool together.  A transaction is submitted or relayed, a block comes by
gossip or a request, or a synchronization applies a block.  What each does to the pool is said
once: it admits one transaction, or follows the outcome of a block, or changes nothing. -/

namespace Lootcoin

namespace AppState

inductive Event where
  | submit (req : SubmitTransactionRequest)
  | relay (tx : Transaction)
  | incoming (d : Node.Delivery)
  | sync (d : Node.Delivery)

/-- One step, where it returns. A handler that holds the lock of the chain runs to its end. -/
def Steps (core : Core) (s : AppState) : Event → AppState → Prop
  | .submit req, s' => s' = (s.submitTransactionHandler core req).2
  | .relay tx, s' => s' = (s.relayTxInner core tx).2
  | .incoming d, s' =>
    d.block.Fits ∧ ∃ answer, s.applyIncomingBlock core d.ambient d.block = .ok (answer, s')
  | .sync d, s' => d.block.Fits ∧ s.syncBlock core d.ambient d.block = .ok s'

/-- If the step brings a block that makes the node switch to a fork, that fork replays
completely. -/
def Event.ForkReplays (core : Core) (s : AppState) : Event → Prop
  | .incoming d | .sync d =>
    s.node.chain.ForkReplays core d.ambient d.block (some s.node.db.reader)
  | .submit _ | .relay _ => True

instance (core : Core) (s : AppState) : (e : Event) → Decidable (e.ForkReplays core s)
  | .incoming d | .sync d => inferInstanceAs (Decidable
      (s.node.chain.ForkReplays core d.ambient d.block (some s.node.db.reader)))
  | .submit _ | .relay _ => isTrue trivial

variable {core : Core} {ambient : Ambient} {s s' : AppState} {tx : Transaction} {b : Block}
  {req : SubmitTransactionRequest}

/-! ### Admission -/

/-- A transaction is admitted: what was checked, and the state with it in the pool. -/
structure Admits (core : Core) (s : AppState) (tx : Transaction) (s' : AppState) : Prop where
  distinct : tx.sender ≠ tx.receiver
  verified : core.verify tx = true
  receiver : isValidAddress core tx.receiver = true
  fee : minTxFee ≤ tx.fee
  unconfirmed : tx.signature ∉ s.node.chain.confirmedSignatures
  affordable : costOf tx ≤ s.node.chain.getBalance tx.sender - s.mempool.pendingDebit tx.sender
  fresh : s.mempool.contains tx.signature = false
  node : s'.node = s.node
  mempool : ∃ hc, s'.mempool = s.mempool.put core tx s.node.chain.getHeight hc

/-- The common end of both handlers. -/
theorem admits_of_addTransaction {pool : Mempool} {gossip : Gossip}
    (hdistinct : tx.sender ≠ tx.receiver) (hverify : core.verify tx = true)
    (hreceiver : isValidAddress core tx.receiver = true)
    (hvalid : s.node.chain.validateTransactionState tx = true)
    (hcost : ¬ s.node.chain.getBalance tx.sender - s.mempool.pendingDebit tx.sender < costOf tx)
    (hadd : s.mempool.addTransaction core tx s.node.chain.getHeight = (true, pool)) :
    Admits core s tx { s with mempool := pool, gossip := gossip } := by
  simp only [Blockchain.validateTransactionState, Bool.and_eq_true, decide_eq_true_eq] at hvalid
  obtain ⟨hfresh, -, -, hpool⟩ := Mempool.addTransaction_eq_true.mp hadd
  exact ⟨hdistinct, hverify, hreceiver, hvalid.1.1, hvalid.1.2, Nat.not_lt.mp hcost, hfresh, rfl,
    hpool⟩

theorem relayTxInner_cases :
    (s.relayTxInner core tx).2 = s ∨ Admits core s tx (s.relayTxInner core tx).2 := by
  unfold relayTxInner
  split
  · exact .inl rfl
  rename_i hdistinct
  split
  · exact .inl rfl
  rename_i hverify
  split
  · exact .inl rfl
  rename_i hreceiver
  split
  · exact .inl rfl
  rename_i hvalid
  simp only
  split
  · exact .inl rfl
  rename_i hcost
  split
  · rename_i pool hadd
    rw [Mempool.eq_of_addTransaction_false hadd]
    exact .inl rfl
  · rename_i pool hadd
    exact .inr (admits_of_addTransaction hdistinct (by simpa using hverify)
      (by simpa using hreceiver) (by simpa using hvalid) hcost hadd)

theorem submitTransactionHandler_cases : (s.submitTransactionHandler core req).2 = s ∨
    ∃ tx, Admits core s tx (s.submitTransactionHandler core req).2 := by
  unfold submitTransactionHandler
  split
  · exact .inl rfl
  rename_i hdistinct
  split
  · exact .inl rfl
  rename_i hreceiver
  split
  · exact .inl rfl
  split
  · exact .inl rfl
  split
  · exact .inl rfl
  split
  · exact .inl rfl
  simp only
  split
  · exact .inl rfl
  rename_i hverify
  split
  · exact .inl rfl
  rename_i hvalid
  split
  · exact .inl rfl
  rename_i hcost
  split
  · rename_i pool hadd
    rw [Mempool.eq_of_addTransaction_false hadd]
    exact .inl rfl
  · rename_i pool hadd
    exact .inr ⟨_, admits_of_addTransaction hdistinct (by simpa using hverify)
      (by simpa using hreceiver) (by simpa using hvalid) hcost hadd⟩

/-! ### Blocks -/

/-- The pool after the outcome of a block that came by gossip or a request. -/
def poolAfter (core : Core) (s : AppState) (b : Block) (node : Node) : BlockOutcome → Mempool
  | .applied => s.mempool.leftBy core [b] node.chain.getHeight
  | .reorged oldBlocks newBlocks =>
    (s.mempool.readdBlocks core node.chain.getBalance node.chain.getHeight oldBlocks).leftBy core
      newBlocks node.chain.getHeight
  | .orphaned | .rejected => s.mempool

theorem afterOutcome_mempool {node : Node} (outcome : BlockOutcome) :
    (s.afterOutcome core b node outcome).2.mempool = s.poolAfter core b node outcome := by
  cases outcome <;> rfl

theorem afterOutcome_node {node : Node} (outcome : BlockOutcome) :
    (s.afterOutcome core b node outcome).2.node = node := by
  cases outcome <;> rfl

/-- A block that came by gossip or a request fails a check and changes nothing, or the pool follows
the chain. -/
theorem applyIncomingBlock_cases {answer : Except String Bool}
    (h : s.applyIncomingBlock core ambient b = .ok (answer, s')) :
    incomingBlockError core b ≠ none ∧ s' = s ∨ incomingBlockError core b = none ∧
      ∃ outcome, s.node.applyBlock core ambient b = .ok (outcome, s'.node) ∧
        s'.mempool = s.poolAfter core b s'.node outcome := by
  rcases applyIncomingBlock_eq_ok.mp h with ⟨_, hmsg, -, rfl⟩ | ⟨hnone, outcome, node, happ, hafter⟩
  · exact .inl ⟨by simp [hmsg], rfl⟩
  · right
    obtain rfl : (s.afterOutcome core b node outcome).2 = s' := congrArg Prod.snd hafter
    rw [afterOutcome_node, afterOutcome_mempool]
    exact ⟨hnone, outcome, happ, rfl⟩

theorem syncBlock_cases (h : s.syncBlock core ambient b = .ok s') :
    ∃ outcome, s.node.applyBlock core ambient b = .ok (outcome, s'.node) ∧
      s'.mempool = s.mempool := by
  obtain ⟨⟨outcome, node⟩, happ, h⟩ := Fallible.bind_eq_ok.mp h
  obtain rfl := Fallible.pure_eq_ok.mp h
  exact ⟨outcome, happ, rfl⟩

/-! ### Steps -/

theorem Steps.submit (h : Steps core s (.submit req) s') : s' = s ∨ ∃ tx, Admits core s tx s' := by
  obtain rfl : s' = _ := h
  exact submitTransactionHandler_cases

theorem Steps.relay (h : Steps core s (.relay tx) s') : s' = s ∨ Admits core s tx s' := by
  obtain rfl : s' = _ := h
  exact relayTxInner_cases

/-- A step leaves the chain as it is, or delivers its block. -/
theorem Steps.node {e : Event} (h : Steps core s e s') : s'.node = s.node ∨
    ∃ d outcome, (e = .incoming d ∨ e = .sync d) ∧ d.block.Fits ∧
      s.node.applyBlock core d.ambient d.block = .ok (outcome, s'.node) := by
  cases e with
  | submit req =>
    rcases h.submit with rfl | ⟨tx, hadm⟩
    · exact .inl rfl
    · exact .inl hadm.node
  | relay tx =>
    rcases h.relay with rfl | hadm
    · exact .inl rfl
    · exact .inl hadm.node
  | incoming d =>
    obtain ⟨hfits, answer, happ⟩ := h
    rcases applyIncomingBlock_cases happ with ⟨-, rfl⟩ | ⟨-, outcome, happ, -⟩
    · exact .inl rfl
    · exact .inr ⟨d, outcome, .inl rfl, hfits, happ⟩
  | sync d =>
    obtain ⟨hfits, happ⟩ := h
    obtain ⟨outcome, happ, -⟩ := syncBlock_cases happ
    exact .inr ⟨d, outcome, .inr rfl, hfits, happ⟩

theorem Steps.consistent {env : Option ℚ} {pot : ℕ} {genesis : Block} {e : Event}
    (h : Steps core s e s') (hw : Node.Consistent core env pot genesis s.node)
    (hi : genesis.index = 0) (hpot : pot < 2 ^ 64) (hrep : e.ForkReplays core s) :
    Node.Consistent core env pot genesis s'.node := by
  rcases h.node with hsame | ⟨d, outcome, he, hfits, happ⟩
  · rwa [hsame]
  · refine hw.step hi hpot hfits (Node.effect_of_applyBlock happ) ?_
    rcases he with rfl | rfl
    · exact hrep
    · exact hrep

/-- The chain of a run of steps is that of a run of deliveries. -/
theorem node_run {es : List Event} (run : Runs.Run (Steps core) s es s') :
    ∃ ds, Runs.Run (Node.Delivers core) s.node ds s'.node := by
  induction run with
  | nil => exact ⟨[], .nil _⟩
  | cons h _ ih =>
    obtain ⟨ds, hrest⟩ := ih
    rcases h.node with hsame | ⟨d, outcome, -, hfits, happ⟩
    · exact ⟨ds, by rwa [hsame] at hrest⟩
    · exact ⟨d :: ds, .cons ⟨hfits, outcome, happ⟩ hrest⟩

end AppState

namespace Sample

open AppState

/-- One step, or nothing where it does not return or is none. -/
def stepEvent (s : AppState) : Event → Option AppState
  | .submit req => some (s.submitTransactionHandler plainCore req).2
  | .relay tx => some (s.relayTxInner plainCore tx).2
  | .incoming d =>
    if d.block.Fits then
      (s.applyIncomingBlock plainCore d.ambient d.block).toOption.map fun r => r.2
    else none
  | .sync d =>
    if d.block.Fits then (s.syncBlock plainCore d.ambient d.block).toOption else none

/-- The state after steps that pass a check, or nothing when one does not. -/
def runEvents (check : AppState → Event → Prop) [∀ s e, Decidable (check s e)] (s : AppState)
    (es : List Event) : Option AppState :=
  es.foldlM (fun s e => if check s e then stepEvent s e else none) s

theorem steps_of_stepEvent {s s' : AppState} {e : Event} (h : stepEvent s e = some s') :
    Steps plainCore s e s' := by
  cases e with
  | submit req => exact (Option.some.inj h).symm
  | relay tx => exact (Option.some.inj h).symm
  | incoming d =>
    obtain ⟨hfits, h⟩ := Option.ite_none_right_eq_some.mp h
    obtain ⟨⟨answer, s''⟩, happ, rfl⟩ := Fallible.exists_of_toOption_map h
    exact ⟨hfits, answer, happ⟩
  | sync d =>
    obtain ⟨hfits, h⟩ := Option.ite_none_right_eq_some.mp h
    exact ⟨hfits, Fallible.toOption_eq_some.mp h⟩

theorem run_of_runEvents {check : AppState → Event → Prop} [∀ s e, Decidable (check s e)]
    {s s' : AppState} {es : List Event} (h : runEvents check s es = some s') :
    Runs.Run (fun s e s' => Steps plainCore s e s' ∧ check s e) s es s' := by
  refine Runs.run_of_foldlM (fun {t e t'} ht => ?_) h
  obtain ⟨hcheck, ht⟩ := Option.ite_none_right_eq_some.mp ht
  exact ⟨steps_of_stepEvent ht, hcheck⟩

/-! Two payments out of the genesis balance, which covers both, and blocks on the genesis block: one
with the large payment, and two rivals with more work, one with the small payment and one without
any. -/

def smallPayment : Transaction := coins Node.genesisAddress "payee" 390000 10 11
def largePayment : Transaction := coins Node.genesisAddress "payee" 600000 10 12

def largeBlock : Block := blockOf [coins "" "miner" 1 0 1, largePayment] 1 [] 1748000060 32
def smallBlock : Block := blockOf [coins "" "rival" 1 0 2, smallPayment] 1 [] 1748000061 33
def bareBlock : Block := blockOf [coins "" "rival" 1 0 2] 1 [] 1748000061 33

def deliveryOf (b : Block) : Node.Delivery := ⟨b, around 1748000160⟩

end Sample

end Lootcoin
