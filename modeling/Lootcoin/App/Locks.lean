import Lootcoin.App.Steps
import Lootcoin.Library.Locks

/-! The handlers at the grain of their locks.  A handler takes the lock on the chain before that on
the pool and holds both until it is through with them.  However the handlers of many requests
interleave, none waits for ever, and what they answer and leave is what the same handlers would one
after another: so what holds of every run of the steps of chain and pool holds of the server. -/

namespace Lootcoin

namespace Concurrent

/-- What has a lock. -/
inductive Guarded where
  | chain
  | mempool
  deriving DecidableEq

namespace Guarded

abbrev Value : Guarded → Type
  | .chain => Node
  | .mempool => Mempool

def rank : Guarded → ℕ
  | .chain => 0
  | .mempool => 1

theorem rank_lt (l : Guarded) : l.rank < 2 := by
  cases l <;> decide

end Guarded

/-- What a handler answers, in the words of its kind. -/
inductive Answer where
  | submit (answer : Except HttpError SubmitTransactionResponse)
  | relay (accepted : Bool)
  | incoming (answer : Except String Bool)
  | sync (expected : ℕ) (accepted : Bool)

abbrev Task : Type := Locks.Prog Guarded Guarded.Value Answer

def relayTxInner (core : Core) (tx : Transaction) : Task :=
  if tx.sender = tx.receiver then .done (.relay false)
  else if !core.verify tx then .done (.relay false)
  else if !isValidAddress core tx.receiver then .done (.relay false)
  else
    .lock .chain .read <| .get .chain fun (node : Node) =>
    if !node.chain.validateTransactionState tx then .unlock .chain <| .done (.relay false)
    else
      .lock .mempool .write <| .get .mempool fun (pool : Mempool) =>
      let alreadyPending := pool.pendingDebit tx.sender
      if node.chain.getBalance tx.sender - alreadyPending < costOf tx then
        .unlock .mempool <| .unlock .chain <| .done (.relay false)
      else
        match pool.addTransaction core tx node.chain.getHeight with
        | (accepted, (pool : Mempool)) =>
          .set .mempool pool <| .unlock .mempool <| .unlock .chain <| .done (.relay accepted)

def submitTransactionHandler (core : Core) (req : SubmitTransactionRequest) : Task :=
  if req.sender = req.receiver then
    .done (.submit (.error (badRequest "the receiver must be different from the sender")))
  else if !isValidAddress core req.receiver then
    .done (.submit (.error (badRequest "invalid receiver address")))
  else
    match fromHex req.publicKeyHex with
    | none => .done (.submit (.error (badRequest "invalid public_key_hex")))
    | some publicKey =>
      if publicKey.length ≠ 32 then
        .done (.submit (.error (badRequest "public_key must be 32 bytes")))
      else
        match fromHex req.signatureHex with
        | none => .done (.submit (.error (badRequest "invalid signature_hex")))
        | some signature =>
          if signature.length ≠ 64 then
            .done (.submit (.error (badRequest "signature_hex must be 64 bytes")))
          else
            let tx : Transaction := {
              sender := req.sender
              receiver := req.receiver
              amount := req.amount
              fee := req.fee
              nonce := req.nonce
              publicKey := publicKey
              signature := signature }
            if !core.verify tx then .done (.submit (.error (badRequest "invalid signature")))
            else
              .lock .chain .read <| .get .chain fun (node : Node) =>
              if !node.chain.validateTransactionState tx then
                .unlock .chain <|
                .done (.submit (.error (badRequest "transaction not valid (balance or fee)")))
              else
                .lock .mempool .write <| .get .mempool fun (pool : Mempool) =>
                let alreadyPending := pool.pendingDebit tx.sender
                if node.chain.getBalance tx.sender - alreadyPending < costOf tx then
                  .unlock .mempool <| .unlock .chain <|
                  .done (.submit (.error (badRequest "transaction not valid (balance or fee)")))
                else
                  match pool.addTransaction core tx node.chain.getHeight with
                  | (false, (pool : Mempool)) =>
                    .set .mempool pool <| .unlock .mempool <| .unlock .chain <|
                    .done (.submit (.error (serviceUnavailable "mempool full")))
                  | (true, (pool : Mempool)) =>
                    .set .mempool pool <| .unlock .mempool <| .unlock .chain <|
                    .done (.submit
                      (.ok ⟨hexEncode (core.txid tx), tx.sender, tx.receiver, tx.amount, tx.fee⟩))

/-- The rest of a handler that has applied a block to the chain. -/
def afterOutcome (core : Core) (b : Block) (node : Node) : BlockOutcome → Task
  | .applied =>
    .lock .mempool .write <| .get .mempool fun (pool : Mempool) =>
    let pool := pool.removeIncluded core b.transactions
    .set .mempool (pool.evictExpired core node.chain.getHeight) <|
    .unlock .mempool <| .unlock .chain <| .done (.incoming (.ok true))
  | .reorged oldBlocks newBlocks =>
    .lock .mempool .write <| .get .mempool fun (pool : Mempool) =>
    let height := node.chain.getHeight
    let pool := pool.readdBlocks core node.chain.getBalance height oldBlocks
    let pool := pool.removeBlocks core newBlocks
    .set .mempool (pool.evictExpired core height) <|
    .unlock .mempool <| .unlock .chain <| .done (.incoming (.ok true))
  | .orphaned => .unlock .chain <| .done (.incoming (.ok false))
  | .rejected => .unlock .chain <| .done (.incoming (.error "block rejected"))

/-- A block at which the chain panics takes the handler no further. -/
def applyIncomingBlock (core : Core) (ambient : Ambient) (b : Block) : Task :=
  match incomingBlockError core b with
  | some message => .done (.incoming (.error message))
  | none =>
    .lock .chain .write <| .get .chain fun (node : Node) =>
    match node.applyBlock core ambient b with
    | .error _ => .fail
    | .ok (outcome, (node : Node)) => .set .chain node <| afterOutcome core b node outcome

def syncBlock (core : Core) (ambient : Ambient) (b : Block) : Task :=
  .lock .chain .write <| .get .chain fun (node : Node) =>
  match node.applyBlock core ambient b with
  | .error _ => .fail
  | .ok (_, (node' : Node)) =>
    .set .chain node' <| .unlock .chain <|
    .done (.sync node.chain.getHeight (decide (node.chain.getHeight < node'.chain.getHeight)))

/-- The handler of what comes in. -/
def handler (core : Core) : AppState.Event → Task
  | .submit req => submitTransactionHandler core req
  | .relay tx => relayTxInner core tx
  | .incoming d => applyIncomingBlock core d.ambient d.block
  | .sync d => syncBlock core d.ambient d.block

open Locks Locks.Prog

variable {core : Core} {ambient : Ambient} {s s' : AppState} {tx : Transaction} {b : Block}
  {req : SubmitTransactionRequest} {e : AppState.Event} {answer : Answer}

/-! ### The two phases -/

/-- A handler that holds `held` keeps to two phases and takes at most `n` steps more. -/
def Keeps (held : List (Guarded × Mode)) (n : ℕ) (p : Task) : Prop :=
  TwoPhase Guarded.rank held p ∧ p.Within n

variable {mode : Mode} {n : ℕ}

theorem keeps_done : Keeps [] n (.done answer) := ⟨rfl, trivial⟩

theorem keeps_unlockChain : Keeps [(.chain, mode)] (n + 1) (.unlock .chain (.done answer)) :=
  ⟨⟨⟨mode, by simp⟩, by simp [Closing]⟩, by simp, trivial⟩

theorem keeps_unlockBoth : Keeps [(.mempool, .write), (.chain, mode)] (n + 2)
    (.unlock .mempool (.unlock .chain (.done answer))) :=
  ⟨⟨⟨.write, by simp⟩, ⟨mode, by simp⟩, by simp [Closing]⟩, by simp, by simp, trivial⟩

theorem keeps_setMempool {pool : Mempool} : Keeps [(.mempool, .write), (.chain, mode)] (n + 3)
    (.set .mempool pool (.unlock .mempool (.unlock .chain (.done answer)))) :=
  have h : Keeps [(.mempool, .write), (.chain, mode)] (n + 2)
      (.unlock .mempool (.unlock .chain (.done answer))) := keeps_unlockBoth
  ⟨⟨by simp, h.1⟩, by simp, h.2⟩

/-- Who holds the chain may take the pool. -/
theorem keeps_lockMempool {next : Mempool → Task}
    (h : ∀ pool, Keeps [(.mempool, .write), (.chain, mode)] n (next pool)) :
    Keeps [(.chain, mode)] (n + 2) (.lock .mempool .write (.get .mempool next)) :=
  ⟨⟨by simp [Guarded.rank], ⟨.write, by simp⟩, fun pool => (h pool).1⟩,
    by simp, by simp, fun pool => (h pool).2⟩

theorem keeps_lockChain {next : Node → Task} (h : ∀ node, Keeps [(.chain, mode)] n (next node)) :
    Keeps [] (n + 2) (.lock .chain mode (.get .chain next)) :=
  ⟨⟨by simp, ⟨mode, by simp⟩, fun node => (h node).1⟩, by simp, by simp, fun node => (h node).2⟩

theorem relayTxInner_keeps : Keeps [] 8 (relayTxInner core tx) := by
  unfold relayTxInner
  split
  · exact keeps_done
  split
  · exact keeps_done
  split
  · exact keeps_done
  refine keeps_lockChain fun node => ?_
  split
  · exact keeps_unlockChain
  refine keeps_lockMempool fun pool => ?_
  simp only
  split
  · exact keeps_unlockBoth
  · exact keeps_setMempool

theorem submitTransactionHandler_keeps : Keeps [] 8 (submitTransactionHandler core req) := by
  unfold submitTransactionHandler
  split
  · exact keeps_done
  split
  · exact keeps_done
  split
  · exact keeps_done
  split
  · exact keeps_done
  split
  · exact keeps_done
  split
  · exact keeps_done
  simp only
  split
  · exact keeps_done
  refine keeps_lockChain fun node => ?_
  split
  · exact keeps_unlockChain
  refine keeps_lockMempool fun pool => ?_
  split
  · exact keeps_unlockBoth
  split
  · exact keeps_setMempool
  · exact keeps_setMempool

theorem afterOutcome_keeps {node : Node} (outcome : BlockOutcome) :
    Keeps [(.chain, mode)] 5 (afterOutcome core b node outcome) := by
  cases outcome with
  | applied => exact keeps_lockMempool fun _ => keeps_setMempool
  | reorged _ _ => exact keeps_lockMempool fun _ => keeps_setMempool
  | orphaned => exact keeps_unlockChain
  | rejected => exact keeps_unlockChain

/-- Who writes the chain goes on as one that holds it. -/
theorem keeps_setChain {node : Node} {next : Task} (h : Keeps [(.chain, .write)] n next) :
    Keeps [(.chain, .write)] (n + 1) (.set .chain node next) :=
  ⟨⟨by simp, h.1⟩, by simp, h.2⟩

theorem applyIncomingBlock_keeps : Keeps [] 8 (applyIncomingBlock core ambient b) := by
  unfold applyIncomingBlock
  split
  · exact keeps_done
  refine keeps_lockChain fun node => ?_
  split
  · exact ⟨trivial, trivial⟩
  · exact keeps_setChain (afterOutcome_keeps _)

theorem syncBlock_keeps : Keeps [] 8 (syncBlock core ambient b) := by
  refine keeps_lockChain fun node => ?_
  split
  · exact ⟨trivial, trivial⟩
  · exact keeps_setChain keeps_unlockChain

theorem handler_keeps (e : AppState.Event) : Keeps [] 8 (handler core e) := by
  cases e with
  | submit => exact submitTransactionHandler_keeps
  | relay => exact relayTxInner_keeps
  | incoming => exact applyIncomingBlock_keeps
  | sync => exact syncBlock_keeps

/-! ### A handler alone -/

/-- The chain and the pool, under their locks. -/
def guarded (s : AppState) : ∀ l, Guarded.Value l
  | .chain => s.node
  | .mempool => s.mempool

/-- The numbers of a block that comes in fit their types. -/
def Fits : AppState.Event → Prop
  | .submit _ | .relay _ => True
  | .incoming d | .sync d => d.block.Fits

/-- What a step of chain and pool answers, where it returns. -/
def answerOf (core : Core) (s : AppState) : AppState.Event → Option Answer
  | .submit req => some (.submit (s.submitTransactionHandler core req).1)
  | .relay tx => some (.relay (s.relayTxInner core tx).1)
  | .incoming d =>
    (s.applyIncomingBlock core d.ambient d.block).toOption.map fun r => .incoming r.1
  | .sync d => (s.syncBlock core d.ambient d.block).toOption.map fun s' =>
    .sync s.node.chain.getHeight (decide (s.node.chain.getHeight < s'.node.chain.getHeight))

theorem update_mempool (s : AppState) (pool : Mempool) (gossip : Gossip) :
    Function.update (guarded s) .mempool pool =
      guarded { s with mempool := pool, gossip := gossip } := by
  funext l
  cases l <;> rfl

theorem update_chain (s : AppState) (node : Node) :
    Function.update (guarded s) .chain node = guarded { s with node := node } := by
  funext l
  cases l <;> rfl

theorem exec_lockChain {mode : Mode} {next : Node → Task} :
    Prog.exec (.lock .chain mode (.get .chain next)) (guarded s) =
      (next s.node).exec (guarded s) := rfl

theorem exec_lockMempool {next : Mempool → Task} :
    Prog.exec (.lock .mempool .write (.get .mempool next)) (guarded s) =
      (next s.mempool).exec (guarded s) := rfl

theorem exec_setMempool {pool : Mempool} (gossip : Gossip) :
    Prog.exec (.set .mempool pool (.unlock .mempool (.unlock .chain (.done answer)))) (guarded s) =
      some (answer, guarded { s with mempool := pool, gossip := gossip }) := by
  rw [← update_mempool s pool gossip]
  rfl

theorem exec_relayTxInner : (relayTxInner core tx).exec (guarded s) =
    some (.relay (s.relayTxInner core tx).1, guarded (s.relayTxInner core tx).2) := by
  unfold relayTxInner AppState.relayTxInner
  split
  · rfl
  split
  · rfl
  split
  · rfl
  rw [exec_lockChain]
  split
  · rfl
  rw [exec_lockMempool]
  simp only
  split
  · rfl
  rw [exec_setMempool s.gossip]
  rcases s.mempool.addTransaction core tx s.node.chain.getHeight with ⟨_ | _, pool⟩ <;> rfl

theorem exec_submitTransactionHandler : (submitTransactionHandler core req).exec (guarded s) =
    some (.submit (s.submitTransactionHandler core req).1,
      guarded (s.submitTransactionHandler core req).2) := by
  unfold submitTransactionHandler AppState.submitTransactionHandler
  split
  · rfl
  split
  · rfl
  rcases fromHex req.publicKeyHex with _ | publicKey
  · rfl
  simp only
  split
  · rfl
  rcases fromHex req.signatureHex with _ | signature
  · rfl
  simp only
  split
  · rfl
  split
  · rfl
  rw [exec_lockChain]
  split
  · rfl
  rw [exec_lockMempool]
  split
  · rfl
  rcases s.mempool.addTransaction core _ s.node.chain.getHeight with ⟨_ | _, pool⟩
  · exact exec_setMempool s.gossip
  · exact exec_setMempool _

theorem exec_afterOutcome {node : Node} (outcome : BlockOutcome) :
    (afterOutcome core b node outcome).exec (guarded { s with node := node }) =
      some (.incoming (s.afterOutcome core b node outcome).1,
        guarded (s.afterOutcome core b node outcome).2) := by
  cases outcome with
  | applied => exact exec_setMempool (s := { s with node := node }) (s.gossip.announce b)
  | reorged _ _ => exact exec_setMempool (s := { s with node := node }) (s.gossip.announce b)
  | orphaned => rfl
  | rejected => rfl

theorem exec_applyIncomingBlock : (applyIncomingBlock core ambient b).exec (guarded s) =
    (s.applyIncomingBlock core ambient b).toOption.map fun r => (.incoming r.1, guarded r.2) := by
  unfold applyIncomingBlock AppState.applyIncomingBlock
  rcases incomingBlockError core b with _ | message
  swap
  · rfl
  simp only
  rw [exec_lockChain]
  rcases s.node.applyBlock core ambient b with fault | ⟨outcome, node⟩
  · rfl
  · rw [exec, update_chain]
    exact exec_afterOutcome outcome

theorem exec_syncBlock : (syncBlock core ambient b).exec (guarded s) =
    (s.syncBlock core ambient b).toOption.map fun s' =>
      (.sync s.node.chain.getHeight (decide (s.node.chain.getHeight < s'.node.chain.getHeight)),
        guarded s') := by
  unfold syncBlock AppState.syncBlock
  rw [exec_lockChain]
  rcases s.node.applyBlock core ambient b with fault | ⟨outcome, node⟩
  · rfl
  · rw [exec, update_chain]
    rfl

/-- The state that a handler leaves that runs alone is that of a step. -/
theorem steps_of_exec {data : ∀ l, Guarded.Value l} (hfits : Fits e)
    (h : (handler core e).exec (guarded s) = some (answer, data)) :
    answerOf core s e = some answer ∧ ∃ s', AppState.Steps core s e s' ∧ guarded s' = data := by
  cases e with
  | submit req =>
    rw [handler, exec_submitTransactionHandler] at h
    cases h
    exact ⟨rfl, _, rfl, rfl⟩
  | relay tx =>
    rw [handler, exec_relayTxInner] at h
    cases h
    exact ⟨rfl, _, rfl, rfl⟩
  | incoming d =>
    rw [handler, exec_applyIncomingBlock] at h
    obtain ⟨⟨answer', s'⟩, happ, heq⟩ := Fallible.exists_of_toOption_map h
    cases heq
    refine ⟨by rw [answerOf, happ]; rfl, s', ⟨hfits, answer', happ⟩, rfl⟩
  | sync d =>
    rw [handler, exec_syncBlock] at h
    obtain ⟨s', happ, heq⟩ := Fallible.exists_of_toOption_map h
    cases heq
    refine ⟨by rw [answerOf, happ]; rfl, s', ⟨hfits, happ⟩, rfl⟩

/-! ### Handlers at once -/

/-- A server that handles requests. -/
abbrev Server (ι : Type*) : Type _ := State ι Guarded Guarded.Value Answer

/-- Nobody writes the chain or the pool. -/
def Unwritten {ι : Type*} (t : Server ι) : Prop :=
  ∀ i l, (l, .write) ∉ t.held i

/-- The handlers of some of the requests `es`, one after another, with their answers. -/
def Answers {ι : Type*} (core : Core) (es : ι → AppState.Event) (s : AppState) (c : ι × Answer)
    (s' : AppState) : Prop :=
  AppState.Steps core s (es c.1) s' ∧ answerOf core s (es c.1) = some c.2

variable {ι : Type*} [DecidableEq ι] [Fintype ι] {es : ι → AppState.Event}

omit [DecidableEq ι] [Fintype ι] in
/-- Programs that ran alone, one after another, are steps of chain and pool. -/
theorem answers_of_run (hfits : ∀ i, Fits (es i)) {order : List (ι × Answer)}
    {data : ∀ l, Guarded.Value l}
    (run : Runs.Run (Commits fun i => handler core (es i)) (guarded s) order data) :
    ∃ s', Runs.Run (Answers core es) s order s' ∧ guarded s' = data := by
  generalize hstart : guarded s = start at run
  induction run generalizing s with
  | nil => exact ⟨s, .nil s, hstart⟩
  | cons h _ ih =>
    subst hstart
    obtain ⟨hanswer, s₁, hstep, hs₁⟩ := steps_of_exec (hfits _) h
    obtain ⟨s', hrun, hs'⟩ := ih hs₁
    exact ⟨s', .cons ⟨hstep, hanswer⟩ hrun, hs'⟩

/-- However the handlers of a finite number of requests interleave, they answer as if one after
another, and leave the chain and the pool, wherever nobody writes them, as the steps do that they
take so. A handler that had done with both when another had still to do with them comes before it in
that order. -/
theorem serial_of_interleaving (hfits : ∀ i, Fits (es i)) {is js : List ι}
    {t u : Server ι}
    (run : Runs.Run Locks.Steps (State.start (fun i => handler core (es i)) (guarded s)) is t)
    (run' : Runs.Run Locks.Steps t js u) :
    ∃ order later s₁ s₂, Runs.Run (Answers core es) s order s₁ ∧
      Runs.Run (Answers core es) s₁ later s₂ ∧ ((order ++ later).map Prod.fst).Nodup ∧
      (∀ i answer, (i, answer) ∈ order ↔ (t.todo i).settled = some answer) ∧
      (∀ i answer, (i, answer) ∈ order ++ later ↔ (u.todo i).settled = some answer) ∧
      (Unwritten t → t.data .chain = s₁.node ∧ t.data .mempool = s₁.mempool) ∧
      (Unwritten u → u.data .chain = s₂.node ∧ u.data .mempool = s₂.mempool) := by
  obtain ⟨order, later, S₁, S₂, h₁, h₂, hset₁, hset₂⟩ :=
    serial_of_run (fun i => (handler_keeps (es i)).1) run run'
  obtain ⟨s₁, hrun₁, rfl⟩ := answers_of_run hfits h₁.run
  obtain ⟨S, hrun, hlater⟩ := h₂.run.split
  obtain rfl : S = guarded s₁ := hrun.unique h₁.run fun h h' =>
    congrArg Prod.snd (Option.some.inj (h.symm.trans h'))
  obtain ⟨s₂, hrun₂, rfl⟩ := answers_of_run hfits hlater
  exact ⟨order, later, s₁, s₂, hrun₁, hrun₂, h₂.nodup, hset₁, hset₂,
    fun h => ⟨h₁.data _ fun i hi => absurd hi (h i _), h₁.data _ fun i hi => absurd hi (h i _)⟩,
    fun h => ⟨h₂.data _ fun i hi => absurd hi (h i _), h₂.data _ fun i hi => absurd hi (h i _)⟩⟩

/-- No interleaving of the handlers of a finite number of requests is longer than sixteen steps for
each, and each can go on until every handler has answered or a block has made the chain panic. -/
theorem answered_of_interleaving (es : ι → AppState.Event) {is : List ι} {t : Server ι}
    (run : Runs.Run Locks.Steps (State.start (fun i => handler core (es i)) (guarded s)) is t) :
    is.length ≤ 16 * Fintype.card ι ∧ ∃ js u, Runs.Run Locks.Steps t js u ∧
      ((∀ i, ∃ answer, u.todo i = .done answer) ∨ ∃ i, u.todo i = .fail) := by
  obtain ⟨hlen, hend⟩ := finishes_of_run (fun i => (handler_keeps (es i)).1) Guarded.rank_lt
    (fun i => (handler_keeps (es i)).2) run
  refine ⟨?_, hend⟩
  rw [Finset.sum_const, Finset.card_univ, nsmul_eq_mul, Nat.cast_id] at hlen
  omega

end Concurrent

namespace Sample

open Concurrent

/-- Two payments are relayed while a block comes in. -/
def requests : Fin 3 → AppState.Event
  | 0 => .relay smallPayment
  | 1 => .relay largePayment
  | 2 => .incoming (deliveryOf bareBlock)

def requestsStart : Server (Fin 3) :=
  .start (fun i => handler plainCore (requests i)) (guarded app)

theorem requests_fit : ∀ i, Fits (requests i)
  | 0 => trivial
  | 1 => trivial
  | 2 => show bareBlock.Fits by decide

/-- Both payments are read against the chain, the block has to wait, and the second payment reaches
the pool first. -/
def payments : List (Fin 3) := [0, 1, 0, 1, 2, 0, 1, 1, 0, 1, 1, 1, 1, 0, 0, 0, 0, 1, 0]

/-- The block follows. -/
def thenBlock : List (Fin 3) := [2, 2, 2, 2, 2, 2, 2, 2, 2]

def runSchedule (s : Server (Fin 3)) (is : List (Fin 3)) :
    Option (Server (Fin 3)) :=
  is.foldlM (fun s i => s.step i) s

def accepted : Task → Bool
  | .done (.relay accepted) => accepted
  | .done (.incoming (.ok taken)) => taken
  | _ => false

theorem run_of_runSchedule {s t : Server (Fin 3)}
    {is : List (Fin 3)} (h : runSchedule s is = some t) : Runs.Run Locks.Steps s is t :=
  Runs.run_of_foldlM Locks.steps_of_step h

theorem payments_pass : (runSchedule requestsStart payments).map (fun t =>
    (accepted (t.todo 0), accepted (t.todo 1), accepted (t.todo 2),
      decide (∀ i, t.held i = []))) = some (true, true, false, true) := by
  decide +kernel

theorem thenBlock_passes : (runSchedule requestsStart (payments ++ thenBlock)).map (fun u =>
    (accepted (u.todo 0), accepted (u.todo 1), accepted (u.todo 2),
      decide (∀ i, u.held i = []))) = some (true, true, true, true) := by
  decide +kernel

theorem unwritten_of_held {t : Server (Fin 3)}
    (h : ∀ i, t.held i = []) : Unwritten t := by
  intro i l hl
  rw [h i] at hl
  cases hl

/-- The payments have gone into the pool and then the block has come in. -/
theorem payments_before_block : ∃ (t u : Server (Fin 3)) (order later : List (Fin 3 × Answer))
    (s₁ s₂ : AppState),
    accepted (t.todo 0) = true ∧ accepted (t.todo 1) = true ∧ accepted (u.todo 2) = true ∧
      Runs.Run (Answers plainCore requests) app order s₁ ∧
      Runs.Run (Answers plainCore requests) s₁ later s₂ ∧
      ((order ++ later).map Prod.fst).Nodup ∧
      (∀ i answer, (i, answer) ∈ order ↔ (t.todo i).settled = some answer) ∧
      (∀ i answer, (i, answer) ∈ order ++ later ↔ (u.todo i).settled = some answer) ∧
      t.data .mempool = s₁.mempool ∧ u.data .chain = s₂.node ∧ u.data .mempool = s₂.mempool := by
  obtain ⟨t, ht, hseen⟩ := Option.map_eq_some_iff.mp payments_pass
  have hu := thenBlock_passes
  rw [runSchedule, List.foldlM_append, ← runSchedule, ht] at hu
  obtain ⟨u, hu, hseen'⟩ := Option.map_eq_some_iff.mp hu
  simp only [Prod.mk.injEq, decide_eq_true_eq] at hseen hseen'
  obtain ⟨order, later, s₁, s₂, hrun₁, hrun₂, hnodup, hset₁, hset₂, hdata₁, hdata₂⟩ :=
    serial_of_interleaving (s := app) requests_fit
      (run_of_runSchedule ht) (run_of_runSchedule hu)
  obtain ⟨-, hpool⟩ := hdata₁ (unwritten_of_held hseen.2.2.2)
  obtain ⟨hchain, hpool'⟩ := hdata₂ (unwritten_of_held hseen'.2.2.2)
  exact ⟨t, u, order, later, s₁, s₂, hseen.1, hseen.2.1, hseen'.2.2.1, hrun₁, hrun₂, hnodup, hset₁,
    hset₂, hpool, hchain, hpool'⟩

/-- When the payments are in the pool, the block is all that is left. -/
theorem payments_answered : ∃ t : Server (Fin 3),
    accepted (t.todo 0) = true ∧ accepted (t.todo 1) = true ∧
    payments.length ≤ 16 * Fintype.card (Fin 3) ∧ ∃ js u, Runs.Run Locks.Steps t js u ∧
      ((∀ i, ∃ answer, u.todo i = .done answer) ∨ ∃ i, u.todo i = .fail) := by
  obtain ⟨t, ht, hseen⟩ := Option.map_eq_some_iff.mp payments_pass
  simp only [Prod.mk.injEq] at hseen
  exact ⟨t, hseen.1, hseen.2.1,
    answered_of_interleaving (s := app) requests (run_of_runSchedule ht)⟩

end Sample

end Lootcoin
