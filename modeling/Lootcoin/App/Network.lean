import Mathlib.Algebra.Group.Action.Defs
import Mathlib.Algebra.Order.BigOperators.Group.Finset
import Lootcoin.App.Mined
import Lootcoin.Gossip.Seen
import Lootcoin.Library.Flood

/-! Nodes that follow each other's event streams.  What a node publishes, its channel keeps for each
subscriber, up to a number of events behind which the oldest are lost; from there it goes on its way
in the subscriber's stream, and the subscriber handles it and may publish it in turn.  Transactions
that all nodes can take flood the network: whatever the order of the steps, none is lost. -/

namespace Lootcoin

theorem SeenCache.set_insert_subset (cache : SeenCache) (key : Bytes) :
    (cache.insert key).2.set ⊆ Insert.insert key cache.set := by
  unfold SeenCache.insert
  split
  · exact Finset.subset_insert _ _
  · refine Finset.insert_subset_insert _ ?_
    split
    · unfold SeenCache.evictOldest
      split
      · exact Finset.Subset.refl _
      · exact Finset.erase_subset _ _
    · exact Finset.Subset.refl _

/-- What was not seen is sent, and is the only new thing that is seen. -/
theorem Gossip.publishTransaction_new {core : Core} {g : Gossip} {tx : Transaction}
    (h : core.txid tx ∉ g.seenTxs.set) :
    (g.publishTransaction core tx).2.events = g.events ++ [.transaction tx] ∧
      (g.publishTransaction core tx).2.seenTxs.set ⊆
        Insert.insert (core.txid tx) g.seenTxs.set := by
  have hset := g.seenTxs.set_insert_subset (core.txid tx)
  have hnew : (g.seenTxs.insert (core.txid tx)).1 = true :=
    Bool.eq_true_of_not_eq_false fun hfalse => h (SeenCache.insert_eq_false.mp hfalse)
  unfold Gossip.publishTransaction
  split
  · rename_i seen heq
    rw [heq] at hnew
    cases hnew
  · rename_i seen heq
    rw [heq] at hset
    exact ⟨rfl, hset⟩

namespace AppState

/-- Handles an event of a peer's stream. What becomes of it is not reported to anyone. -/
def handlePeerEvent (core : Core) (ambient : Ambient) (s : AppState) :
    NodeEvent → Except Fault AppState
  | .block b => do
    let (_, s') ← s.applyIncomingBlock core ambient b
    return s'
  | .transaction tx => .ok (s.relayTxInner core tx).2

end AppState

/-- The transaction that a request spells, where it decodes. -/
def SubmitTransactionRequest.transaction (req : SubmitTransactionRequest) : Option Transaction :=
  match fromHex req.publicKeyHex, fromHex req.signatureHex with
  | some publicKey, some signature =>
    if publicKey.length = 32 ∧ signature.length = 64 then
      some {
        sender := req.sender
        receiver := req.receiver
        amount := req.amount
        fee := req.fee
        nonce := req.nonce
        publicKey := publicKey
        signature := signature }
    else none
  | _, _ => none

namespace AppState

/-- The transaction that comes with a step, if it is about one. -/
def Event.transaction : Event → Option Transaction
  | .submit req => req.transaction
  | .relay tx => some tx
  | .incoming _ | .sync _ => none

variable {core : Core} {s s' : AppState} {tx : Transaction} {txs : List Transaction}
  {req : SubmitTransactionRequest} {e : Event}

/-! ### Both ways into a pool -/

/-- A submission leaves what a relay of the same transaction leaves. -/
theorem submitTransactionHandler_eq (h : req.transaction = some tx) :
    (s.submitTransactionHandler core req).2 = (s.relayTxInner core tx).2 := by
  unfold SubmitTransactionRequest.transaction at h
  split at h
  case h_2 => cases h
  rename_i publicKey signature hkey hsig
  obtain ⟨⟨hkeyLength, hsigLength⟩, htx⟩ := Option.ite_none_right_eq_some.mp h
  cases htx
  unfold submitTransactionHandler relayTxInner
  simp only [hkey, hsig, hkeyLength, hsigLength, ne_eq, not_true_eq_false, if_false]
  split
  · rfl
  -- The receiver is checked first here and after the signature there.
  cases hreceiver : isValidAddress core req.receiver with
  | true =>
    simp only [Bool.not_true, Bool.false_eq_true, if_false]
    repeat' split
    all_goals rfl
  | false =>
    simp only [Bool.not_false, if_true]
    split <;> rfl

/-- A transaction that the rules refuse, the node refuses. -/
theorem relayTxInner_of_not_lawful (h : ¬ Lawful core tx) : (s.relayTxInner core tx).2 = s := by
  have hcases : (s.relayTxInner core tx).2 = s ∨ Admits core s tx _ := relayTxInner_cases
  rcases hcases with hs | hadmits
  · exact hs
  · exact absurd ⟨hadmits.verified, hadmits.fee, hadmits.receiver⟩ h

/-- A transaction that is pending is not taken again. -/
theorem relayTxInner_of_pending (h : s.mempool.contains tx.signature = true) :
    (s.relayTxInner core tx).2 = s := by
  have hcases : (s.relayTxInner core tx).2 = s ∨ Admits core s tx _ := relayTxInner_cases
  rcases hcases with hs | hadmits
  · exact hs
  · rw [hadmits.fresh] at h
    cases h

/-- A request that does not decode is refused. -/
theorem submitTransactionHandler_of_none (h : req.transaction = none) :
    (s.submitTransactionHandler core req).2 = s := by
  unfold SubmitTransactionRequest.transaction at h
  unfold submitTransactionHandler
  split
  · rfl
  split
  · rfl
  cases hkey : fromHex req.publicKeyHex with
  | none => rfl
  | some publicKey =>
    cases hsig : fromHex req.signatureHex with
    | none =>
      simp only
      split <;> rfl
    | some signature =>
      simp only [hkey, hsig, ite_eq_right_iff, reduceCtorEq, imp_false, not_and] at h
      simp only
      split
      · rfl
      · rename_i hlength
        rw [if_pos (h (not_not.mp hlength))]

/-- The step is about one of the transactions, about one that the rules refuse, or about a request
that does not decode. -/
def Event.OnlyBrings (core : Core) (txs : List Transaction) : Event → Prop
  | .submit req => ∀ tx, req.transaction = some tx → tx ∈ txs ∨ ¬ Lawful core tx
  | .relay tx => tx ∈ txs ∨ ¬ Lawful core tx
  | .incoming _ | .sync _ => False

/-- What such a step does is what a relay does, or nothing. -/
theorem Steps.relays (h : Steps core s e s') (he : e.OnlyBrings core txs) :
    (∃ tx ∈ txs, e.transaction = some tx ∧ s' = (s.relayTxInner core tx).2) ∨
      (∀ tx ∈ txs, e.transaction ≠ some tx) ∧ s' = s := by
  have hrelay : ∀ {tx}, e.transaction = some tx → tx ∈ txs ∨ ¬ Lawful core tx →
      s' = (s.relayTxInner core tx).2 →
      (∃ tx ∈ txs, e.transaction = some tx ∧ s' = (s.relayTxInner core tx).2) ∨
        (∀ tx ∈ txs, e.transaction ≠ some tx) ∧ s' = s := by
    intro tx htx hbrings hs'
    by_cases hmem : tx ∈ txs
    · exact .inl ⟨tx, hmem, htx, hs'⟩
    · refine .inr ⟨fun tx' htx' heq => ?_, ?_⟩
      · rw [htx, Option.some.injEq] at heq
        exact hmem (heq ▸ htx')
      · exact hs'.trans (relayTxInner_of_not_lawful (hbrings.resolve_left hmem))
  cases e with
  | submit req =>
    cases htx : req.transaction with
    | none =>
      refine .inr ⟨fun tx _ heq => ?_, h.trans (submitTransactionHandler_of_none htx)⟩
      rw [Event.transaction, htx] at heq
      cases heq
    | some tx => exact hrelay htx (he tx htx) (h.trans (submitTransactionHandler_eq htx))
  | relay tx => exact hrelay rfl he h
  | incoming d => exact he.elim
  | sync d => exact he.elim

/-! ### Room for many -/

/-- A node can take all of the transfers, in any order: none is known to it, and it has the room and
their senders have the coins for all of them. -/
structure Takes (core : Core) (s : AppState) (txs : List Transaction) : Prop where
  lawful : ∀ tx ∈ txs, Lawful core tx
  distinct : ∀ tx ∈ txs, tx.sender ≠ tx.receiver
  transfer : ∀ tx ∈ txs, tx.isCoinbase = false
  unconfirmed : ∀ tx ∈ txs, tx.signature ∉ s.node.chain.confirmedSignatures
  fresh : ∀ tx ∈ txs, s.mempool.contains tx.signature = false
  unseen : ∀ tx ∈ txs, core.txid tx ∉ s.gossip.seenTxs.set
  signatures : (txs.map fun tx => tx.signature).Nodup
  txids : (txs.map core.txid).Nodup
  affordable : ∀ tx ∈ txs, s.mempool.pendingDebit tx.sender + DerivedState.spentBy txs tx.sender ≤
    s.node.chain.getBalance tx.sender
  sender : ∀ tx ∈ txs, s.mempool.pendingCount tx.sender +
    txs.countP (fun tx' => tx'.sender = tx.sender) ≤ maxPendingPerSender
  pool : s.mempool.len + txs.length ≤ maxMempoolSize

theorem Takes.perm {txs' : List Transaction} (h : Takes core s txs) (hperm : txs.Perm txs') :
    Takes core s txs' where
  lawful tx htx := h.lawful tx (hperm.mem_iff.mpr htx)
  distinct tx htx := h.distinct tx (hperm.mem_iff.mpr htx)
  transfer tx htx := h.transfer tx (hperm.mem_iff.mpr htx)
  unconfirmed tx htx := h.unconfirmed tx (hperm.mem_iff.mpr htx)
  fresh tx htx := h.fresh tx (hperm.mem_iff.mpr htx)
  unseen tx htx := h.unseen tx (hperm.mem_iff.mpr htx)
  signatures := (hperm.map _).nodup_iff.mp h.signatures
  txids := (hperm.map _).nodup_iff.mp h.txids
  affordable tx htx := by
    rw [← DerivedState.spentBy_perm hperm]
    exact h.affordable tx (hperm.mem_iff.mpr htx)
  sender tx htx := by
    rw [← hperm.countP_eq]
    exact h.sender tx (hperm.mem_iff.mpr htx)
  pool := hperm.length_eq ▸ h.pool

/-- One of the transfers is taken: it is published and pending, and there is room for the others. -/
theorem Takes.relay (h : Takes core s (tx :: txs)) :
    ∃ s', s.relayTxInner core tx = (true, s') ∧ Takes core s' txs ∧
      s'.gossip.events = s.gossip.events ++ [.transaction tx] ∧
      ∃ hc, s'.mempool = s.mempool.put core tx s.node.chain.getHeight hc := by
  have hmem : tx ∈ tx :: txs := List.mem_cons_self
  have hc := h.transfer tx hmem
  have hfresh := h.fresh tx hmem
  obtain ⟨hverified, hfee, hreceiver⟩ := h.lawful tx hmem
  obtain ⟨hevents, hseen⟩ := Gossip.publishTransaction_new (h.unseen tx hmem)
  have hcost : costOf tx ≤ tx.amount + tx.fee := by
    rw [costOf, Word.saturatingAdd]
    omega
  have hafford := h.affordable tx hmem
  rw [DerivedState.spentBy_transfer hc, if_pos rfl] at hafford
  have hcount := h.sender tx hmem
  rw [List.countP_cons_of_pos (by simp)] at hcount
  have hpool := h.pool
  rw [List.length_cons] at hpool
  have hadd : s.mempool.addTransaction core tx s.node.chain.getHeight =
      (true, s.mempool.put core tx s.node.chain.getHeight hc) :=
    Mempool.addTransaction_eq_true.mpr ⟨hfresh, by omega, by omega, hc, rfl⟩
  have hvalid : s.node.chain.validateTransactionState tx = true := by
    have hbalance : costOf tx ≤ s.node.chain.getBalance tx.sender := by omega
    simp [Blockchain.validateTransactionState, hfee, h.unconfirmed tx hmem, hbalance]
  refine ⟨⟨s.node, s.mempool.put core tx s.node.chain.getHeight hc,
    (s.gossip.publishTransaction core tx).2⟩, ?_, ?_, hevents, hc, rfl⟩
  · rw [relayTxInner, if_neg (h.distinct tx hmem), if_neg (by simp [hverified]),
      if_neg (by simp [hreceiver]), if_neg (by simp [hvalid]), if_neg (by omega), hadd]
  · have hlater : ∀ {tx'}, tx' ∈ txs → tx' ∈ tx :: txs := List.mem_cons_of_mem _
    obtain ⟨hsig, hsigs⟩ := List.nodup_cons.mp h.signatures
    obtain ⟨hid, hids⟩ := List.nodup_cons.mp h.txids
    refine {
      lawful := fun tx' htx' => h.lawful tx' (hlater htx')
      distinct := fun tx' htx' => h.distinct tx' (hlater htx')
      transfer := fun tx' htx' => h.transfer tx' (hlater htx')
      unconfirmed := fun tx' htx' => h.unconfirmed tx' (hlater htx')
      fresh := fun tx' htx' => ?_
      unseen := fun tx' htx' => ?_
      signatures := hsigs
      txids := hids
      affordable := fun tx' htx' => ?_
      sender := fun tx' htx' => ?_
      pool := ?_ }
    · have hne : tx'.signature ≠ tx.signature := fun heq =>
        hsig (List.mem_map.mpr ⟨tx', htx', heq⟩)
      rw [Mempool.contains_eq_false, Mempool.lookup_put hc, if_neg hne]
      exact Mempool.contains_eq_false.mp (h.fresh tx' (hlater htx'))
    · intro hin
      rcases Finset.mem_insert.mp (hseen hin) with heq | hin
      · exact hid (heq ▸ List.mem_map.mpr ⟨tx', htx', rfl⟩)
      · exact h.unseen tx' (hlater htx') hin
    · have hold := h.affordable tx' (hlater htx')
      rw [DerivedState.spentBy_transfer hc] at hold
      show (s.mempool.put core tx s.node.chain.getHeight hc).pendingDebit tx'.sender + _ ≤
        s.node.chain.getBalance tx'.sender
      rw [Mempool.pendingDebit_put hc hfresh, Word.saturatingAdd]
      by_cases hsender : tx.sender = tx'.sender
      · rw [if_pos hsender.symm] at hold
        rw [if_pos hsender]
        omega
      · rw [if_neg (Ne.symm hsender)] at hold
        rw [if_neg hsender]
        omega
    · have hold := h.sender tx' (hlater htx')
      rw [List.countP_cons] at hold
      show (s.mempool.put core tx s.node.chain.getHeight hc).pendingCount tx'.sender + _ ≤ _
      rw [Mempool.pendingCount_eq, Mempool.weigh_put hc hfresh, ← Mempool.pendingCount_eq]
      simp only [decide_eq_true_eq] at hold ⊢
      omega
    · show (s.mempool.put core tx s.node.chain.getHeight hc).len + _ ≤ _
      rw [Mempool.len_eq, Mempool.weigh_put hc hfresh, ← Mempool.len_eq]
      omega

end AppState

/-! ### Nodes and streams -/

def eventChannelCap : ℕ := 1024

/-- What the channel of a node keeps for a subscriber, and what is on its way in the stream. -/
structure Subscription where
  kept : List NodeEvent
  sent : List NodeEvent
  deriving DecidableEq

namespace Subscription

def empty : Subscription := ⟨[], []⟩

/-- Keeps events for a subscriber. Where it is too far behind, the oldest are lost to it. -/
def offer (sub : Subscription) (events : List NodeEvent) : Subscription :=
  let kept := sub.kept ++ events
  { sub with kept := kept.drop (kept.length - eventChannelCap) }

theorem sent_offer (sub : Subscription) (events : List NodeEvent) :
    (sub.offer events).sent = sub.sent := by
  unfold offer
  rfl

theorem offer_eq {sub : Subscription} {events : List NodeEvent}
    (h : sub.kept.length + events.length ≤ eventChannelCap) :
    sub.offer events = { sub with kept := sub.kept ++ events } := by
  simp only [offer, List.length_append, Nat.sub_eq_zero_of_le h, List.drop_zero]

end Subscription

/-- The nodes of a network, and for each pair the subscription of the second to the first. -/
structure Network (ι : Type*) where
  nodes : ι → AppState
  streams : ι → ι → Subscription

namespace Network

variable {ι : Type*} [DecidableEq ι]

/-- A client or a clock has a node take a step, an event goes from the channel of `p` into the
stream to `q`, or `q` handles an event, the next of the stream from `p`. -/
inductive Event (ι : Type*)
  | client (i : ι) (e : AppState.Event)
  | send (p q : ι)
  | deliver (p q : ι) (ambient : Ambient) (event : NodeEvent)

def setStream (net : Network ι) (p q : ι) (sub : Subscription) : Network ι :=
  { net with streams := fun p' q' => if p' = p ∧ q' = q then sub else net.streams p' q' }

/-- A node goes on to a state, and what it has published is kept for its subscribers. -/
def handled (subscribes : Finset (ι × ι)) (net : Network ι) (i : ι) (s : AppState) : Network ι where
  nodes := Function.update net.nodes i s
  streams p q :=
    if p = i ∧ (p, q) ∈ subscribes then
      (net.streams p q).offer (s.gossip.events.drop (net.nodes i).gossip.events.length)
    else net.streams p q

/-- One step, where `(p, q) ∈ subscribes` says that `q` is a subscriber of `p`. -/
inductive Steps (core : Core) (subscribes : Finset (ι × ι)) : Network ι → Event ι → Network ι → Prop
  | client {net : Network ι} {i : ι} {e : AppState.Event} {s : AppState}
      (h : AppState.Steps core (net.nodes i) e s) :
      Steps core subscribes net (.client i e) (net.handled subscribes i s)
  | send {net : Network ι} {p q : ι} {event : NodeEvent} {kept : List NodeEvent}
      (h : (net.streams p q).kept = event :: kept) :
      Steps core subscribes net (.send p q)
        (net.setStream p q ⟨kept, (net.streams p q).sent ++ [event]⟩)
  | deliver {net : Network ι} {p q : ι} {ambient : Ambient} {event : NodeEvent}
      {sent : List NodeEvent} {s : AppState} (h : (net.streams p q).sent = event :: sent)
      (hs : (net.nodes q).handlePeerEvent core ambient event = .ok s) :
      Steps core subscribes net (.deliver p q ambient event)
        ((net.setStream p q ⟨(net.streams p q).kept, sent⟩).handled subscribes q s)

theorem streams_setStream (net : Network ι) (p q p' q' : ι) (sub : Subscription) :
    (net.setStream p q sub).streams p' q' =
      if p' = p ∧ q' = q then sub else net.streams p' q' := rfl

theorem streams_handled (subscribes : Finset (ι × ι)) (net : Network ι) (i p q : ι) (s : AppState) :
    (net.handled subscribes i s).streams p q =
      if p = i ∧ (p, q) ∈ subscribes then
        (net.streams p q).offer (s.gossip.events.drop (net.nodes i).gossip.events.length)
      else net.streams p q := rfl

/-- Nothing is kept for anyone, and nothing is on its way. -/
def Quiet (net : Network ι) : Prop := ∀ p q, net.streams p q = .empty

/-- What a client brings to a node in some step. -/
def Submits (es : List (Event ι)) (i : ι) (tx : Transaction) : Prop :=
  ∃ e, Event.client i e ∈ es ∧ e.transaction = some tx

/-- What a step delivers in the stream from `p` to `q`. -/
def Event.deliveredAlong (p q : ι) : Event ι → Option NodeEvent
  | .client _ _ | .send _ _ => none
  | .deliver p' q' _ event => if p' = p ∧ q' = q then some event else none

variable {core : Core} {subscribes : Finset (ι × ι)} {net₀ net net' : Network ι}
  {txs : List Transaction} {fl : Flood.State ι Transaction} {e : Event ι} {es : List (Event ι)}
  {i j p q : ι} {tx : Transaction} {s : AppState}

/-! ### The network floods -/

/-- Every node has taken the transactions of its log and can take the others, and every stream
carries what its subscriber has yet to read. -/
structure Floods (core : Core) (subscribes : Finset (ι × ι)) (txs : List Transaction)
    (net : Network ι) (fl : Flood.State ι Transaction) : Prop where
  takes : ∀ i, ∃ rest, (fl.log i ++ rest).Perm txs ∧ AppState.Takes core (net.nodes i) rest
  pending : ∀ i, ∀ tx ∈ fl.log i, (net.nodes i).mempool.contains tx.signature = true
  read : ∀ p q, fl.read p q ≤ (fl.log p).length
  streams : ∀ p q, (net.streams p q).sent ++ (net.streams p q).kept =
    if (p, q) ∈ subscribes then ((fl.log p).drop (fl.read p q)).map .transaction else []

theorem floods_start (hquiet : net.Quiet) (htakes : ∀ i, AppState.Takes core (net.nodes i) txs) :
    Floods core subscribes txs net .start where
  takes i := ⟨txs, .refl _, htakes i⟩
  pending _ _ := nofun
  read _ _ := Nat.le_refl _
  streams p q := by
    rw [hquiet p q, show (Flood.State.start : Flood.State ι Transaction).log p = [] from rfl,
      List.drop_nil]
    split <;> rfl

namespace Floods

theorem log_subset (h : Floods core subscribes txs net fl) (i : ι) : fl.log i ⊆ txs := by
  obtain ⟨rest, hperm, -⟩ := h.takes i
  exact fun tx htx => hperm.mem_iff.mp (List.mem_append_left rest htx)

theorem length_log_le (h : Floods core subscribes txs net fl) (i : ι) :
    (fl.log i).length ≤ txs.length := by
  obtain ⟨rest, hperm, -⟩ := h.takes i
  rw [← hperm.length_eq, List.length_append]
  omega

/-- Of the transactions, a node has pending what its log holds. -/
theorem pending_iff (h : Floods core subscribes txs net fl) (htx : tx ∈ txs) :
    (net.nodes i).mempool.contains tx.signature = true ↔ tx ∈ fl.log i := by
  refine ⟨fun hpending => ?_, h.pending i tx⟩
  obtain ⟨rest, hperm, htakes⟩ := h.takes i
  rcases List.mem_append.mp (hperm.mem_iff.mpr htx) with hlog | hrest
  · exact hlog
  · rw [htakes.fresh tx hrest] at hpending
    cases hpending

/-- What is on its way or kept for a subscriber is what it has yet to read. -/
theorem length_streams (h : Floods core subscribes txs net fl) (hedge : (p, q) ∈ subscribes) :
    fl.read p q + ((net.streams p q).sent.length + (net.streams p q).kept.length) =
      (fl.log p).length := by
  have hlength := congrArg List.length (h.streams p q)
  rw [if_pos hedge, List.length_append, List.length_map, List.length_drop] at hlength
  have := h.read p q
  omega

theorem kept_le (h : Floods core subscribes txs net fl) (p q : ι) :
    (net.streams p q).kept.length ≤ (fl.log p).length := by
  by_cases hedge : (p, q) ∈ subscribes
  · have := h.length_streams hedge
    omega
  · have hnil := h.streams p q
    rw [if_neg hedge, List.append_eq_nil_iff] at hnil
    rw [hnil.2]
    exact Nat.zero_le _

/-- A node that stays as it is publishes nothing. -/
theorem handled_self (h : Floods core subscribes txs net fl) (hcap : txs.length ≤ eventChannelCap)
    (i : ι) : net.handled subscribes i (net.nodes i) = net := by
  have hstreams : ∀ p q, (net.handled subscribes i (net.nodes i)).streams p q =
      net.streams p q := by
    intro p q
    show (if p = i ∧ (p, q) ∈ subscribes then (net.streams p q).offer
      ((net.nodes i).gossip.events.drop (net.nodes i).gossip.events.length)
      else net.streams p q) = _
    split
    · have := h.kept_le p q
      have := h.length_log_le p
      rw [List.drop_length, Subscription.offer_eq (by simpa using by omega), List.append_nil]
    · rfl
  calc net.handled subscribes i (net.nodes i)
      = ⟨Function.update net.nodes i (net.nodes i), net.streams⟩ := by
        rw [← funext₂ hstreams]
        rfl
    _ = net := by rw [Function.update_eq_self]

/-- A node handles one of the transactions: it learns it. -/
theorem handles (h : Floods core subscribes txs net fl) (hcap : txs.length ≤ eventChannelCap)
    (htx : tx ∈ txs) (i : ι) : Floods core subscribes txs
      (net.handled subscribes i ((net.nodes i).relayTxInner core tx).2) (fl.learn i tx) := by
  by_cases hknown : tx ∈ fl.log i
  · rw [Flood.learn_of_mem hknown, AppState.relayTxInner_of_pending (h.pending i tx hknown),
      h.handled_self hcap]
    exact h
  obtain ⟨rest, hperm, htakes⟩ := h.takes i
  have hrest : tx ∈ rest :=
    (List.mem_append.mp (hperm.mem_iff.mpr htx)).resolve_left hknown
  obtain ⟨s, hrelay, htakes', hevents, hc, hpool⟩ :=
    (htakes.perm (List.perm_cons_erase hrest)).relay
  rw [hrelay]
  have hlog := Flood.log_learn_of_not_mem hknown
  refine ⟨fun j => ?_, fun j tx' htx' => ?_, fun p q => ?_, fun p q => ?_⟩
  · show ∃ rest, ((fl.learn i tx).log j ++ rest).Perm txs ∧
      AppState.Takes core (Function.update net.nodes i s j) rest
    rw [hlog]
    by_cases hj : j = i
    · rw [hj, Function.update_self, Function.update_self]
      refine ⟨rest.erase tx, ?_, htakes'⟩
      rw [List.append_assoc, List.singleton_append]
      exact ((List.perm_cons_erase hrest).symm.append_left _).trans hperm
    · rw [Function.update_of_ne hj, Function.update_of_ne hj]
      exact h.takes j
  · show (Function.update net.nodes i s j).mempool.contains tx'.signature = true
    by_cases hj : j = i
    · rw [hj, Function.update_self, hpool, Mempool.contains, Mempool.lookup_put hc]
      split
      · rfl
      · rename_i hne
        rcases Flood.mem_log_learn.mp (hj ▸ htx') with hlog | ⟨-, rfl⟩
        · exact h.pending i tx' hlog
        · exact absurd rfl hne
    · rw [Function.update_of_ne hj]
      exact h.pending j tx' ((Flood.mem_log_learn.mp htx').resolve_right fun hnew => hj hnew.1)
  · rw [Flood.read_learn]
    exact (h.read p q).trans Flood.log_prefix_learn.length_le
  · have hstream := h.streams p q
    have hkept := h.kept_le p q
    rw [streams_handled, hevents, List.drop_left, Flood.read_learn, hlog]
    by_cases hedge : (p, q) ∈ subscribes
    · rw [if_pos hedge] at hstream ⊢
      by_cases hp : p = i
      · subst hp
        have hroom : (net.streams p q).kept.length + 1 ≤ eventChannelCap := by
          have := hperm.length_eq
          have := List.length_pos_of_mem hrest
          rw [List.length_append] at *
          omega
        rw [if_pos ⟨rfl, hedge⟩, Subscription.offer_eq hroom, Function.update_self,
          List.drop_append_of_le_length (h.read p q), List.map_append, ← hstream,
          List.append_assoc]
        rfl
      · rw [if_neg (fun hpi => hp hpi.1), Function.update_of_ne hp, hstream]
    · rw [if_neg hedge] at hstream ⊢
      rw [if_neg (fun hpi => hedge hpi.2), hstream]

/-- An event goes from the channel into the stream. -/
theorem sends (h : Floods core subscribes txs net fl) {event : NodeEvent} {kept : List NodeEvent}
    (hkept : (net.streams p q).kept = event :: kept) : Floods core subscribes txs
      (net.setStream p q ⟨kept, (net.streams p q).sent ++ [event]⟩) fl where
  takes := h.takes
  pending := h.pending
  read := h.read
  streams p' q' := by
    rw [streams_setStream]
    split
    · rename_i heq
      obtain ⟨rfl, rfl⟩ := heq
      rw [← h.streams p' q', hkept, List.append_assoc, List.singleton_append]
    · exact h.streams p' q'

/-- What comes out of a stream is the next entry that the subscriber has yet to read. -/
theorem receives (h : Floods core subscribes txs net fl) {event : NodeEvent} {sent : List NodeEvent}
    (hsent : (net.streams p q).sent = event :: sent) : (p, q) ∈ subscribes ∧
      ∃ tx ∈ txs, (fl.log p)[fl.read p q]? = some tx ∧ event = .transaction tx ∧
        Floods core subscribes txs (net.setStream p q ⟨(net.streams p q).kept, sent⟩)
          (fl.advance p q) := by
  have hstream := h.streams p q
  by_cases hedge : (p, q) ∈ subscribes
  case neg =>
    rw [if_neg hedge, hsent] at hstream
    cases hstream
  rw [if_pos hedge, hsent, List.cons_append] at hstream
  cases hrest : (fl.log p).drop (fl.read p q) with
  | nil =>
    rw [hrest] at hstream
    cases hstream
  | cons tx unread =>
    rw [hrest, List.map_cons, List.cons.injEq] at hstream
    have hlt : fl.read p q < (fl.log p).length := by
      have hlength := congrArg List.length hrest
      rw [List.length_drop, List.length_cons] at hlength
      omega
    rw [List.drop_eq_getElem_cons hlt, List.cons.injEq] at hrest
    have hget : (fl.log p)[fl.read p q]? = some tx := by
      rw [List.getElem?_eq_getElem hlt, hrest.1]
    refine ⟨hedge, tx, h.log_subset p (List.mem_of_getElem? hget), hget, hstream.1,
      h.takes, h.pending, fun p' q' => ?_, fun p' q' => ?_⟩
    · rw [Flood.read_advance]
      split
      · rename_i heq
        obtain ⟨rfl, rfl⟩ := heq
        exact hlt
      · exact h.read p' q'
    · rw [streams_setStream, Flood.read_advance]
      split
      · rename_i heq
        obtain ⟨rfl, rfl⟩ := heq
        rw [if_pos hedge, hstream.2, ← hrest.2]
        rfl
      · exact h.streams p' q'

end Floods

/-- What a step is to the logs. -/
def loggedBy (txs : List Transaction) : Event ι → List (Flood.Event ι Transaction)
  | .client i e =>
    match e.transaction with
    | some tx => if tx ∈ txs then [.originate i tx] else []
    | none => []
  | .send _ _ => []
  | .deliver p q _ (.transaction tx) => [.read p q tx]
  | .deliver _ _ _ (.block _) => []

/-- Clients bring nothing but the transactions, and what the nodes refuse. -/
def Event.OnlyBrings (core : Core) (txs : List Transaction) : Event ι → Prop
  | .client _ e => e.OnlyBrings core txs
  | .send _ _ | .deliver _ _ _ _ => True

theorem Floods.step (h : Floods core subscribes txs net fl) (hcap : txs.length ≤ eventChannelCap)
    (hstep : Steps core subscribes net e net') (he : e.OnlyBrings core txs) :
    ∃ fl', Runs.Run (Flood.Steps subscribes) fl (loggedBy txs e) fl' ∧
      Floods core subscribes txs net' fl' := by
  cases hstep with
  | @client i e s hs =>
    rcases hs.relays he with ⟨tx, htx, hbrings, rfl⟩ | ⟨hnone, rfl⟩
    · refine ⟨fl.learn i tx, ?_, h.handles hcap htx i⟩
      rw [loggedBy, hbrings]
      simp only [htx, if_true]
      exact .cons (.originate fl i tx) (.nil _)
    · refine ⟨fl, ?_, (h.handled_self hcap i).symm ▸ h⟩
      have hlogged : loggedBy txs (Event.client i e) = [] := by
        rw [loggedBy]
        split
        · rename_i tx htx
          rw [if_neg fun hmem => hnone tx hmem htx]
        · rfl
      rw [hlogged]
      exact .nil _
  | send hkept => exact ⟨fl, .nil _, h.sends hkept⟩
  | @deliver p q ambient event sent s hsent hs =>
    obtain ⟨hedge, tx, htx, hget, rfl, hafter⟩ := h.receives hsent
    cases hs
    exact ⟨(fl.advance p q).learn q tx, .cons (.read hedge hget) (.nil _),
      hafter.handles hcap htx q⟩

theorem Floods.of_run (hcap : txs.length ≤ eventChannelCap) (hquiet : net₀.Quiet)
    (htakes : ∀ i, AppState.Takes core (net₀.nodes i) txs)
    (run : Runs.Run (Steps core subscribes) net₀ es net)
    (hes : ∀ e ∈ es, e.OnlyBrings core txs) :
    ∃ fl, Runs.Run (Flood.Steps subscribes) .start (es.flatMap (loggedBy txs)) fl ∧
      Floods core subscribes txs net fl :=
  run.simulate (fun he hstep hfl => hfl.step hcap hstep (hes _ he)) (floods_start hquiet htakes)

omit [DecidableEq ι] in
theorem mem_loggedBy : Flood.Event.originate i tx ∈ es.flatMap (loggedBy txs) ↔
    tx ∈ txs ∧ Submits es i tx := by
  constructor
  · intro h
    obtain ⟨e, he, hlogged⟩ := List.mem_flatMap.mp h
    cases e with
    | client k e =>
      rw [loggedBy] at hlogged
      split at hlogged
      · rename_i tx' htx'
        split at hlogged
        · rename_i hmem
          cases List.mem_singleton.mp hlogged
          exact ⟨hmem, e, he, htx'⟩
        · cases hlogged
      · cases hlogged
    | send p q => cases hlogged
    | deliver p q ambient event =>
      cases event with
      | block b => cases hlogged
      | transaction tx' => cases List.mem_singleton.mp hlogged
  · rintro ⟨hmem, e, he, htx⟩
    refine List.mem_flatMap.mpr ⟨_, he, ?_⟩
    rw [loggedBy, htx]
    simp [hmem]

/-- What is delivered in a stream is read along the edge of the logs. -/
theorem deliveredAlong_eq (h : Floods core subscribes txs net fl)
    (hstep : Steps core subscribes net e net') (p q : ι) : (e.deliveredAlong p q).toList =
      ((loggedBy txs e).filterMap (Flood.Event.readAlong p q)).map .transaction := by
  cases hstep with
  | @client i e s hs =>
    rw [loggedBy, Event.deliveredAlong]
    split
    · split <;> rfl
    · rfl
  | send hkept => rfl
  | @deliver p' q' ambient event sent s hsent hs =>
    obtain ⟨-, tx, -, -, rfl, -⟩ := h.receives hsent
    rw [loggedBy, Event.deliveredAlong, List.filterMap_cons, Flood.Event.readAlong]
    split <;> rfl

/-- Over a run that floods, what is delivered in each stream is read along the edge, in order. -/
theorem Floods.delivered (h : Floods core subscribes txs net fl)
    (hcap : txs.length ≤ eventChannelCap) (run : Runs.Run (Steps core subscribes) net es net')
    (hes : ∀ e ∈ es, e.OnlyBrings core txs) (p q : ι) : es.filterMap (Event.deliveredAlong p q) =
      ((es.flatMap (loggedBy txs)).filterMap (Flood.Event.readAlong p q)).map .transaction := by
  induction run generalizing fl with
  | nil => rfl
  | @cons net net₁ net' e es hstep _ ih =>
    obtain ⟨he, hes⟩ := List.forall_mem_cons.mp hes
    obtain ⟨fl₁, -, hfloods⟩ := h.step hcap hstep he
    rw [List.flatMap_cons, List.filterMap_append, List.map_append, ← deliveredAlong_eq h hstep,
      ← ih hfloods hes, List.filterMap_cons]
    cases e.deliveredAlong p q <;> rfl

/-! ### The way to quiet -/

def Event.isForwarding : Event ι → Bool
  | .client _ _ => false
  | .send _ _ | .deliver _ _ _ _ => true

omit [DecidableEq ι] in
theorem onlyBrings_of_isForwarding (h : e.isForwarding = true) : e.OnlyBrings core txs := by
  cases e with
  | client => cases h
  | send => exact trivial
  | deliver => exact trivial

theorem sent_handled (subscribes : Finset (ι × ι)) (net : Network ι) (i p q : ι) (s : AppState) :
    ((net.handled subscribes i s).streams p q).sent = (net.streams p q).sent := by
  rw [streams_handled]
  split
  · exact Subscription.sent_offer _ _
  · rfl

/-- What may still have to be delivered along a stream, and what may still have to be sent, where
the log grows to a length of `n`. -/
def outstandingAt (n : ℕ) (net : Network ι) (fl : Flood.State ι Transaction) (p q : ι) : ℕ :=
  (n - fl.read p q) + (n - (fl.read p q + (net.streams p q).sent.length))

def outstanding (subscribes : Finset (ι × ι)) (n : ℕ) (net : Network ι)
    (fl : Flood.State ι Transaction) : ℕ :=
  ∑ e ∈ subscribes, outstandingAt n net fl e.1 e.2

theorem outstanding_lt {n : ℕ} {fl' : Flood.State ι Transaction} (hedge : (p, q) ∈ subscribes)
    (hlt : outstandingAt n net' fl' p q < outstandingAt n net fl p q)
    (heq : ∀ p' q', ¬ (p' = p ∧ q' = q) →
      outstandingAt n net' fl' p' q' = outstandingAt n net fl p' q') :
    outstanding subscribes n net' fl' < outstanding subscribes n net fl := by
  refine Finset.sum_lt_sum (fun e _ => ?_) ⟨(p, q), hedge, hlt⟩
  by_cases h : e.1 = p ∧ e.2 = q
  · rw [h.1, h.2]
    exact Nat.le_of_lt hlt
  · exact Nat.le_of_eq (heq e.1 e.2 h)

theorem Floods.outstanding_send (h : Floods core subscribes txs net fl) {event : NodeEvent}
    {kept : List NodeEvent} (hkept : (net.streams p q).kept = event :: kept) :
    outstanding subscribes txs.length
      (net.setStream p q ⟨kept, (net.streams p q).sent ++ [event]⟩) fl <
        outstanding subscribes txs.length net fl := by
  have hedge : (p, q) ∈ subscribes := by
    by_contra hedge
    have hnil := h.streams p q
    rw [if_neg hedge, hkept] at hnil
    simp at hnil
  have hlength := h.length_streams hedge
  have hlog := h.length_log_le p
  rw [hkept, List.length_cons] at hlength
  refine outstanding_lt hedge ?_ fun p' q' hne => ?_
  · rw [outstandingAt, outstandingAt, streams_setStream, if_pos ⟨rfl, rfl⟩, List.length_append,
      List.length_singleton]
    omega
  · rw [outstandingAt, outstandingAt, streams_setStream, if_neg hne]

theorem Floods.outstanding_deliver (h : Floods core subscribes txs net fl) {event : NodeEvent}
    {sent : List NodeEvent} (hsent : (net.streams p q).sent = event :: sent) :
    outstanding subscribes txs.length
      ((net.setStream p q ⟨(net.streams p q).kept, sent⟩).handled subscribes q s)
      ((fl.advance p q).learn q tx) < outstanding subscribes txs.length net fl := by
  have hedge : (p, q) ∈ subscribes := (h.receives hsent).1
  have hlength := h.length_streams hedge
  have hlog := h.length_log_le p
  rw [hsent, List.length_cons] at hlength
  refine outstanding_lt hedge ?_ fun p' q' hne => ?_
  · rw [outstandingAt, outstandingAt, sent_handled, streams_setStream, Flood.read_learn,
      Flood.read_advance, if_pos ⟨rfl, rfl⟩, if_pos ⟨rfl, rfl⟩, hsent, List.length_cons]
    show _ + (_ - (_ + 1 + sent.length)) < _
    omega
  · rw [outstandingAt, outstandingAt, sent_handled, streams_setStream, Flood.read_learn,
      Flood.read_advance, if_neg hne, if_neg hne]

/-- Every step without clients leaves less outstanding. -/
theorem Floods.forward (h : Floods core subscribes txs net fl) (hcap : txs.length ≤ eventChannelCap)
    (he : e.isForwarding = true) (hstep : Steps core subscribes net e net') :
    ∃ fl', Floods core subscribes txs net' fl' ∧
      outstanding subscribes txs.length net' fl' < outstanding subscribes txs.length net fl := by
  cases hstep with
  | client => cases he
  | send hkept => exact ⟨fl, h.sends hkept, h.outstanding_send hkept⟩
  | @deliver p q ambient event sent s hsent hs =>
    obtain ⟨-, tx, htx, -, rfl, hafter⟩ := h.receives hsent
    cases hs
    exact ⟨_, hafter.handles hcap htx q, h.outstanding_deliver hsent⟩

/-- So steps without clients come to an end. -/
theorem Floods.length_le_outstanding (h : Floods core subscribes txs net fl)
    (hcap : txs.length ≤ eventChannelCap) (run : Runs.Run (Steps core subscribes) net es net')
    (hes : ∀ e ∈ es, e.isForwarding = true) :
    ∃ fl', Floods core subscribes txs net' fl' ∧
      es.length ≤ outstanding subscribes txs.length net fl := by
  induction run generalizing fl with
  | nil => exact ⟨fl, h, Nat.zero_le _⟩
  | cons hstep _ ih =>
    obtain ⟨he, hes⟩ := List.forall_mem_cons.mp hes
    obtain ⟨fl₁, hfloods, hlt⟩ := h.forward hcap he hstep
    obtain ⟨fl', hfloods', hle⟩ := ih hfloods hes
    exact ⟨fl', hfloods', by rw [List.length_cons]; omega⟩

omit [DecidableEq ι] in
theorem outstanding_le (n : ℕ) (net : Network ι) (fl : Flood.State ι Transaction) :
    outstanding subscribes n net fl ≤ 2 * subscribes.card * n := by
  have hone : ∀ e ∈ subscribes, outstandingAt n net fl e.1 e.2 ≤ 2 * n := by
    intro e _
    rw [outstandingAt]
    omega
  calc outstanding subscribes n net fl ≤ subscribes.card • (2 * n) :=
        Finset.sum_le_card_nsmul _ _ _ hone
    _ = 2 * subscribes.card * n := by rw [smul_eq_mul]; ring

/-- They can go on until nothing is kept for anyone or on its way. -/
theorem Floods.exists_forward (h : Floods core subscribes txs net fl) (hbusy : ¬ net.Quiet) :
    ∃ e net', e.isForwarding = true ∧ Steps core subscribes net e net' := by
  simp only [Quiet, not_forall] at hbusy
  obtain ⟨p, q, hstream⟩ := hbusy
  cases hsent : (net.streams p q).sent with
  | cons event sent =>
    obtain ⟨-, tx, -, -, rfl, -⟩ := h.receives hsent
    exact ⟨.deliver p q ⟨fun _ => 0, PoolOrder.default⟩ (.transaction tx), _, rfl,
      .deliver hsent rfl⟩
  | nil =>
    cases hkept : (net.streams p q).kept with
    | cons event kept => exact ⟨.send p q, _, rfl, .send hkept⟩
    | nil =>
      have hempty : net.streams p q = ⟨(net.streams p q).kept, (net.streams p q).sent⟩ := rfl
      rw [hsent, hkept] at hempty
      exact absurd hempty hstream

/-! ### Whatever the order of the steps -/

theorem Floods.nodup_delivered (hcap : txs.length ≤ eventChannelCap) (hquiet : net₀.Quiet)
    (htakes : ∀ i, AppState.Takes core (net₀.nodes i) txs)
    (run : Runs.Run (Steps core subscribes) net₀ es net)
    (hes : ∀ e ∈ es, e.OnlyBrings core txs) (p q : ι) :
    (es.filterMap (Event.deliveredAlong p q)).Nodup := by
  obtain ⟨fl, hrun, -⟩ := Floods.of_run hcap hquiet htakes run hes
  rw [(floods_start hquiet htakes).delivered hcap run hes]
  exact (Flood.nodup_readAlong hrun).map fun _ _ heq => NodeEvent.transaction.inj heq

/-- Where nothing is on its way, a node has pending what came in where it can reach the node. -/
theorem Floods.pending_of_quiet (hcap : txs.length ≤ eventChannelCap) (hquiet : net₀.Quiet)
    (htakes : ∀ i, AppState.Takes core (net₀.nodes i) txs)
    (run : Runs.Run (Steps core subscribes) net₀ es net)
    (hes : ∀ e ∈ es, e.OnlyBrings core txs) (hend : net.Quiet)
    (hreach : Flood.Reaches subscribes i j) (htx : tx ∈ txs) (hsubmits : Submits es i tx) :
    (net.nodes j).mempool.contains tx.signature = true := by
  obtain ⟨fl, hrun, hfloods⟩ := Floods.of_run hcap hquiet htakes run hes
  have hread : Flood.Quiet subscribes fl := by
    intro p q hedge
    have hlength := hfloods.length_streams hedge
    rwa [hend p q] at hlength
  exact (hfloods.pending_iff htx).mpr
    ((Flood.mem_log_iff hrun hread).mpr ⟨i, mem_loggedBy.mpr ⟨htx, hsubmits⟩, hreach⟩)

/-- Where all nodes can take some transactions, and clients bring no others that a node would take,
a node has pending only such of them as came in where they can reach it. In each stream nothing is
delivered twice. Without further clients, the steps come to an end whatever their order, and they
can go on until all streams have run dry. Then every transaction is pending wherever it can
reach. -/
theorem flooded_of_run (hcap : txs.length ≤ eventChannelCap) (hquiet : net₀.Quiet)
    (htakes : ∀ i, AppState.Takes core (net₀.nodes i) txs)
    (run : Runs.Run (Steps core subscribes) net₀ es net)
    (hes : ∀ e ∈ es, e.OnlyBrings core txs) :
    (∀ j, ∀ tx ∈ txs, (net.nodes j).mempool.contains tx.signature = true →
      ∃ i, Submits es i tx ∧ Flood.Reaches subscribes i j) ∧
    (∀ p q, (es.filterMap (Event.deliveredAlong p q)).Nodup) ∧
    ∀ es' net', (∀ e ∈ es', e.isForwarding = true) →
      Runs.Run (Steps core subscribes) net es' net' →
      es'.length ≤ 2 * subscribes.card * txs.length ∧
      (¬ net'.Quiet → ∃ e net'', e.isForwarding = true ∧ Steps core subscribes net' e net'') ∧
      (net'.Quiet → ∀ i j, Flood.Reaches subscribes i j → ∀ tx ∈ txs, Submits es i tx →
        (net'.nodes j).mempool.contains tx.signature = true) := by
  obtain ⟨fl, hrun, hfloods⟩ := Floods.of_run hcap hquiet htakes run hes
  refine ⟨fun j tx htx hpending => ?_, Floods.nodup_delivered hcap hquiet htakes run hes,
    fun es' net' hforward run' => ?_⟩
  · obtain ⟨i, hi, hreach⟩ :=
      Flood.originated_of_mem_log hrun j tx ((hfloods.pending_iff htx).mp hpending)
    exact ⟨i, (mem_loggedBy.mp hi).2, hreach⟩
  obtain ⟨fl', hfloods', hle⟩ := hfloods.length_le_outstanding hcap run' hforward
  refine ⟨hle.trans (outstanding_le _ _ _), hfloods'.exists_forward,
    fun hend i j hreach tx htx hsubmits => ?_⟩
  have hall : ∀ e ∈ es ++ es', e.OnlyBrings core txs := List.forall_mem_append.mpr
    ⟨hes, fun e he => onlyBrings_of_isForwarding (hforward e he)⟩
  obtain ⟨e, he, htx'⟩ := hsubmits
  exact Floods.pending_of_quiet hcap hquiet htakes (run.append run') hall hend hreach htx
    ⟨e, List.mem_append_left _ he, htx'⟩

end Network

namespace Sample

open Network

/-! ### Three nodes in a ring -/

def node0 : Fin 3 := ⟨0, by decide⟩
def node1 : Fin 3 := ⟨1, by decide⟩
def node2 : Fin 3 := ⟨2, by decide⟩

def ring : Finset (Fin 3 × Fin 3) := {(node0, node1), (node1, node2), (node2, node0)}

def threeNodes : Network (Fin 3) := ⟨fun _ => app, fun _ _ => .empty⟩

def bothPayments : List Transaction := [smallPayment, largePayment]

theorem app_takes_payments : AppState.Takes plainCore app bothPayments where
  lawful tx htx := by
    have h : ∀ tx ∈ bothPayments, minTxFee ≤ tx.fee := by decide
    exact ⟨rfl, h tx htx, rfl⟩
  distinct := by decide +kernel
  transfer := by decide +kernel
  unconfirmed := by decide +kernel
  fresh := by decide +kernel
  unseen := by decide +kernel
  signatures := by decide +kernel
  txids := by decide +kernel
  affordable := by decide +kernel
  sender := by decide +kernel
  pool := by decide +kernel

/-- The state after a step, where clients only relay. -/
def nextNetwork (net : Network (Fin 3)) : Network.Event (Fin 3) → Option (Network (Fin 3))
  | .client i (.relay tx) =>
    some (net.handled ring i ((net.nodes i).relayTxInner plainCore tx).2)
  | .client _ _ => none
  | .send p q =>
    match (net.streams p q).kept with
    | [] => none
    | event :: kept => some (net.setStream p q ⟨kept, (net.streams p q).sent ++ [event]⟩)
  | .deliver p q ambient event' =>
    match (net.streams p q).sent with
    | [] => none
    | event :: sent =>
      if event = event' then
        ((net.nodes q).handlePeerEvent plainCore ambient event).toOption.map fun s =>
          (net.setStream p q ⟨(net.streams p q).kept, sent⟩).handled ring q s
      else none

theorem steps_of_nextNetwork {net net' : Network (Fin 3)} {e : Network.Event (Fin 3)}
    (h : nextNetwork net e = some net') : Network.Steps plainCore ring net e net' := by
  unfold nextNetwork at h
  split at h
  · cases h
    exact .client rfl
  · cases h
  · split at h
    · cases h
    · rename_i hkept
      cases h
      exact .send hkept
  · split at h
    · cases h
    · rename_i hsent
      obtain ⟨rfl, hnext⟩ := Option.ite_none_right_eq_some.mp h
      obtain ⟨s, hs, rfl⟩ := Option.map_eq_some_iff.mp hnext
      exact .deliver hsent (Fallible.toOption_eq_some.mp hs)

/-- A transaction goes from one node to another. -/
def forward (p q : Fin 3) (tx : Transaction) : List (Network.Event (Fin 3)) :=
  [.send p q, .deliver p q (around 1748000160) (.transaction tx)]

def paymentsAround : List (Network.Event (Fin 3)) :=
  [.client node0 (.relay smallPayment), .client node2 (.relay largePayment)] ++
    forward node0 node1 smallPayment ++ forward node2 node0 largePayment ++
    forward node1 node2 smallPayment ++ forward node0 node1 largePayment ++
    forward node2 node0 smallPayment ++ forward node1 node2 largePayment

/-- Two payments that come in at two nodes go all the way round. -/
theorem payments_flooded : ∃ net,
    Runs.Run (Network.Steps plainCore ring) threeNodes paymentsAround net ∧ net.Quiet ∧
    (∀ j, ∀ tx ∈ bothPayments, (net.nodes j).mempool.contains tx.signature = true →
      ∃ i, Submits paymentsAround i tx ∧ Flood.Reaches ring i j) ∧
    (∀ p q, (paymentsAround.filterMap (Network.Event.deliveredAlong p q)).Nodup) ∧
    ∀ i j, Flood.Reaches ring i j → ∀ tx ∈ bothPayments, Submits paymentsAround i tx →
      (net.nodes j).mempool.contains tx.signature = true := by
  have hrun : (paymentsAround.foldlM nextNetwork threeNodes).map (fun net =>
      decide (∀ p q, net.streams p q = .empty)) = some true := by
    decide +kernel
  obtain ⟨net, hnet, hquiet⟩ := Option.map_eq_some_iff.mp hrun
  have hsteps : Runs.Run (Network.Steps plainCore ring) threeNodes paymentsAround net :=
    Runs.run_of_foldlM steps_of_nextNetwork hnet
  have hend : ∀ p q, net.streams p q = .empty := of_decide_eq_true hquiet
  have hbrings : ∀ e ∈ paymentsAround, e.OnlyBrings plainCore bothPayments := by
    intro e he
    simp only [paymentsAround, forward, List.cons_append, List.nil_append, List.mem_cons,
      List.not_mem_nil, or_false] at he
    rcases he with rfl | rfl | he
    · exact .inl (by decide)
    · exact .inl (by decide)
    · rcases he with rfl | rfl | rfl | rfl | rfl | rfl | rfl | rfl | rfl | rfl | rfl | rfl <;>
        exact trivial
  obtain ⟨hin, honce, hrest⟩ := flooded_of_run (by decide) (fun _ _ => rfl)
    (fun _ => app_takes_payments) hsteps hbrings
  exact ⟨net, hsteps, hend, hin, honce, (hrest [] net nofun (.nil net)).2.2 hend⟩

end Sample

end Lootcoin
