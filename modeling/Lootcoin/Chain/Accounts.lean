import Lootcoin.Chain.Supply

/-! The ledger equation of one address.  What a block does to the balance of an address is a closed
formula over the state before the block, the maturing tickets, and the transaction list: no balance
and no part of the pot is cut off on the way. -/

namespace Lootcoin

namespace DerivedState

/-- The payouts of tickets, in order, from a pot: each pays the reward that the pot left by those
before it gives, and no more than that pot. -/
def payoutsFrom (core : Core) (hashAt : ℕ → Option Bytes) (s : DerivedState) :
    ℕ → List LootTicket → List Payout
  | _, [] => []
  | pot, t :: ts =>
    let reward := { s with pot := pot }.computeTicketReward core hashAt t.createdHeight t
    if 0 < min reward.1 pot then
      ⟨t.miner, min reward.1 pot, reward.2⟩ ::
        payoutsFrom core hashAt s (pot - min reward.1 pot) ts
    else payoutsFrom core hashAt s pot ts

/-- The payouts of the tickets that mature at an index, from the pot of the state. -/
def maturingPayouts (core : Core) (hashAt : ℕ → Option Bytes) (s : DerivedState) (index : ℕ) :
    List Payout :=
  payoutsFrom core hashAt s s.pot (s.toSettle index)

/-- What payouts pay to an address. -/
def wonBy (ps : List Payout) (a : Address) : ℕ :=
  ((ps.filter fun p => p.receiver = a).map fun p => p.amount).sum

/-- What the transfers of a list cost an address that sends them. -/
def spentBy (txs : List Transaction) (a : Address) : ℕ :=
  ((txs.filter fun tx => tx.isCoinbase = false ∧ tx.sender = a).map fun tx =>
    tx.amount + tx.fee).sum

/-- What the transactions of a list, coinbases included, bring to an address. -/
def receivedBy (txs : List Transaction) (a : Address) : ℕ :=
  ((txs.filter fun tx => tx.receiver = a).map fun tx => tx.amount).sum

/-- The half of the fees that a block pays to an address. -/
def minerShareOf (b : Block) (a : Address) : ℕ :=
  if extractMinerAddress b = some a then exactFees b.transactions / 2 else 0

/-- The half of the fees that a block takes out of the pot. -/
def minerShareOfPot (b : Block) : ℕ :=
  if (extractMinerAddress b).isSome then exactFees b.transactions / 2 else 0

variable {core : Core} {hashAt : ℕ → Option Bytes} {s s' : DerivedState} {b : Block}

/-! ### The payouts of a settlement -/

/-- The reward of a ticket depends on the pot of a state and on nothing else of it. -/
theorem computeTicketReward_congr {t : LootTicket} {n : ℕ} (h : s'.pot = s.pot) :
    s'.computeTicketReward core hashAt n t = s.computeTicketReward core hashAt n t := by
  simp only [computeTicketReward, h]

theorem foldl_settleTicket_payouts (ts : List LootTicket) (acc : DerivedState × List Payout) :
    (ts.foldl (settleTicket core hashAt) acc).2 =
      acc.2 ++ payoutsFrom core hashAt s acc.1.pot ts := by
  induction ts generalizing acc with
  | nil => simp [payoutsFrom]
  | cons t ts ih =>
    have hreward : { s with pot := acc.1.pot }.computeTicketReward core hashAt t.createdHeight t =
        acc.1.computeTicketReward core hashAt t.createdHeight t := computeTicketReward_congr rfl
    rw [List.foldl_cons, ih, payoutsFrom]
    simp only [hreward, settleTicket]
    split
    · rw [List.append_assoc, List.singleton_append]
    · rfl

theorem settleTickets_payouts (index : ℕ) :
    (s.settleTickets core hashAt index).2 = s.maturingPayouts core hashAt index := by
  rw [settleTickets, foldl_settleTicket_payouts (s := s), List.nil_append, maturingPayouts]

/-! ### What the entries of a block post -/

theorem posted_append (e e' : List (Account × ℤ)) (a : Account) :
    Ledger.posted (e ++ e') a = Ledger.posted e a + Ledger.posted e' a := by
  simp [Ledger.posted]

theorem posted_payouts (ps : List Payout) (a : Address) :
    Ledger.posted (ps.flatMap payoutEntry) (some a) = wonBy ps a := by
  induction ps with
  | nil => rfl
  | cons p ps ih =>
    rw [List.flatMap_cons, posted_append, ih]
    by_cases h : p.receiver = a <;> simp [payoutEntry, Ledger.posted, wonBy, h]

theorem posted_payouts_pot (ps : List Payout) :
    Ledger.posted (ps.flatMap payoutEntry) none = -((ps.map fun p => p.amount).sum : ℕ) := by
  induction ps with
  | nil => rfl
  | cons p ps ih =>
    rw [List.flatMap_cons, posted_append, ih, List.map_cons, List.sum_cons, Nat.cast_add, neg_add]
    simp [payoutEntry, Ledger.posted]

theorem posted_transactions (txs : List Transaction) (a : Address) :
    Ledger.posted (txs.flatMap transactionEntry) (some a) =
      (receivedBy txs a : ℤ) - spentBy txs a := by
  induction txs with
  | nil => rfl
  | cons tx txs ih =>
    rw [List.flatMap_cons, posted_append, ih]
    cases hc : tx.isCoinbase with
    | true =>
      by_cases hr : tx.receiver = a <;>
        simp [transactionEntry, Ledger.posted, receivedBy, spentBy, hc, hr]
      omega
    | false =>
      by_cases hr : tx.receiver = a <;> by_cases hs : tx.sender = a <;>
        simp [transactionEntry, Ledger.posted, receivedBy, spentBy, hc, hr, hs] <;>
        omega

theorem posted_minerEntry (b : Block) (a : Address) :
    Ledger.posted (minerEntry b) (some a) = minerShareOf b a := by
  unfold minerEntry minerShareOf
  cases extractMinerAddress b with
  | none => simp [Ledger.posted]
  | some miner => by_cases h : miner = a <;> simp [Ledger.posted, h]

theorem posted_minerEntry_pot (b : Block) :
    Ledger.posted (minerEntry b) none = -(minerShareOfPot b : ℤ) := by
  unfold minerEntry minerShareOfPot
  cases extractMinerAddress b with
  | none => simp [Ledger.posted]
  | some miner => simp [Ledger.posted]

end DerivedState

namespace Blockchain

open DerivedState

variable {core : Core} {now : ℕ} {c c' : Blockchain} {b : Block}

/-- An address takes no part in a block: it sends and receives no transaction, is not paid as the
miner, and no maturing ticket is its own. -/
structure Untouched (c : Blockchain) (b : Block) (a : Address) : Prop where
  sender : ∀ tx ∈ b.transactions, tx.isCoinbase = false → tx.sender ≠ a
  receiver : ∀ tx ∈ b.transactions, tx.receiver ≠ a
  ticket : ∀ t ∈ c.toSettle b.index, t.miner ≠ a

/-- The books of an appended block: its payouts, its transactions, and the miner's fees. -/
theorem updateState_ledger (hs : c.totalSupply + 1 < 2 ^ 64)
    (h : c.updateState core now b = .ok (some c')) : c'.ledger = Ledger.post c.ledger
      ((c.maturingPayouts core c.blockHashAt b.index).flatMap payoutEntry ++
        b.transactions.flatMap transactionEntry ++ minerEntry b) := by
  obtain ⟨hacc, s, payouts, hadv, rfl⟩ := updateState_eq_some.mp h
  have hv := (acceptsBlock_iff.mp hacc).2.2.2
  obtain ⟨s', payouts', hadv', hledger, -, -⟩ := @advance_exact core _ c.blockHashAt b hv hs
  cases hadv.symm.trans hadv'
  obtain ⟨-, -, -, -, hpayouts⟩ := advance_eq_ok.mp hadv
  rw [settleTickets_payouts] at hpayouts
  rw [← hpayouts]
  exact hledger

theorem payout_receiver {s : DerivedState} {hashAt : ℕ → Option Bytes} {ts : List LootTicket}
    {pot : ℕ} {p : Payout} (hp : p ∈ payoutsFrom core hashAt s pot ts) :
    ∃ t ∈ ts, t.miner = p.receiver := by
  induction ts generalizing pot with
  | nil => simp [payoutsFrom] at hp
  | cons t ts ih =>
    rw [payoutsFrom] at hp
    split at hp
    · rcases List.mem_cons.mp hp with rfl | hp
      · exact ⟨t, List.mem_cons_self, rfl⟩
      · obtain ⟨u, hu, hminer⟩ := ih hp
        exact ⟨u, List.mem_cons_of_mem _ hu, hminer⟩
    · obtain ⟨u, hu, hminer⟩ := ih hp
      exact ⟨u, List.mem_cons_of_mem _ hu, hminer⟩

theorem Untouched.sums (core : Core) {a : Address} (h : Untouched c b a) :
    spentBy b.transactions a = 0 ∧ receivedBy b.transactions a = 0 ∧
      wonBy (c.maturingPayouts core c.blockHashAt b.index) a = 0 ∧ minerShareOf b a = 0 := by
  refine ⟨?_, ?_, ?_, ?_⟩
  · rw [spentBy, List.filter_eq_nil_iff.mpr, List.map_nil, List.sum_nil]
    intro tx htx
    simpa using h.sender tx htx
  · rw [receivedBy, List.filter_eq_nil_iff.mpr, List.map_nil, List.sum_nil]
    intro tx htx
    simpa using h.receiver tx htx
  · rw [wonBy, List.filter_eq_nil_iff.mpr, List.map_nil, List.sum_nil]
    intro p hp
    obtain ⟨t, ht, hminer⟩ := payout_receiver hp
    simpa [← hminer] using h.ticket t ht
  · rw [minerShareOf, if_neg]
    intro hm
    unfold extractMinerAddress at hm
    obtain ⟨tx, htx, hm⟩ := Option.bind_eq_some_iff.mp hm
    obtain ⟨-, hreceiver⟩ := Option.ite_none_right_eq_some.mp hm
    exact h.receiver tx (List.mem_of_head? htx) (Option.some.inj hreceiver)

/-- The ledger equation of an address. -/
theorem getBalance_of_updateState (hs : c.totalSupply + 1 < 2 ^ 64)
    (h : c.updateState core now b = .ok (some c')) (a : Address) :
    (c'.getBalance a : ℤ) = c.getBalance a - spentBy b.transactions a +
      receivedBy b.transactions a + wonBy (c.maturingPayouts core c.blockHashAt b.index) a +
      minerShareOf b a := by
  have ha := congrFun (updateState_ledger hs h) (some a)
  rw [Ledger.post, posted_append, posted_append, posted_payouts, posted_transactions,
    posted_minerEntry] at ha
  simp only [ledger] at ha
  omega

/-- The ledger equation of the pot. -/
theorem pot_of_updateState (hs : c.totalSupply + 1 < 2 ^ 64)
    (h : c.updateState core now b = .ok (some c')) :
    (c'.pot : ℤ) = c.pot -
      (((c.maturingPayouts core c.blockHashAt b.index).map fun p => p.amount).sum : ℕ) +
      exactFees b.transactions - minerShareOfPot b := by
  have hpot := congrFun (updateState_ledger hs h) none
  rw [Ledger.post, posted_append, posted_append, posted_payouts_pot, posted_transactions_pot,
    posted_minerEntry_pot] at hpot
  simp only [ledger] at hpot
  omega

/-- The ledger equation of every address and of the pot, and an address that takes no part in the
block keeps its balance. -/
theorem updateState_balances (hs : c.totalSupply + 1 < 2 ^ 64)
    (h : c.updateState core now b = .ok (some c')) :
    (∀ a, (c'.getBalance a : ℤ) = c.getBalance a - spentBy b.transactions a +
      receivedBy b.transactions a + wonBy (c.maturingPayouts core c.blockHashAt b.index) a +
      minerShareOf b a) ∧
    (c'.pot : ℤ) = c.pot -
      (((c.maturingPayouts core c.blockHashAt b.index).map fun p => p.amount).sum : ℕ) +
      exactFees b.transactions - minerShareOfPot b ∧
    ∀ a, Untouched c b a → c'.getBalance a = c.getBalance a := by
  refine ⟨getBalance_of_updateState hs h, pot_of_updateState hs h, fun a ha => ?_⟩
  obtain ⟨hspent, hreceived, hwon, hshare⟩ := ha.sums core
  have := getBalance_of_updateState hs h a
  omega

/-! ### Branches -/

/-- The chain after a block that it has accepted. -/
def after (core : Core) (c : Blockchain) (b : Block) : Blockchain :=
  match c.advance core c.blockHashAt b with
  | .ok (s, payouts) => c.commitBlock b s payouts
  | .error _ => c

/-- What the transfers of blocks cost an address that sends them. -/
def spentAlong (bs : List Block) (a : Address) : ℕ := (bs.map fun b => spentBy b.transactions a).sum

/-- What blocks bring to an address, one after the other: by their transactions, the tickets that
mature, and the fees of the miner. -/
def gainsAlong (core : Core) : Blockchain → List Block → Address → ℕ
  | _, [], _ => 0
  | c, b :: bs, a => receivedBy b.transactions a +
      wonBy (c.maturingPayouts core c.blockHashAt b.index) a + minerShareOf b a +
      gainsAlong core (c.after core b) bs a

theorem Appends.after (h : Appends core c b c') : c.after core b = c' := by
  obtain ⟨_, h⟩ := h
  obtain ⟨-, s, payouts, hadv, rfl⟩ := updateState_eq_some.mp h
  simp only [Blockchain.after, hadv]

theorem Grows.foldl_after {bs : List Block} (h : Grows core c bs c') :
    bs.foldl (Blockchain.after core) c = c' := by
  induction h with
  | nil => rfl
  | cons hs _ ih => rw [List.foldl_cons, hs.after, ih]

theorem Appends.totalSupply_le (h : Appends core c b c') (hs : c.totalSupply + 1 < 2 ^ 64) :
    c'.totalSupply ≤ c.totalSupply + 1 := by
  have hcoinbase := (validBody_iff.mp h.appended.validBody).2.2.2.2.1
  obtain ⟨now, hup⟩ := h
  have hsupply := totalSupply_of_updateState hs hup
  have := minted_le_one hcoinbase
  omega

/-- The ledger equation of an address over a branch. -/
theorem Grows.balances {bs : List Block} (hs : c.totalSupply + bs.length < 2 ^ 64)
    (h : Grows core c bs c') (a : Address) :
    c'.getBalance a + spentAlong bs a = c.getBalance a + gainsAlong core c bs a := by
  induction h with
  | nil => rfl
  | @cons c d c' b bs hstep _ ih =>
    rw [List.length_cons] at hs
    have hafter := hstep.after
    have hsupply : d.totalSupply ≤ c.totalSupply + 1 := hstep.totalSupply_le (by omega)
    obtain ⟨now, hup⟩ := hstep
    have ha := getBalance_of_updateState (by omega) hup a
    have hlater := ih (by omega)
    rw [gainsAlong, hafter, spentAlong, List.map_cons, List.sum_cons]
    rw [spentAlong] at hlater
    omega

end Blockchain

namespace Sample

theorem transferBlock_balances : ∃ c',
    seededChain.updateState plainCore 1748000060 transferBlock = .ok (some c') ∧
    (∀ a, (c'.getBalance a : ℤ) = seededChain.getBalance a -
      DerivedState.spentBy transferBlock.transactions a +
      DerivedState.receivedBy transferBlock.transactions a +
      DerivedState.wonBy (seededChain.maturingPayouts plainCore seededChain.blockHashAt
        transferBlock.index) a + DerivedState.minerShareOf transferBlock a) ∧
    (c'.pot : ℤ) = seededChain.pot -
      (((seededChain.maturingPayouts plainCore seededChain.blockHashAt
        transferBlock.index).map fun p => p.amount).sum : ℕ) +
      DerivedState.exactFees transferBlock.transactions -
      DerivedState.minerShareOfPot transferBlock ∧
    ∀ a, Blockchain.Untouched seededChain transferBlock a →
      c'.getBalance a = seededChain.getBalance a := by
  have hsome : (seededChain.updateState plainCore 1748000060
      transferBlock).toOption.join.isSome = true := by
    decide +kernel
  obtain ⟨c', hc'⟩ := Option.isSome_iff_exists.mp hsome
  have hup := Fallible.toOption_eq_some.mp (Option.join_eq_some_iff.mp hc')
  exact ⟨c', hup, Blockchain.updateState_balances (by decide +kernel) hup⟩

end Sample

end Lootcoin
