import Mathlib.Data.Finset.Option
import Mathlib.Algebra.BigOperators.Option
import Lootcoin.Library.Weights
import Lootcoin.Library.Ledger
import Lootcoin.Chain.Append
import Lootcoin.PlainCore

/-! The books of a chain.  The derived state is a ledger over the integers with an account for
every address and one for the pot.  Each step of the application of a valid block, a payout, a
transaction, or the transfer of the miner's fees, posts an exact entry to this ledger, so no
operation on a balance or the pot is cut off, and only a coinbase changes the supply. -/

namespace Lootcoin

namespace DerivedState

/-- The accounts: the addresses, and `none` for the pot. -/
abbrev Account : Type := Option Address

/-- The exact balances of a state. -/
def ledger (s : DerivedState) : Account → ℤ
  | none => s.pot
  | some a => s.getBalance a

/-- A payout moves coins from the pot to the miner of the ticket. -/
def payoutEntry (p : Payout) : List (Account × ℤ) :=
  [(none, -(p.amount : ℤ)), (some p.receiver, (p.amount : ℤ))]

/-- A coinbase creates coins, and a transfer moves its amount to the receiver and its fee to the
pot. -/
def transactionEntry (tx : Transaction) : List (Account × ℤ) :=
  if tx.isCoinbase then [(some tx.receiver, (tx.amount : ℤ))]
  else [(some tx.sender, -(tx.amount + tx.fee : ℤ)), (some tx.receiver, (tx.amount : ℤ)),
    (none, (tx.fee : ℤ))]

/-- The exact sum of the fees of a list of transactions. -/
def exactFees (txs : List Transaction) : ℕ :=
  ((txs.filter fun tx => !tx.isCoinbase).map fun tx => tx.fee).sum

/-- Half of the exact fees moves from the pot to the miner, if the block names one. -/
def minerEntry (b : Block) : List (Account × ℤ) :=
  match extractMinerAddress b with
  | none => []
  | some miner => [(none, -((exactFees b.transactions / 2 : ℕ) : ℤ)),
      (some miner, ((exactFees b.transactions / 2 : ℕ) : ℤ))]

theorem net_payoutEntries (ps : List Payout) : Ledger.net (ps.flatMap payoutEntry) = 0 := by
  induction ps with
  | nil => rfl
  | cons p ps ih => simp [List.flatMap_cons, ih, payoutEntry]

theorem net_transactionEntry_coinbase {tx : Transaction} (h : tx.isCoinbase = true) :
    Ledger.net (transactionEntry tx) = tx.amount := by
  simp [transactionEntry, h]

theorem net_transactionEntry_transfer {tx : Transaction} (h : tx.isCoinbase = false) :
    Ledger.net (transactionEntry tx) = 0 := by
  simp [transactionEntry, h]

theorem net_minerEntry (b : Block) : Ledger.net (minerEntry b) = 0 := by
  unfold minerEntry
  cases extractMinerAddress b <;> simp

/-- When an entry accounts for the difference of two states, the supply changes by its net. -/
theorem totalSupply_of_ledger {s s' : DerivedState} {e : List (Account × ℤ)}
    (h : s'.ledger = Ledger.post s.ledger e) :
    (s'.totalSupply : ℤ) = s.totalSupply + Ledger.net e := by
  let S : Finset Address := s.balances.keys.toFinset ∪ s'.balances.keys.toFinset ∪
    (e.filterMap Prod.fst).toFinset
  have hsum : ∀ t : DerivedState, (∀ k ∈ t.balances.keys, k ∈ S) →
      (t.totalSupply : ℤ) = ∑ a ∈ S.insertNone, t.ledger a := by
    intro t ht
    rw [Finset.sum_insertNone, totalSupply, Nat.cast_add, HashTable.total_eq_sum ht, add_comm,
      Nat.cast_sum]
    rfl
  rw [hsum s fun k hk => by simp [S, hk], hsum s' fun k hk => by simp [S, hk], h]
  apply Ledger.sum_post _
  intro p hp
  obtain ⟨_ | a, v⟩ := p
  · exact Finset.none_mem_insertNone
  · apply Finset.some_mem_insertNone.mpr
    simp only [S, Finset.mem_union, List.mem_toFinset, List.mem_filterMap]
    exact .inr ⟨(some a, v), hp, rfl⟩

/-- The balances and the pot decide the ledger. -/
theorem ledger_congr {s s' : DerivedState} (hb : s'.balances = s.balances) (hp : s'.pot = s.pot) :
    s'.ledger = s.ledger := by
  funext a
  cases a <;> simp [ledger, getBalance, hb, hp]

theorem getBalance_add_pot_le (s : DerivedState) (a : Address) :
    s.getBalance a + s.pot ≤ s.totalSupply :=
  Nat.add_le_add_right (HashTable.getD_le_total s.balances a) _

/-! ### One step at a time -/

theorem ledger_credit {s : DerivedState} {a : Address} {v : ℕ} (h : s.getBalance a + v < 2 ^ 64) :
    ledger { s with balances := HashTable.addAt 64 s.balances a v } =
      Ledger.post s.ledger [(some a, (v : ℤ))] := by
  funext x
  cases x with
  | none => simp [ledger, Ledger.post, Ledger.posted]
  | some x =>
    have := HashTable.getD_addAt h x
    simp only [ledger, getBalance, this, Ledger.post, Ledger.posted, List.map_cons, List.map_nil,
      List.sum_cons, List.sum_nil, add_zero, Option.some.injEq, Nat.cast_add]
    by_cases hx : x = a
    · simp [hx]
    · simp [hx, Ne.symm hx]

theorem ledger_pot (s : DerivedState) (p : ℕ) :
    ledger { s with pot := p } = Ledger.post s.ledger [(none, (p : ℤ) - s.pot)] := by
  funext x
  cases x with
  | none => simp [ledger, Ledger.post, Ledger.posted]
  | some x => simp [ledger, getBalance, Ledger.post, Ledger.posted]

theorem ledger_setBalance (s : DerivedState) (a : Address) (v : ℕ) :
    ledger { s with balances := s.balances.insert a v } =
      Ledger.post s.ledger [(some a, (v : ℤ) - s.getBalance a)] := by
  funext x
  cases x with
  | none => simp [ledger, Ledger.post, Ledger.posted]
  | some x =>
    by_cases hx : x = a
    · subst hx
      simp [ledger, getBalance, Ledger.post, Ledger.posted]
    · simp [ledger, getBalance, Ledger.post, Ledger.posted, hx, Ne.symm hx]

/-- A settlement posts the payout that it adds, exactly. -/
theorem settleTicket_ledger (core : Core) (hashAt : ℕ → Option Bytes)
    (acc : DerivedState × List Payout) (t : LootTicket) (h : acc.1.totalSupply < 2 ^ 64) :
    ∃ ps, (settleTicket core hashAt acc t).2 = acc.2 ++ ps ∧
      (settleTicket core hashAt acc t).1.ledger =
        Ledger.post acc.1.ledger (ps.flatMap payoutEntry) := by
  obtain ⟨s, payouts⟩ := acc
  simp only [settleTicket]
  split
  · refine ⟨[_], rfl, ?_⟩
    set payout := min (s.computeTicketReward core hashAt t.createdHeight t).1 s.pot with hpayout
    have hle : payout ≤ s.pot := Nat.min_le_right _ _
    have hbound := s.getBalance_add_pot_le t.miner
    have hcredit := ledger_credit (s := { s with pot := s.pot - payout }) (a := t.miner)
      (v := payout) (lt_of_le_of_lt (Nat.le_trans (Nat.add_le_add_left hle _) hbound) h)
    rw [hcredit, ledger_pot, ← Ledger.post_append]
    simp [payoutEntry, Nat.cast_sub hle]
  · exact ⟨[], by simp, by simp⟩

/-- A settlement of several tickets posts its payouts, exactly, and keeps the supply. -/
theorem foldl_settleTicket_ledger (core : Core) (hashAt : ℕ → Option Bytes) (ts : List LootTicket)
    (acc : DerivedState × List Payout) (h : acc.1.totalSupply < 2 ^ 64) :
    ∃ ps, (ts.foldl (settleTicket core hashAt) acc).2 = acc.2 ++ ps ∧
      (ts.foldl (settleTicket core hashAt) acc).1.ledger =
        Ledger.post acc.1.ledger (ps.flatMap payoutEntry) := by
  induction ts generalizing acc with
  | nil => exact ⟨[], by simp, by simp⟩
  | cons t ts ih =>
    obtain ⟨ps, hps, hledger⟩ := settleTicket_ledger core hashAt acc t h
    have hsupply := totalSupply_of_ledger hledger
    rw [net_payoutEntries, add_zero, Nat.cast_inj] at hsupply
    obtain ⟨qs, hqs, hledger'⟩ := ih (settleTicket core hashAt acc t) (hsupply ▸ h)
    refine ⟨ps ++ qs, ?_, ?_⟩
    · rw [List.foldl_cons, hqs, hps, List.append_assoc]
    · rw [List.foldl_cons, hledger', hledger, List.flatMap_append, Ledger.post_append]

/-! ### Transactions -/

/-- What pre-validation asks of a transfer, and what it remembers of it. -/
theorem prevalidateTransaction_transfer {core : Core} {s : DerivedState} {acc acc' : Prevalidation}
    {tx : Transaction} (hc : tx.isCoinbase = false) :
    prevalidateTransaction core s acc tx = some acc' ↔
      core.verify tx = true ∧ minTxFee ≤ tx.fee ∧ (core.decodeAddress tx.receiver).isSome ∧
      tx.signature ∉ s.confirmedSignatures ∧ tx.signature ∉ acc.blockSigs ∧
      tx.amount + tx.fee < 2 ^ 64 ∧
      tx.amount + tx.fee ≤ s.getBalance tx.sender - HashTable.getD acc.pendingDebits tx.sender 0 ∧
      acc' = {
        pendingDebits := HashTable.addAt 64 acc.pendingDebits tx.sender (tx.amount + tx.fee)
        blockSigs := insert tx.signature acc.blockSigs } := by
  unfold prevalidateTransaction
  rw [if_neg (by simp [hc])]
  constructor
  · intro h
    split at h
    · cases h
    rename_i hverify
    split at h
    · cases h
    rename_i hfee
    split at h
    · cases h
    rename_i hdecode
    split at h
    · cases h
    rename_i hsig
    rw [not_or] at hsig
    simp only at h
    split at h
    · cases h
    rename_i total htotal
    obtain ⟨hlt, rfl⟩ := Word.checkedAdd_eq_some.mp htotal
    split at h
    · cases h
    rename_i hcover
    cases h
    exact ⟨by simpa using hverify, Nat.not_lt.mp hfee, by simpa [Option.isSome_iff_ne_none] using
      hdecode, hsig.1, hsig.2, hlt, Nat.not_lt.mp hcover, rfl⟩
  · rintro ⟨hverify, hfee, hdecode, hsig, hsig', hlt, hcover, rfl⟩
    rw [if_neg (by simp [hverify]), if_neg (Nat.not_lt.mpr hfee),
      if_neg (by simpa [Option.isSome_iff_ne_none] using hdecode),
      if_neg (not_or.mpr ⟨hsig, hsig'⟩)]
    simp only [Word.checkedAdd_eq_some.mpr ⟨hlt, rfl⟩]
    rw [if_neg (Nat.not_lt.mpr hcover)]

theorem prevalidateTransaction_coinbase {core : Core} {s : DerivedState} {acc : Prevalidation}
    {tx : Transaction} (hc : tx.isCoinbase = true) :
    prevalidateTransaction core s acc tx = some acc := by
  simp [prevalidateTransaction, hc]

/-- A transfer that its sender can cover is applied exactly, and its signature recorded. -/
theorem applyTransaction_transfer {s : DerivedState} {tx : Transaction}
    (hc : tx.isCoinbase = false) (hlt : tx.amount + tx.fee < 2 ^ 64)
    (hcover : tx.amount + tx.fee ≤ s.getBalance tx.sender) (h : s.totalSupply < 2 ^ 64) :
    (s.applyTransaction tx).ledger = Ledger.post s.ledger (transactionEntry tx) ∧
      (s.applyTransaction tx).confirmedSignatures = insert tx.signature s.confirmedSignatures := by
  unfold applyTransaction
  rw [if_neg (by simp [hc])]
  simp only [Word.checkedAdd_eq_some.mpr ⟨hlt, rfl⟩]
  rw [if_neg (Nat.not_lt.mpr hcover)]
  refine ⟨?_, rfl⟩
  -- debit the sender, credit the receiver, and collect the fee, one account at a time
  let debited : DerivedState :=
    { s with
      balances := (s.balances.insert tx.sender (s.getBalance tx.sender)).insert tx.sender
        (s.getBalance tx.sender - (tx.amount + tx.fee)) }
  have hdebit : debited.ledger =
      Ledger.post s.ledger [(some tx.sender, -(tx.amount + tx.fee : ℤ))] := by
    have htwice := ledger_setBalance
      { s with balances := s.balances.insert tx.sender (s.getBalance tx.sender) } tx.sender
      (s.getBalance tx.sender - (tx.amount + tx.fee))
    have honce := ledger_setBalance s tx.sender (s.getBalance tx.sender)
    have hsame : getBalance { s with
        balances := s.balances.insert tx.sender (s.getBalance tx.sender) } tx.sender =
        s.getBalance tx.sender := by simp [getBalance]
    rw [hsame] at htwice
    rw [show debited.ledger = _ from htwice, honce, ← Ledger.post_append, Nat.cast_sub hcover]
    funext a
    simp [Ledger.post, Ledger.posted]
  have hsupply := totalSupply_of_ledger hdebit
  simp only [Ledger.net_cons, Ledger.net_nil, add_zero] at hsupply
  have hreceiver := debited.getBalance_add_pot_le tx.receiver
  have hcredit := ledger_credit (s := debited) (a := tx.receiver) (v := tx.amount) (by omega)
  have hpot : Word.saturatingAdd 64 s.pot tx.fee = s.pot + tx.fee :=
    Word.saturatingAdd_of_lt (by
      have : debited.pot = s.pot := rfl
      omega)
  have hfee := ledger_pot { debited with
    balances := HashTable.addAt 64 debited.balances tx.receiver tx.amount } (s.pot + tx.fee)
  rw [hpot]
  apply Eq.trans hfee
  rw [hcredit, hdebit, ← Ledger.post_append, ← Ledger.post_append]
  simp [transactionEntry, hc, debited]

theorem applyTransaction_coinbase {s : DerivedState} {tx : Transaction}
    (hc : tx.isCoinbase = true) (h : s.totalSupply + tx.amount < 2 ^ 64) :
    (s.applyTransaction tx).ledger = Ledger.post s.ledger (transactionEntry tx) ∧
      (s.applyTransaction tx).confirmedSignatures = s.confirmedSignatures := by
  unfold applyTransaction
  rw [if_pos hc]
  have hbound := s.getBalance_add_pot_le tx.receiver
  refine ⟨?_, rfl⟩
  rw [ledger_credit (by omega), transactionEntry, if_pos hc]

/-- Pre-validation has debited no sender more than it had at the start of the block, and a running
state holds what is left of that. -/
structure Covered (start : DerivedState) (acc : Prevalidation) (s : DerivedState) : Prop where
  debits : ∀ a, HashTable.getD acc.pendingDebits a 0 ≤ start.getBalance a
  balances : ∀ a, start.getBalance a ≤ s.getBalance a + HashTable.getD acc.pendingDebits a 0

theorem Covered.of_le {start s : DerivedState} (h : ∀ a, start.getBalance a ≤ s.getBalance a) :
    Covered start Prevalidation.start s := by
  have hzero : ∀ a : Address, HashTable.getD (∅ : HashTable Address ℕ) a 0 = 0 := by
    simp [HashTable.getD]
  refine ⟨fun a => ?_, fun a => ?_⟩ <;> simp only [Prevalidation.start, hzero]
  · exact Nat.zero_le _
  · exact h a

/-- A pre-validated transfer is applied exactly, and what pre-validation counts on stays there. -/
theorem Covered.transfer {core : Core} {start s : DerivedState} {acc acc' : Prevalidation}
    {tx : Transaction} (hcov : Covered start acc s) (hc : tx.isCoinbase = false)
    (hpre : prevalidateTransaction core start acc tx = some acc')
    (hstart : start.totalSupply < 2 ^ 64) (hs : s.totalSupply < 2 ^ 64) :
    (s.applyTransaction tx).ledger = Ledger.post s.ledger (transactionEntry tx) ∧
      (s.applyTransaction tx).confirmedSignatures = insert tx.signature s.confirmedSignatures ∧
      Covered start acc' (s.applyTransaction tx) := by
  obtain ⟨-, -, -, -, -, hlt, hcover, rfl⟩ := (prevalidateTransaction_transfer hc).mp hpre
  have hdebit := hcov.debits tx.sender
  have hbalance := hcov.balances tx.sender
  obtain ⟨hledger, hsig⟩ := applyTransaction_transfer hc hlt (by omega) hs
  have hbound := start.getBalance_add_pot_le tx.sender
  have hadd : ∀ a, HashTable.getD (HashTable.addAt 64 acc.pendingDebits tx.sender
      (tx.amount + tx.fee)) a 0 = HashTable.getD acc.pendingDebits a 0 +
        if a = tx.sender then tx.amount + tx.fee else 0 :=
    HashTable.getD_addAt (by omega)
  refine ⟨hledger, hsig, fun a => ?_, fun a => ?_⟩
  · have := hcov.debits a
    simp only [hadd]
    split
    · rename_i ha
      subst ha
      omega
    · omega
  · have := hcov.balances a
    have hnew := congrFun hledger (some a)
    simp only [ledger, Ledger.post, Ledger.posted, transactionEntry, hc, Bool.false_eq_true,
      if_false, List.map_cons, List.map_nil, List.sum_cons, List.sum_nil, Option.some.injEq,
      reduceCtorEq] at hnew
    rw [hadd]
    by_cases ha : a = tx.sender
    · subst ha
      rw [if_pos rfl] at hnew ⊢
      split at hnew <;> omega
    · rw [if_neg (Ne.symm ha)] at hnew
      rw [if_neg ha]
      split at hnew <;> omega

/-- Pre-validated transfers are applied exactly, one after the other. -/
theorem Covered.transfers {core : Core} {start s : DerivedState} {acc acc' : Prevalidation}
    {txs : List Transaction} (hcov : Covered start acc s) (hc : ∀ tx ∈ txs, tx.isCoinbase = false)
    (hpre : txs.foldlM (prevalidateTransaction core start) acc = some acc')
    (hstart : start.totalSupply < 2 ^ 64) (hs : s.totalSupply < 2 ^ 64) :
    ∃ s', s.applyTransactions txs = .ok s' ∧
      s'.ledger = Ledger.post s.ledger (txs.flatMap transactionEntry) ∧
      s'.confirmedSignatures =
        s.confirmedSignatures ∪ (txs.map fun tx => tx.signature).toFinset ∧
      Covered start acc' s' := by
  induction txs generalizing acc s with
  | nil =>
    obtain rfl : acc = acc' := by simpa using hpre
    exact ⟨s, rfl, by simp, by simp, hcov⟩
  | cons tx txs ih =>
    rw [List.foldlM_cons, Option.bind_eq_bind, Option.bind_eq_some_iff] at hpre
    obtain ⟨mid, hmid, hpre⟩ := hpre
    have htx := hc tx List.mem_cons_self
    obtain ⟨hledger, hsig, hcov'⟩ := hcov.transfer htx hmid hstart hs
    have hsupply := totalSupply_of_ledger hledger
    rw [net_transactionEntry_transfer htx, add_zero, Nat.cast_inj] at hsupply
    obtain ⟨s', happly, hledger', hsig', hcov''⟩ :=
      ih hcov' (fun t ht => hc t (List.mem_cons_of_mem _ ht)) hpre (hsupply ▸ hs)
    refine ⟨s', ?_, ?_, ?_, hcov''⟩
    · rw [applyTransactions, if_neg (by simp [hsig]), happly]
    · rw [hledger', hledger, List.flatMap_cons, Ledger.post_append]
    · rw [hsig', hsig, List.map_cons, List.toFinset_cons, Finset.insert_union,
        Finset.union_insert]

/-! ### Blocks -/

/-- The signatures of the transfers in a list of transactions. -/
def transferSignatures (txs : List Transaction) : Finset Bytes :=
  ((txs.filter fun tx => !tx.isCoinbase).map fun tx => tx.signature).toFinset

theorem transferSignatures_eq_of_transfers {txs : List Transaction}
    (hc : ∀ tx ∈ txs, tx.isCoinbase = false) :
    transferSignatures txs = (txs.map fun tx => tx.signature).toFinset := by
  rw [transferSignatures, List.filter_eq_self.mpr fun tx htx => by simp [hc tx htx]]

/-- The transactions of a block create as many coins as the coinbase says. -/
theorem net_transactions {b : Block} (hrest : ∀ tx ∈ b.transactions.drop 1, tx.isCoinbase = false) :
    Ledger.net (b.transactions.flatMap transactionEntry) = minted b := by
  have htransfers : ∀ txs : List Transaction, (∀ tx ∈ txs, tx.isCoinbase = false) →
      Ledger.net (txs.flatMap transactionEntry) = 0 := by
    intro txs
    induction txs with
    | nil => simp
    | cons tx txs ih =>
      intro h
      rw [List.flatMap_cons, Ledger.net_append, ih fun t ht => h t (List.mem_cons_of_mem _ ht),
        net_transactionEntry_transfer (h tx List.mem_cons_self), add_zero]
  unfold minted
  cases htxs : b.transactions with
  | nil => simp
  | cons tx txs =>
    rw [htxs] at hrest
    rw [List.flatMap_cons, Ledger.net_append, htransfers txs (by simpa using hrest), add_zero]
    cases hc : tx.isCoinbase with
    | true => simp [net_transactionEntry_coinbase hc, Option.filter, hc]
    | false => simp [net_transactionEntry_transfer hc, Option.filter, hc]

/-- The transactions of a block add their fees to the pot. -/
theorem posted_transactions_pot (txs : List Transaction) :
    Ledger.posted (txs.flatMap transactionEntry) none = exactFees txs := by
  induction txs with
  | nil => rfl
  | cons tx txs ih =>
    have happend : ∀ e e' : List (Account × ℤ), Ledger.posted (e ++ e') none =
        Ledger.posted e none + Ledger.posted e' none := by simp [Ledger.posted]
    rw [List.flatMap_cons, happend, ih]
    cases hc : tx.isCoinbase <;> simp [exactFees, transactionEntry, Ledger.posted, hc]

/-- Payouts only add to the balances of addresses. -/
theorem posted_payouts_nonneg (ps : List Payout) (a : Address) :
    0 ≤ Ledger.posted (ps.flatMap payoutEntry) (some a) := by
  apply List.sum_nonneg
  intro v hv
  simp only [payoutEntry, List.map_flatMap, List.map_cons, List.map_nil, List.mem_flatMap,
    List.mem_cons, List.not_mem_nil, or_false, reduceCtorEq, if_false, Option.some.injEq] at hv
  obtain ⟨p, -, rfl | rfl⟩ := hv
  · exact le_rfl
  · split
    · exact Int.natCast_nonneg _
    · exact le_rfl

section Blocks

variable {core : Core} {start s : DerivedState}

/-- The transactions of a pre-validated list, of which only the first may be a coinbase and creates
one coin at most, are applied exactly. -/
theorem applyTransactions_exact {txs : List Transaction} {acc : Prevalidation}
    (hrest : ∀ tx ∈ txs.drop 1, tx.isCoinbase = false)
    (hcoin : ∀ tx ∈ txs.head?, tx.isCoinbase = true → tx.amount ≤ 1)
    (hpre : start.prevalidate core txs = some acc)
    (hle : ∀ a, start.getBalance a ≤ s.getBalance a) (hstart : start.totalSupply < 2 ^ 64)
    (hs : s.totalSupply + 1 < 2 ^ 64) :
    ∃ s', s.applyTransactions txs = .ok s' ∧
      s'.ledger = Ledger.post s.ledger (txs.flatMap transactionEntry) ∧
      s'.confirmedSignatures = s.confirmedSignatures ∪ transferSignatures txs ∧
      ∀ a, HashTable.getD acc.pendingDebits a 0 ≤ start.getBalance a := by
  cases txs with
  | nil =>
    obtain rfl : Prevalidation.start = acc := by simpa [prevalidate] using hpre
    exact ⟨s, rfl, by simp, by simp [transferSignatures], (Covered.of_le hle).debits⟩
  | cons tx txs =>
    rw [prevalidate, List.foldlM_cons, Option.bind_eq_bind, Option.bind_eq_some_iff] at hpre
    obtain ⟨mid, hmid, hpre⟩ := hpre
    cases hc : tx.isCoinbase with
    | true =>
      rw [prevalidateTransaction_coinbase hc, Option.some.injEq] at hmid
      subst hmid
      have hamount := hcoin tx rfl hc
      obtain ⟨hledger, hsig⟩ := applyTransaction_coinbase (s := s) hc (by omega)
      have hsupply := totalSupply_of_ledger hledger
      rw [net_transactionEntry_coinbase hc] at hsupply
      have hle' : ∀ a, start.getBalance a ≤ (s.applyTransaction tx).getBalance a := by
        intro a
        have hnew := congrFun hledger (some a)
        have := hle a
        simp only [ledger, Ledger.post, Ledger.posted, transactionEntry, hc, if_true,
          List.map_cons, List.map_nil, List.sum_cons, List.sum_nil] at hnew
        split at hnew <;> omega
      obtain ⟨s', happly, hledger', hsig', hcov⟩ :=
        (Covered.of_le hle').transfers (by simpa using hrest) hpre hstart (by omega)
      refine ⟨s', ?_, ?_, ?_, hcov.debits⟩
      · rw [applyTransactions, if_neg (by simp [hc]), happly]
      · rw [hledger', hledger, List.flatMap_cons, Ledger.post_append]
      · rw [hsig', hsig, ← transferSignatures_eq_of_transfers (by simpa using hrest)]
        simp [transferSignatures, hc]
    | false =>
      have hall : ∀ t ∈ tx :: txs, t.isCoinbase = false := by
        intro t ht
        rcases List.mem_cons.mp ht with rfl | ht
        · exact hc
        · exact hrest t ht
      have hpre' : (tx :: txs).foldlM (prevalidateTransaction core start) Prevalidation.start =
          some acc := by
        rw [List.foldlM_cons, hmid]
        exact hpre
      obtain ⟨s', happly, hledger, hsig, hcov⟩ :=
        (Covered.of_le hle).transfers hall hpre' hstart (by omega)
      rw [← transferSignatures_eq_of_transfers hall] at hsig
      exact ⟨s', happly, hledger, hsig, hcov.debits⟩

/-- The miner's half of the fees is posted exactly. -/
theorem payMiner_ledger {b : Block} (hfees : exactFees b.transactions ≤ s.pot)
    (hs : s.totalSupply < 2 ^ 64) : totalBlockFees b.transactions = exactFees b.transactions ∧
      (s.payMiner b).ledger = Ledger.post s.ledger (minerEntry b) := by
  have hpot : s.pot ≤ s.totalSupply := Nat.le_add_left _ _
  have htotal : totalBlockFees b.transactions = exactFees b.transactions := by
    rw [totalBlockFees, Word.saturatingSum_eq, Word.maxValue]
    exact Nat.min_eq_left (by unfold exactFees at hfees; omega)
  refine ⟨htotal, ?_⟩
  have hshare : minerFeeShare b = exactFees b.transactions / 2 := by rw [minerFeeShare, htotal]
  unfold payMiner minerEntry
  rw [hshare]
  cases hm : extractMinerAddress b with
  | none => simp
  | some miner =>
    by_cases hzero : exactFees b.transactions / 2 = 0
    · simp only [hzero, lt_irrefl, if_false, Nat.cast_zero, neg_zero]
      funext a
      simp [Ledger.post, Ledger.posted]
    · rw [if_pos (Nat.pos_of_ne_zero hzero)]
      have hbound := s.getBalance_add_pot_le miner
      have hcredit := ledger_credit (s := { s with pot := s.pot - exactFees b.transactions / 2 })
        (a := miner) (v := exactFees b.transactions / 2) (by
          have : getBalance { s with pot := s.pot - exactFees b.transactions / 2 } miner =
            s.getBalance miner := rfl
          omega)
      apply Eq.trans hcredit
      rw [ledger_pot, ← Ledger.post_append, Nat.cast_sub (by omega)]
      simp

/-- Every step of the application of `b` to `s` posts an exact entry: the settlements of the first
tickets, the first transactions, and the miner's fees.  The fees are not cut off, and
pre-validation debits no sender more than it has. -/
structure ExactBooks (core : Core) (hashAt : ℕ → Option Bytes) (s : DerivedState) (b : Block) :
    Prop where
  settlement : ∀ ts, ts <+: s.toSettle b.index →
    let before : DerivedState := { s with pendingTickets := s.stillPending b.index }
    let after := ts.foldl (settleTicket core hashAt) (before, [])
    after.1.ledger = Ledger.post s.ledger (after.2.flatMap payoutEntry)
  transactions : ∀ txs, txs <+: b.transactions → ∃ s',
    (s.settleTickets core hashAt b.index).1.applyTransactions txs = .ok s' ∧
    s'.ledger = Ledger.post (s.settleTickets core hashAt b.index).1.ledger
      (txs.flatMap transactionEntry) ∧
    s'.confirmedSignatures = s.confirmedSignatures ∪ transferSignatures txs
  fees : totalBlockFees b.transactions = exactFees b.transactions
  miner : ∀ s', (s.settleTickets core hashAt b.index).1.applyTransactions b.transactions = .ok s' →
    (s'.payMiner b).ledger = Ledger.post s'.ledger (minerEntry b)
  prevalidation : ∀ txs, txs <+: b.transactions → ∃ acc, s.prevalidate core txs = some acc ∧
    ∀ a, HashTable.getD acc.pendingDebits a 0 ≤ s.getBalance a

theorem prevalidate_prefix {txs txs' : List Transaction} {acc : Prevalidation} (h : txs <+: txs')
    (hpre : s.prevalidate core txs' = some acc) : ∃ acc', s.prevalidate core txs = some acc' := by
  obtain ⟨rest, rfl⟩ := h
  rw [prevalidate, List.foldlM_append, Option.bind_eq_bind, Option.bind_eq_some_iff] at hpre
  exact ⟨hpre.choose, hpre.choose_spec.1⟩

theorem amount_le_one_of_validCoinbase {b : Block} (h : validCoinbase core b = true) :
    ∀ tx ∈ b.transactions.head?, tx.isCoinbase = true → tx.amount ≤ 1 := by
  intro tx htx hc
  rw [Option.mem_def] at htx
  simp only [validCoinbase, htx, hc, Bool.not_true, Bool.false_or, Bool.and_eq_true,
    decide_eq_true_eq] at h
  exact h.1.1

theorem minted_le_one {b : Block} (h : validCoinbase core b = true) : minted b ≤ 1 := by
  unfold minted
  cases htx : b.transactions.head? with
  | none => simp
  | some tx =>
    cases hc : tx.isCoinbase with
    | true =>
      simpa [Option.filter, hc] using amount_le_one_of_validCoinbase h tx htx hc
    | false => simp [Option.filter, hc]

theorem settleTickets_ledger {hashAt : ℕ → Option Bytes} {b : Block}
    (hs : s.totalSupply < 2 ^ 64) :
    (s.settleTickets core hashAt b.index).1.ledger = Ledger.post s.ledger
      ((s.settleTickets core hashAt b.index).2.flatMap payoutEntry) := by
  obtain ⟨ps, hps, hledger⟩ := foldl_settleTicket_ledger core hashAt (s.toSettle b.index)
    ({ s with pendingTickets := s.stillPending b.index }, []) hs
  rw [List.nil_append] at hps
  rw [settleTickets, hledger, hps]
  rfl

theorem settleTickets_totalSupply (hashAt : ℕ → Option Bytes) (b : Block)
    (hs : s.totalSupply < 2 ^ 64) :
    (s.settleTickets core hashAt b.index).1.totalSupply = s.totalSupply := by
  have hsettle : (s.settleTickets core hashAt b.index).1.ledger = Ledger.post s.ledger
      ((s.settleTickets core hashAt b.index).2.flatMap payoutEntry) := settleTickets_ledger hs
  have hsupply := totalSupply_of_ledger hsettle
  rwa [net_payoutEntries, add_zero, Nat.cast_inj] at hsupply

/-- The books of a valid block are exact. -/
theorem exactBooks {hashAt : ℕ → Option Bytes} {b : Block} (hv : s.validBody core b = true)
    (hs : s.totalSupply + 1 < 2 ^ 64) : ExactBooks core hashAt s b := by
  obtain ⟨-, -, -, hrest, hcoin, -, acc, hpre⟩ := validBody_iff.mp hv
  have hsettle : (s.settleTickets core hashAt b.index).1.ledger = Ledger.post s.ledger
      ((s.settleTickets core hashAt b.index).2.flatMap payoutEntry) :=
    settleTickets_ledger (Nat.lt_of_succ_lt hs)
  have hsupply : (s.settleTickets core hashAt b.index).1.totalSupply = s.totalSupply :=
    settleTickets_totalSupply hashAt b (Nat.lt_of_succ_lt hs)
  have hle : ∀ a, s.getBalance a ≤ (s.settleTickets core hashAt b.index).1.getBalance a := by
    intro a
    have hnew := congrFun hsettle (some a)
    have := posted_payouts_nonneg (s.settleTickets core hashAt b.index).2 a
    simp only [ledger, Ledger.post] at hnew
    omega
  have hprefix : ∀ txs, txs <+: b.transactions → ∃ acc, s.prevalidate core txs = some acc ∧ ∃ s',
      (s.settleTickets core hashAt b.index).1.applyTransactions txs = .ok s' ∧
      s'.ledger = Ledger.post (s.settleTickets core hashAt b.index).1.ledger
        (txs.flatMap transactionEntry) ∧
      s'.confirmedSignatures = s.confirmedSignatures ∪ transferSignatures txs ∧
      ∀ a, HashTable.getD acc.pendingDebits a 0 ≤ s.getBalance a := by
    intro txs htxs
    obtain ⟨acc', hacc'⟩ := prevalidate_prefix htxs hpre
    have hsigs := (settleTickets_sameButCoins core hashAt s b.index).confirmedSignatures
    refine ⟨acc', hacc', ?_⟩
    rw [← show _ = s.confirmedSignatures from hsigs]
    refine applyTransactions_exact (fun tx htx => hrest tx ?_) (fun tx htx hc => ?_) hacc' hle
      (Nat.lt_of_succ_lt hs) (hsupply ▸ hs)
    · exact (List.IsPrefix.drop htxs 1).subset htx
    · obtain ⟨rest, hrest'⟩ := htxs
      refine amount_le_one_of_validCoinbase hcoin tx ?_ hc
      rw [← hrest', List.head?_append]
      simp [Option.mem_def.mp htx]
  obtain ⟨-, -, applied, happly, hledger, -, -⟩ := hprefix _ List.prefix_rfl
  have hpot := congrFun hledger none
  simp only [ledger, Ledger.post, posted_transactions_pot] at hpot
  have happlied := totalSupply_of_ledger hledger
  rw [net_transactions hrest] at happlied
  have hminted := minted_le_one hcoin
  have hpaid := payMiner_ledger (s := applied) (b := b) (by omega) (by omega)
  refine ⟨fun ts hts => ?_, fun txs htxs => ?_, hpaid.1, fun s' hs' => ?_, fun txs htxs => ?_⟩
  · obtain ⟨ps, hps, hledger'⟩ := foldl_settleTicket_ledger core hashAt ts
      ({ s with pendingTickets := s.stillPending b.index }, []) (Nat.lt_of_succ_lt hs)
    rw [List.nil_append] at hps
    simp only [hps, hledger']
    rfl
  · obtain ⟨-, -, s', happly', hledger', hsigs', -⟩ := hprefix txs htxs
    exact ⟨s', happly', hledger', hsigs'⟩
  · cases happly.symm.trans hs'
    exact hpaid.2
  · obtain ⟨acc', hacc', -, -, -, -, hdebits⟩ := hprefix txs htxs
    exact ⟨acc', hacc', hdebits⟩

/-- A valid block is applied, and posts its payouts, its transactions, and the miner's fees. -/
theorem advance_exact {hashAt : ℕ → Option Bytes} {b : Block} (hv : s.validBody core b = true)
    (hs : s.totalSupply + 1 < 2 ^ 64) : ∃ s' payouts, s.advance core hashAt b = .ok (s', payouts) ∧
      s'.ledger = Ledger.post s.ledger (payouts.flatMap payoutEntry ++
        b.transactions.flatMap transactionEntry ++ minerEntry b) ∧
      s'.totalSupply = s.totalSupply + minted b ∧
      s'.confirmedSignatures = s.confirmedSignatures ∪ transferSignatures b.transactions := by
  have books : ExactBooks core hashAt s b := exactBooks hv hs
  obtain ⟨applied, happly, hledger, hsigs⟩ := books.transactions _ List.prefix_rfl
  have hpaid := books.miner applied happly
  rw [hledger, settleTickets_ledger (Nat.lt_of_succ_lt hs), ← Ledger.post_append,
    ← Ledger.post_append] at hpaid
  have hsupply := totalSupply_of_ledger hpaid
  rw [Ledger.net_append, Ledger.net_append, net_payoutEntries, net_minerEntry,
    net_transactions (validBody_iff.mp hv).2.2.2.1] at hsupply
  have hminted : (applied.payMiner b).totalSupply = s.totalSupply + minted b := by omega
  refine ⟨_, _, advance_eq_ok.mpr ⟨applied, happly, hminted, rfl, rfl⟩, ?_, ?_, ?_⟩
  · rw [List.append_assoc, ← hpaid]
    exact ledger_congr (by simp [accumulateWork, issueTicket])
      (by simp [accumulateWork, issueTicket])
  · rw [← hminted]
    simp [totalSupply, accumulateWork, issueTicket]
  · rw [← hsigs, ← (applied.payMiner_sameButCoins b).confirmedSignatures]
    simp [accumulateWork, issueTicket]

end Blocks

end DerivedState

namespace Blockchain

open DerivedState

theorem totalSupply_of_updateState {core : Core} {now : ℕ} {c c' : Blockchain} {b : Block}
    (hs : c.totalSupply + 1 < 2 ^ 64) (h : c.updateState core now b = .ok (some c')) :
    c'.totalSupply = c.totalSupply + minted b := by
  obtain ⟨hacc, s, payouts, hadv, rfl⟩ := updateState_eq_some.mp h
  obtain ⟨s', payouts', hadv', -, hsupply, -⟩ :=
    @advance_exact core _ c.blockHashAt b (acceptsBlock_iff.mp hacc).2.2.2 hs
  cases hadv.symm.trans hadv'
  exact hsupply

/-- Where one more coin fits in the supply, `updateState` never aborts, on any block: it refuses
the block, or it applies every transfer of the block, with exact books, and the supply grows by
the coinbase. -/
theorem updateState_conserves (core : Core) (now : ℕ) (c : Blockchain) (b : Block)
    (hs : c.totalSupply + 1 < 2 ^ 64) :
    c.updateState core now b = .ok none ∨
      ∃ c', c.updateState core now b = .ok (some c') ∧
        c'.totalSupply = c.totalSupply + minted b ∧
        c'.confirmedSignatures = c.confirmedSignatures ∪ transferSignatures b.transactions ∧
        ExactBooks core c.blockHashAt c.toDerivedState b := by
  cases hacc : c.acceptsBlock core now b with
  | false => exact .inl (updateState_eq_none.mpr hacc)
  | true =>
    have hv := (acceptsBlock_iff.mp hacc).2.2.2
    obtain ⟨s', payouts, hadv, -, hsupply, hsigs⟩ :=
      @advance_exact core _ c.blockHashAt b hv hs
    exact .inr ⟨c.commitBlock b s' payouts, updateState_eq_some.mpr ⟨hacc, s', payouts, hadv, rfl⟩,
      hsupply, hsigs, exactBooks hv hs⟩

end Blockchain

namespace Sample

/-! A block in which a miner also sends coins, on a chain where it has some. -/

def coins (sender receiver : Address) (amount fee nonce : ℕ) : Transaction where
  sender := sender
  receiver := receiver
  amount := amount
  fee := fee
  nonce := nonce
  publicKey := []
  signature := littleEndian 8 nonce

def seededChain : Blockchain :=
  Blockchain.new none (blockOf [coins "" "miner" 1000 0 0] 0 [] 1748000000 0)

def transferBlock : Block :=
  blockOf [coins "" "miner" 1 0 1, coins "miner" "payee" 600 10 2, coins "miner" "miner" 300 10 3]
    1 seededChain.getLatestHash 1748000060 32

theorem transferBlock_conserves : ∃ c',
    seededChain.updateState plainCore 1748000060 transferBlock = .ok (some c') ∧
    c'.totalSupply = seededChain.totalSupply + minted transferBlock ∧
    c'.confirmedSignatures = seededChain.confirmedSignatures ∪
      DerivedState.transferSignatures transferBlock.transactions ∧
    DerivedState.ExactBooks plainCore seededChain.blockHashAt seededChain.toDerivedState
      transferBlock := by
  have hsome : (seededChain.updateState plainCore 1748000060 transferBlock).toOption.map
      Option.isSome = some true := by
    decide +kernel
  refine (Blockchain.updateState_conserves plainCore 1748000060 seededChain transferBlock
    (by decide +kernel)).resolve_left fun hnone => ?_
  rw [hnone] at hsome
  exact absurd hsome (by decide)

end Sample

end Lootcoin
