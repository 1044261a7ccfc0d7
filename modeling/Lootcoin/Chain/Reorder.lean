import Lootcoin.Chain.Accounts

/-! The order of the transactions in a block.  Pre-validation and application both run over the
transactions one after the other, but what they decide is the same in every order: a list of
transfers passes exactly when each passes alone, no signature comes twice, and no sender spends
more than it has at the start of the block; and what the list posts is a sum. -/

namespace Lootcoin

namespace DerivedState

/-- What pre-validation asks of a transfer by itself. -/
structure Transferable (core : Core) (s : DerivedState) (tx : Transaction) : Prop where
  verify : core.verify tx = true
  fee : minTxFee ≤ tx.fee
  receiver : (core.decodeAddress tx.receiver).isSome
  fresh : tx.signature ∉ s.confirmedSignatures

variable {core : Core} {s : DerivedState} {acc : Prevalidation} {tx : Transaction}
  {txs txs' : List Transaction}

/-! ### Sums over transactions -/

theorem spentBy_coinbase (hc : tx.isCoinbase = true) (a : Address) :
    spentBy (tx :: txs) a = spentBy txs a := by
  simp [spentBy, hc]

theorem spentBy_transfer (hc : tx.isCoinbase = false) (a : Address) :
    spentBy (tx :: txs) a = (if a = tx.sender then tx.amount + tx.fee else 0) + spentBy txs a := by
  by_cases ha : a = tx.sender
  · simp [spentBy, hc, ha]
  · simp [spentBy, hc, ha, Ne.symm ha]

theorem spentBy_perm (h : txs.Perm txs') (a : Address) : spentBy txs a = spentBy txs' a :=
  ((h.filter _).map _).sum_eq

theorem exactFees_perm (h : txs.Perm txs') : exactFees txs = exactFees txs' :=
  ((h.filter _).map _).sum_eq

theorem signaturesIn_perm (h : txs.Perm txs') : (signaturesIn txs).Perm (signaturesIn txs') :=
  (h.filter _).map _

theorem transferSignatures_perm (h : txs.Perm txs') :
    transferSignatures txs = transferSignatures txs' :=
  List.toFinset_eq_of_perm _ _ (signaturesIn_perm h)

/-! ### Pre-validation in any order -/

/-- Where no sender is debited beyond its balance, a list of transactions passes exactly when its
transfers pass one by one, their signatures are new and distinct, and what they spend is left. -/
theorem prevalidate_isSome_iff (hbalance : ∀ a, s.getBalance a < 2 ^ 64)
    (hacc : ∀ a, HashTable.getD acc.pendingDebits a 0 ≤ s.getBalance a) :
    (txs.foldlM (prevalidateTransaction core s) acc).isSome ↔
      (∀ tx ∈ txs, tx.isCoinbase = false → Transferable core s tx) ∧
      (signaturesIn txs).Nodup ∧ (∀ sig ∈ signaturesIn txs, sig ∉ acc.blockSigs) ∧
      ∀ a, HashTable.getD acc.pendingDebits a 0 + spentBy txs a ≤ s.getBalance a := by
  induction txs generalizing acc with
  | nil => simpa [spentBy] using hacc
  | cons tx txs ih =>
    rw [List.foldlM_cons, Option.bind_eq_bind]
    cases hc : tx.isCoinbase with
    | true =>
      rw [prevalidateTransaction_coinbase hc, Option.bind_some, ih hacc]
      simp [signaturesIn_coinbase hc, spentBy_coinbase hc, hc]
    | false =>
      have hbound := hbalance tx.sender
      have hsender := hacc tx.sender
      -- the debits after the transaction, when its sender can cover it
      have hadd : tx.amount + tx.fee ≤
          s.getBalance tx.sender - HashTable.getD acc.pendingDebits tx.sender 0 → ∀ a,
          HashTable.getD (HashTable.addAt 64 acc.pendingDebits tx.sender (tx.amount + tx.fee)) a 0 =
            HashTable.getD acc.pendingDebits a 0 +
              if a = tx.sender then tx.amount + tx.fee else 0 :=
        fun hcover => HashTable.getD_addAt (by omega)
      have hdebits : tx.amount + tx.fee ≤
          s.getBalance tx.sender - HashTable.getD acc.pendingDebits tx.sender 0 → ∀ a,
          HashTable.getD (HashTable.addAt 64 acc.pendingDebits tx.sender (tx.amount + tx.fee)) a 0 ≤
            s.getBalance a := by
        intro hcover a
        have := hacc a
        rw [hadd hcover]
        split
        · rename_i ha
          subst ha
          omega
        · omega
      rw [signaturesIn_transfer hc, List.nodup_cons, List.forall_mem_cons, List.forall_mem_cons]
      constructor
      · intro h
        obtain ⟨acc'', h⟩ := Option.isSome_iff_exists.mp h
        obtain ⟨acc', hstep, h⟩ := Option.bind_eq_some_iff.mp h
        obtain ⟨hverify, hfee, hreceiver, hfresh, hseen, -, hcover, rfl⟩ :=
          (prevalidateTransaction_transfer hc).mp hstep
        obtain ⟨hall, hnodup, hnew, hspent⟩ :=
          (ih (hdebits hcover)).mp (Option.isSome_iff_exists.mpr ⟨_, h⟩)
        refine ⟨⟨fun _ => ⟨hverify, hfee, hreceiver, hfresh⟩, hall⟩,
          ⟨fun hmem => hnew _ hmem (Finset.mem_insert_self _ _), hnodup⟩,
          ⟨hseen, fun sig hsig hmem => hnew sig hsig (Finset.mem_insert_of_mem hmem)⟩, fun a => ?_⟩
        have := hspent a
        rw [hadd hcover] at this
        rw [spentBy_transfer hc]
        omega
      · rintro ⟨⟨htx, hall⟩, ⟨hsig, hnodup⟩, ⟨hseen, hnew⟩, hspent⟩
        have htx := htx hc
        have hown := hspent tx.sender
        rw [spentBy_transfer hc, if_pos rfl] at hown
        have hcover : tx.amount + tx.fee ≤
            s.getBalance tx.sender - HashTable.getD acc.pendingDebits tx.sender 0 := by omega
        rw [(prevalidateTransaction_transfer hc).mpr ⟨htx.verify, htx.fee, htx.receiver, htx.fresh,
          hseen, by omega, hcover, rfl⟩, Option.bind_some]
        refine (ih (hdebits hcover)).mpr ⟨hall, hnodup, fun sig hmem hin => ?_, fun a => ?_⟩
        · rcases Finset.mem_insert.mp hin with rfl | hin
          · exact hsig hmem
          · exact hnew sig hmem hin
        · have := hspent a
          rw [spentBy_transfer hc] at this
          rw [hadd hcover]
          omega

theorem prevalidate_perm (hs : s.totalSupply < 2 ^ 64) (h : txs.Perm txs') :
    (s.prevalidate core txs).isSome = (s.prevalidate core txs').isSome := by
  have hzero : ∀ a, HashTable.getD Prevalidation.start.pendingDebits a 0 ≤ s.getBalance a :=
    fun a => Nat.zero_le _
  have hbalance : ∀ a, s.getBalance a < 2 ^ 64 := fun a =>
    Nat.lt_of_le_of_lt (Nat.le_of_add_right_le (s.getBalance_add_pot_le a)) hs
  rw [Bool.eq_iff_iff, prevalidate, prevalidate, prevalidate_isSome_iff hbalance hzero,
    prevalidate_isSome_iff hbalance hzero]
  have hsigs := signaturesIn_perm h
  simp only [h.mem_iff, hsigs.mem_iff, hsigs.nodup_iff, spentBy_perm h]

end DerivedState

/-! ### Blocks -/

/-- `b'` holds the transactions of `b` with the transfers in another order, the coinbase where it
was, and a commitment, a nonce, and a hash of its own that pass the checks at a difficulty. -/
structure Reordered (core : Core) (difficulty : ℚ) (b b' : Block) : Prop where
  index : b'.index = b.index
  previousHash : b'.previousHash = b.previousHash
  timestamp : b'.timestamp = b.timestamp
  transactions : ∃ txs, txs.Perm (b.transactions.filter fun tx => !tx.isCoinbase) ∧
    b'.transactions = b.transactions.filter (fun tx => tx.isCoinbase) ++ txs
  txRoot : core.computeTxRoot b'.transactions = some b'.txRoot
  hash : core.calculateHash b'.toHeader = some b'.hash
  work : core.meetsDifficulty b'.hash difficulty = true

namespace Reordered

variable {core : Core} {difficulty : ℚ} {b b' : Block}

theorem perm (h : Reordered core difficulty b b') : b'.transactions.Perm b.transactions := by
  obtain ⟨txs, hperm, htxs⟩ := h.transactions
  rw [htxs]
  exact (hperm.append_left _).trans (List.filter_append_perm _ _)

/-- Where only the first transaction may be a coinbase, the reordered block starts with the same
coinbase, or neither holds one. -/
theorem first (h : Reordered core difficulty b b')
    (hrest : ∀ tx ∈ b.transactions.drop 1, tx.isCoinbase = false) :
    (∃ tx rest rest', tx.isCoinbase = true ∧ b.transactions = tx :: rest ∧
      b'.transactions = tx :: rest' ∧ ∀ t ∈ rest', t.isCoinbase = false) ∨
    (∀ tx ∈ b.transactions, tx.isCoinbase = false) ∧
      ∀ tx ∈ b'.transactions, tx.isCoinbase = false := by
  obtain ⟨txs, hperm, htxs⟩ := h.transactions
  have htransfers : ∀ tx ∈ txs, tx.isCoinbase = false := by
    intro tx htx
    simpa using List.of_mem_filter (hperm.mem_iff.mp htx)
  cases hb : b.transactions with
  | nil =>
    rw [htxs, hb]
    exact .inr ⟨by simp, by simpa using htransfers⟩
  | cons tx rest =>
    rw [hb] at hrest htxs
    have hnone : rest.filter (fun tx => tx.isCoinbase) = [] :=
      List.filter_eq_nil_iff.mpr fun t ht => by simp [hrest t ht]
    rw [List.filter_cons, hnone] at htxs
    cases hc : tx.isCoinbase with
    | true => exact .inl ⟨tx, rest, txs, hc, rfl, by simpa [hc] using htxs, htransfers⟩
    | false =>
      refine .inr ⟨List.forall_mem_cons.mpr ⟨hc, hrest⟩, ?_⟩
      simpa [htxs, hc] using htransfers

theorem extractMinerAddress_eq (h : Reordered core difficulty b b')
    (hrest : ∀ tx ∈ b.transactions.drop 1, tx.isCoinbase = false) :
    extractMinerAddress b' = extractMinerAddress b := by
  unfold extractMinerAddress
  rcases h.first hrest with ⟨tx, rest, rest', hc, hb, hb', -⟩ | ⟨hb, hb'⟩
  · rw [hb, hb']
    rfl
  · have hno : ∀ txs : List Transaction, (∀ tx ∈ txs, tx.isCoinbase = false) →
        (txs.head?.bind fun tx => if tx.isCoinbase then some tx.receiver else none) = none := by
      intro txs htxs
      cases txs with
      | nil => rfl
      | cons tx txs => simp [htxs tx List.mem_cons_self]
    rw [hno _ hb, hno _ hb']

/-- The reordered block passes every rule that the derived state decides. -/
theorem validBody {s : DerivedState} (h : Reordered core s.currentDifficulty b b')
    (hs : s.totalSupply < 2 ^ 64) (hv : s.validBody core b = true) :
    s.validBody core b' = true := by
  obtain ⟨-, -, hcount, hrest, hcoinbase, -, acc, hpre⟩ := DerivedState.validBody_iff.mp hv
  have hsome : (s.prevalidate core b'.transactions).isSome := by
    rw [DerivedState.prevalidate_perm hs h.perm, hpre]
    rfl
  refine DerivedState.validBody_iff.mpr ⟨h.hash, h.work, ?_, ?_, ?_, h.txRoot,
    Option.isSome_iff_exists.mp hsome⟩
  · rwa [nonCoinbaseCount, h.perm.countP_eq]
  · rcases h.first hrest with ⟨tx, rest, rest', -, -, hb', hrest'⟩ | ⟨-, hb'⟩
    · simpa [hb'] using hrest'
    · exact fun tx htx => hb' tx (List.mem_of_mem_drop htx)
  · rcases h.first hrest with ⟨tx, rest, rest', hc, hb, hb', -⟩ | ⟨-, hb'⟩
    · simpa [DerivedState.validCoinbase, hb, hb'] using hcoinbase
    · unfold DerivedState.validCoinbase
      cases hhead : b'.transactions.head? with
      | none => rfl
      | some tx => simp [hb' tx (List.mem_of_mem_head? hhead)]

theorem ticketOf_eq (h : Reordered core difficulty b b')
    (hrest : ∀ tx ∈ b.transactions.drop 1, tx.isCoinbase = false) : ticketOf b' = ticketOf b := by
  have hany : (b'.transactions.any fun tx => !tx.isCoinbase) =
      b.transactions.any fun tx => !tx.isCoinbase := by
    rw [Bool.eq_iff_iff, List.any_eq_true, List.any_eq_true]
    simp only [h.perm.mem_iff]
  rw [ticketOf, ticketOf, hany, h.extractMinerAddress_eq hrest, h.index]

theorem minerEntry_eq (h : Reordered core difficulty b b')
    (hrest : ∀ tx ∈ b.transactions.drop 1, tx.isCoinbase = false) :
    DerivedState.minerEntry b' = DerivedState.minerEntry b := by
  rw [DerivedState.minerEntry, DerivedState.minerEntry, h.extractMinerAddress_eq hrest,
    DerivedState.exactFees_perm h.perm]

end Reordered

namespace Blockchain

open DerivedState

variable {core : Core} {now : ℕ} {c c' : Blockchain} {b b' : Block}

/-- The order of the transfers in a block decides nothing: the reordered block is accepted too, and
leaves the same balances, pot, confirmed signatures, and tickets. -/
theorem updateState_reordered (hs : c.totalSupply + 1 < 2 ^ 64)
    (h : c.updateState core now b = .ok (some c')) (hr : Reordered core c.currentDifficulty b b') :
    ∃ c'', c.updateState core now b' = .ok (some c'') ∧
      (∀ a, c''.getBalance a = c'.getBalance a) ∧ c''.pot = c'.pot ∧
      c''.confirmedSignatures = c'.confirmedSignatures ∧
      c''.pendingTickets = c'.pendingTickets := by
  obtain ⟨hacc, s, payouts, hadv, rfl⟩ := updateState_eq_some.mp h
  obtain ⟨hlink, htime, hmedian, hv⟩ := acceptsBlock_iff.mp hacc
  have hrest := (validBody_iff.mp hv).2.2.2.1
  have hv' : c.validBody core b' = true := hr.validBody (Nat.lt_of_succ_lt hs) hv
  obtain ⟨s₁, payouts₁, hadv₁, hledger₁, -, hsigs₁⟩ :=
    @advance_exact core _ c.blockHashAt b hv hs
  cases hadv.symm.trans hadv₁
  obtain ⟨s', payouts', hadv', hledger', -, hsigs'⟩ :=
    @advance_exact core _ c.blockHashAt b' hv' hs
  have hpayouts : payouts' = payouts := by
    obtain ⟨-, -, -, -, hps⟩ := advance_eq_ok.mp hadv
    obtain ⟨-, -, -, -, hps'⟩ := advance_eq_ok.mp hadv'
    rw [hps', hps, hr.index]
  have hledger : s'.ledger = s.ledger := by
    rw [hledger', hledger₁, hpayouts, hr.minerEntry_eq hrest]
    exact Ledger.post_perm _ (((hr.perm.flatMap_right _).append_left _).append_right _)
  refine ⟨c.commitBlock b' s' payouts', updateState_eq_some.mpr
    ⟨acceptsBlock_iff.mpr ⟨?_, ?_, ?_, hv'⟩, s', payouts', hadv', rfl⟩, fun a => ?_, ?_, ?_, ?_⟩
  · rw [linksToTip, hr.index, hr.previousHash]
    exact hlink
  · rwa [hr.timestamp]
  · rwa [hr.timestamp]
  · exact Nat.cast_injective (congrFun hledger (some a))
  · exact Nat.cast_injective (congrFun hledger none)
  · show s'.confirmedSignatures = s.confirmedSignatures
    rw [hsigs', hsigs₁, transferSignatures_perm hr.perm]
  · show s'.pendingTickets = s.pendingTickets
    rw [DerivedState.advance_pendingTickets hadv', DerivedState.advance_pendingTickets hadv,
      hr.ticketOf_eq hrest, hr.index]

end Blockchain

namespace Sample

def reorderedTransferBlock : Block :=
  blockOf [coins "" "miner" 1 0 1, coins "miner" "miner" 300 10 3, coins "miner" "payee" 600 10 2]
    1 seededChain.getLatestHash 1748000060 33

theorem transferBlock_reordered : ∃ c' c'',
    seededChain.updateState plainCore 1748000060 transferBlock = .ok (some c') ∧
    seededChain.updateState plainCore 1748000060 reorderedTransferBlock = .ok (some c'') ∧
    (∀ a, c''.getBalance a = c'.getBalance a) ∧ c''.pot = c'.pot ∧
    c''.confirmedSignatures = c'.confirmedSignatures ∧
    c''.pendingTickets = c'.pendingTickets := by
  have hsome : (seededChain.updateState plainCore 1748000060
      transferBlock).toOption.join.isSome = true := by
    decide +kernel
  obtain ⟨c', hc'⟩ := Option.isSome_iff_exists.mp hsome
  have hup := Fallible.toOption_eq_some.mp (Option.join_eq_some_iff.mp hc')
  have hr : Reordered plainCore seededChain.currentDifficulty transferBlock
      reorderedTransferBlock :=
    ⟨rfl, rfl, rfl, ⟨_, List.Perm.swap _ _ _, rfl⟩, rfl, by decide +kernel, by decide +kernel⟩
  obtain ⟨c'', h⟩ := Blockchain.updateState_reordered (by decide +kernel) hup hr
  exact ⟨c', c'', hup, h⟩

end Sample

end Lootcoin
