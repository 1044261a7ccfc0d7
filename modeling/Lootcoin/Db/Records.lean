import Lootcoin.Chain.Accounts
import Lootcoin.Db.History

/-! The records of an address, read off blocks: one for each transaction that it sends or receives,
at the position of the transaction, and one for each payout to it, behind them.  The index entries
of a block hold exactly these, and what they credit and debit is what the block does to the balance
of the address, but for the miner's part of the fees, of which there is no record. -/

namespace Lootcoin

/-- The records of an address among the transactions of a block, in their order. -/
def transactionRecords (core : Core) (a : Address) (b : Block) : List (ℕ × ℕ × TxValue) :=
  (b.transactions.zipIdx.filter fun e =>
    e.1.receiver = a ∨ (e.1.isCoinbase = false ∧ e.1.sender = a)).map fun e =>
      (b.index, e.2, makeTxValue core e.1 b.index e.2)

/-- The records of an address among the payouts of a block. -/
def payoutRecords (core : Core) (a : Address) (i : ℕ) (payouts : List Payout) :
    List (ℕ × ℕ × TxValue) :=
  (payouts.zipIdx.filter fun e => e.1.receiver = a).map fun e =>
    (i, payoutPosition + e.2, makeLotteryValue core e.1.receiver e.1.amount i e.2)

/-- The records of an address in a block that settles payouts, the oldest first. -/
def recordsOf (core : Core) (a : Address) (b : Block) (payouts : List Payout) :
    List (ℕ × ℕ × TxValue) :=
  transactionRecords core a b ++ payoutRecords core a b.index payouts

/-- The records of an address in blocks that settle the given payouts. -/
def recordsAlong (core : Core) (paid : ℕ → List Payout) (a : Address) (bs : List Block) :
    List (ℕ × ℕ × TxValue) :=
  bs.flatMap fun b => recordsOf core a b (paid b.index)

/-- What a record brings to an address. -/
def TxRecord.credit (a : Address) (r : TxRecord) : ℕ := if r.receiver = a then r.amount else 0

/-- What a record costs an address. -/
def TxRecord.debit (a : Address) (r : TxRecord) : ℕ := if r.sender = a then r.amount + r.fee else 0

/-- The positions of the transactions and payouts of a block have 32 bits, and those of the
transactions end below the payouts. -/
structure Positioned (b : Block) (payouts : List Payout) : Prop where
  index : b.index < 2 ^ 64
  transactions : b.transactions.length ≤ payoutPosition
  payouts : payoutPosition + payouts.length ≤ 2 ^ 32

variable {core : Core} {a : Address} {b : Block} {ps : List Payout} {i p : ℕ} {v : TxValue}

/-! ### The entries of a block -/

theorem makeTxKey_eq_iff {a' : Address} {i' p' : ℕ} (hi : i < 2 ^ 64) (hi' : i' < 2 ^ 64)
    (hp : p < 2 ^ 32) (hp' : p' < 2 ^ 32) :
    makeTxKey a i p = makeTxKey a' i' p' ↔ a = a' ∧ i = i' ∧ p = p' := by
  constructor
  · intro h
    obtain rfl := address_of_makeTxKey h
    exact ⟨rfl, makeTxKey_inj hi hi' hp hp' h⟩
  · rintro ⟨rfl, rfl, rfl⟩
    rfl

theorem lt_of_mem_zipIdx {α : Type} {l : List α} {e : α × ℕ} (h : e ∈ l.zipIdx) :
    e.2 < l.length :=
  (List.getElem?_eq_some_iff.mp (List.mem_zipIdx_iff_getElem?.mp h)).1

theorem mem_transactionEntries (hb : Positioned b ps) (hi : i < 2 ^ 64) (hp : p < 2 ^ 32) :
    (makeTxKey a i p, v) ∈ transactionEntries core b ↔ (i, p, v) ∈ transactionRecords core a b := by
  have hkey : ∀ e ∈ b.transactions.zipIdx, ∀ a', makeTxKey a i p = makeTxKey a' b.index e.2 ↔
      a = a' ∧ i = b.index ∧ p = e.2 := by
    intro e he a'
    have := lt_of_mem_zipIdx he
    have := hb.transactions
    have : payoutPosition < 2 ^ 32 := by decide
    exact makeTxKey_eq_iff hi hb.index hp (by omega)
  simp only [transactionEntries, transactionRecords, List.mem_flatMap, List.mem_map,
    List.mem_filter, decide_eq_true_eq, List.mem_cons, Prod.mk.injEq]
  constructor
  · rintro ⟨e, he, ⟨hk, rfl⟩ | hmem⟩
    · obtain ⟨rfl, rfl, rfl⟩ := (hkey e he _).mp hk
      exact ⟨e, ⟨he, .inl rfl⟩, rfl, rfl, rfl⟩
    · cases hc : e.1.isCoinbase with
      | true => simp [hc] at hmem
      | false =>
        simp only [hc, Bool.false_eq_true, if_false, List.mem_singleton, Prod.mk.injEq] at hmem
        obtain ⟨hk, rfl⟩ := hmem
        obtain ⟨rfl, rfl, rfl⟩ := (hkey e he _).mp hk
        exact ⟨e, ⟨he, .inr ⟨hc, rfl⟩⟩, rfl, rfl, rfl⟩
  · rintro ⟨e, ⟨he, rfl | ⟨hc, rfl⟩⟩, rfl, rfl, rfl⟩
    · exact ⟨e, he, .inl ⟨rfl, rfl⟩⟩
    · exact ⟨e, he, .inr (by simp [hc])⟩

theorem mem_payoutEntries (hb : Positioned b ps) (hi : i < 2 ^ 64) (hp : p < 2 ^ 32) :
    (makeTxKey a i p, v) ∈ payoutEntries core b.index ps ↔
      (i, p, v) ∈ payoutRecords core a b.index ps := by
  have hkey : ∀ e ∈ ps.zipIdx, makeTxKey a i p =
      makeTxKey e.1.receiver b.index (payoutPosition + e.2) ↔
        a = e.1.receiver ∧ i = b.index ∧ p = payoutPosition + e.2 := by
    intro e he
    have := lt_of_mem_zipIdx he
    have := hb.payouts
    exact makeTxKey_eq_iff hi hb.index hp (by omega)
  simp only [payoutEntries, payoutRecords, List.mem_map, List.mem_filter, decide_eq_true_eq,
    Prod.mk.injEq]
  constructor
  · rintro ⟨e, he, hk, rfl⟩
    obtain ⟨rfl, rfl, rfl⟩ := (hkey e he).mp hk.symm
    exact ⟨e, ⟨he, rfl⟩, rfl, rfl, rfl⟩
  · rintro ⟨e, ⟨he, rfl⟩, rfl, rfl, rfl⟩
    exact ⟨e, he, rfl, rfl⟩

/-! ### The order of records -/

theorem sorted_zipIdx {α : Type} (l : List α) : l.zipIdx.Pairwise fun e e' => e.2 < e'.2 := by
  rw [← List.pairwise_map, List.zipIdx_map_snd]
  exact List.pairwise_lt_range'

/-- The records of a block have rising positions. -/
theorem sorted_recordsOf (hb : Positioned b ps) :
    (recordsOf core a b ps).Pairwise fun e e' => e.2.1 < e'.2.1 := by
  refine List.pairwise_append.mpr ⟨?_, ?_, fun e he e' he' => ?_⟩
  · rw [transactionRecords, List.pairwise_map]
    exact (sorted_zipIdx _).filter _
  · rw [payoutRecords, List.pairwise_map]
    exact ((sorted_zipIdx _).filter _).imp fun h => Nat.add_lt_add_left h _
  · obtain ⟨x, hx, rfl⟩ := List.mem_map.mp he
    obtain ⟨y, -, rfl⟩ := List.mem_map.mp he'
    have := lt_of_mem_zipIdx (List.mem_filter.mp hx).1
    have := hb.transactions
    show x.2 < payoutPosition + y.2
    omega

theorem index_of_mem_recordsOf {e : ℕ × ℕ × TxValue} (he : e ∈ recordsOf core a b ps) :
    e.1 = b.index := by
  rcases List.mem_append.mp he with he | he
  · obtain ⟨x, -, rfl⟩ := List.mem_map.mp he
    rfl
  · obtain ⟨x, -, rfl⟩ := List.mem_map.mp he
    rfl

theorem position_lt_of_mem_recordsOf (hb : Positioned b ps) {e : ℕ × ℕ × TxValue}
    (he : e ∈ recordsOf core a b ps) : e.2.1 < 2 ^ 32 := by
  rcases List.mem_append.mp he with he | he
  · obtain ⟨x, hx, rfl⟩ := List.mem_map.mp he
    have := lt_of_mem_zipIdx (List.mem_filter.mp hx).1
    have := hb.transactions
    have := hb.payouts
    show x.2 < 2 ^ 32
    omega
  · obtain ⟨x, hx, rfl⟩ := List.mem_map.mp he
    have := lt_of_mem_zipIdx (List.mem_filter.mp hx).1
    have := hb.payouts
    show payoutPosition + x.2 < 2 ^ 32
    omega

/-- The entries of a block hold the records of every address. -/
theorem get_blockEntries (hb : Positioned b ps) (hi : i < 2 ^ 64) (hp : p < 2 ^ 32) :
    (OrderedTable.empty.insertAll (blockEntries core b ps)).get (makeTxKey a i p) = some v ↔
      (i, p, v) ∈ recordsOf core a b ps := by
  have hmem : ∀ v, (makeTxKey a i p, v) ∈ blockEntries core b ps ↔
      (i, p, v) ∈ recordsOf core a b ps := by
    intro v
    rw [blockEntries, List.mem_append, mem_transactionEntries hb hi hp, mem_payoutEntries hb hi hp,
      recordsOf, List.mem_append]
  refine ⟨fun h => (hmem v).mp (OrderedTable.mem_of_get_insertAll_empty h), fun h => ?_⟩
  obtain ⟨w, hget⟩ := OrderedTable.exists_get_insertAll_of_mem (t := .empty)
    (List.mem_map_of_mem (f := Prod.fst) ((hmem v).mpr h))
  -- a position has one record
  have hw := (hmem w).mp (OrderedTable.mem_of_get_insertAll_empty hget)
  have hnodup : ((recordsOf core a b ps).map fun e => e.2.1).Nodup :=
    List.Pairwise.map _ (fun _ _ => Nat.ne_of_lt) (sorted_recordsOf hb)
  cases List.inj_on_of_nodup_map hnodup hw h rfl
  exact hget

/-! ### The records of a chain -/

/-- A chain of blocks with rising indices has its records in the order of their keys. -/
theorem sorted_recordsAlong {paid : ℕ → List Payout} {bs : List Block}
    (hbs : ∀ b ∈ bs, Positioned b (paid b.index))
    (hsorted : bs.Pairwise fun b b' => b.index < b'.index) :
    (recordsAlong core paid a bs).Pairwise fun e e' =>
      e.1 < e'.1 ∨ e.1 = e'.1 ∧ e.2.1 < e'.2.1 := by
  refine List.pairwise_flatMap.mpr ⟨fun b hb => ?_, hsorted.imp fun hlt e he e' he' => ?_⟩
  · refine (sorted_recordsOf (hbs b hb)).imp_of_mem fun he he' hlt => .inr ⟨?_, hlt⟩
    rw [index_of_mem_recordsOf he, index_of_mem_recordsOf he']
  · rw [index_of_mem_recordsOf he, index_of_mem_recordsOf he']
    exact .inl hlt

/-- Two histories of one address in one index are the same. -/
theorem IsHistory.unique {t : OrderedTable Bytes TxValue} {l l' : List (ℕ × ℕ × TxValue)}
    (h : IsHistory t a l) (h' : IsHistory t a l') : l = l' := by
  have hirrefl : ∀ e : ℕ × ℕ × TxValue, ¬ (e.1 < e.1 ∨ e.1 = e.1 ∧ e.2.1 < e.2.1) := by
    rintro e (h | ⟨-, h⟩) <;> exact lt_irrefl _ h
  have hnodup : ∀ {l : List (ℕ × ℕ × TxValue)}, IsHistory t a l → l.Nodup := fun h =>
    h.descending.imp fun hlt heq => by
      subst heq
      exact hirrefl _ hlt
  have hperm : l.Perm l' := (List.perm_ext_iff_of_nodup (hnodup h) (hnodup h')).mpr fun e => by
    obtain ⟨i, p, v⟩ := e
    rw [h.mem, h'.mem]
  refine hperm.eq_of_pairwise (fun e e' _ _ hlt hgt => ?_) h.descending h'.descending
  omega

/-! ### What records add up to -/

/-- A sum over the positions of a list, as far as its elements pass a test. -/
theorem sum_zipIdx_filter {α : Type} (l : List α) (test part : α → Bool) (f : α → ℕ)
    {value : α × ℕ → ℕ} (hvalue : ∀ e, value e = if part e.1 then f e.1 else 0)
    (hpart : ∀ x, part x → test x) :
    ((l.zipIdx.filter fun e => test e.1).map value).sum = ((l.filter part).map f).sum := by
  have h : ∀ k, (((l.zipIdx k).filter fun e => test e.1).map value).sum =
      ((l.filter part).map f).sum := by
    induction l with
    | nil => exact fun _ => rfl
    | cons x l ih =>
      intro k
      rw [List.zipIdx_cons, List.filter_cons, List.filter_cons]
      by_cases hx : part x
      · rw [if_pos (hpart x hx), if_pos hx, List.map_cons, List.map_cons, List.sum_cons,
          List.sum_cons, ih, hvalue, if_pos hx]
      · rw [if_neg hx]
        split
        · rw [List.map_cons, List.sum_cons, ih, hvalue, if_neg hx, Nat.zero_add]
        · exact ih _
  exact h 0

open DerivedState

/-- The records of a block credit what its transactions and payouts bring. -/
theorem credits_recordsOf (core : Core) (a : Address) (b : Block) (ps : List Payout) :
    ((recordsOf core a b ps).map fun e => (recordOf e).credit a).sum =
      receivedBy b.transactions a + wonBy ps a := by
  rw [recordsOf, List.map_append, List.sum_append, transactionRecords, payoutRecords, List.map_map,
    List.map_map]
  congr 1
  · refine sum_zipIdx_filter b.transactions
      (fun tx => tx.receiver = a ∨ (tx.isCoinbase = false ∧ tx.sender = a))
      (fun tx => tx.receiver = a) (fun tx => tx.amount) (fun e => ?_) fun tx htx => ?_
    · exact if_congr decide_eq_true_iff.symm rfl rfl
    · exact decide_eq_true (.inl (of_decide_eq_true htx))
  · refine sum_zipIdx_filter ps (fun p => p.receiver = a) (fun p => p.receiver = a)
      (fun p => p.amount) (fun e => ?_) fun p hp => hp
    exact if_congr decide_eq_true_iff.symm rfl rfl

/-- They debit what the transfers of the block cost, for an address that can send one. -/
theorem debits_recordsOf (core : Core) (b : Block) (ps : List Payout) (hnone : a ≠ "")
    (hlottery : a ≠ "lottery") :
    ((recordsOf core a b ps).map fun e => (recordOf e).debit a).sum = spentBy b.transactions a := by
  have hzero : ((payoutRecords core a b.index ps).map fun e => (recordOf e).debit a).sum = 0 := by
    refine List.sum_eq_zero fun x hx => ?_
    obtain ⟨e, he, rfl⟩ := List.mem_map.mp hx
    obtain ⟨y, -, rfl⟩ := List.mem_map.mp he
    exact if_neg hlottery.symm
  rw [recordsOf, List.map_append, List.sum_append, hzero, Nat.add_zero, transactionRecords,
    List.map_map]
  refine sum_zipIdx_filter b.transactions
    (fun tx => tx.receiver = a ∨ (tx.isCoinbase = false ∧ tx.sender = a))
    (fun tx => tx.isCoinbase = false ∧ tx.sender = a) (fun tx => tx.amount + tx.fee)
    (fun e => ?_) fun tx htx => ?_
  · refine if_congr ⟨fun hs => decide_eq_true ⟨?_, hs⟩, fun h => (of_decide_eq_true h).2⟩ rfl rfl
    -- a coinbase has no sender
    rw [Transaction.isCoinbase, show e.1.sender = a from hs]
    simpa using hnone
  · exact decide_eq_true (.inr (of_decide_eq_true htx))

end Lootcoin
