import Lootcoin.Library.Fallible
import Lootcoin.Db.Index

/-! The history of an address.  A query reads the keys that begin with the bytes of the address and
a zero byte, from the last one down.  Among the keys of the address itself that is the order of
blocks and positions, but the bytes of the numbers in a key may be zero too, so a query that
itself holds zero bytes can reach the keys of another address. -/

namespace Lootcoin

/-- The contents that the writes of the node give to a transaction index. -/
inductive IndexContent (core : Core) : OrderedTable Bytes TxValue → Prop
  | empty : IndexContent core .empty
  | indexTransactions {t : OrderedTable Bytes TxValue} {b : Block} (h : IndexContent core t)
      (hindex : b.index < 2 ^ 64) : IndexContent core (indexTransactions core t b)
  | indexPayouts {t : OrderedTable Bytes TxValue} {i : ℕ} {payouts : List Payout}
      (h : IndexContent core t) (hindex : i < 2 ^ 64) :
      IndexContent core (indexPayouts core t i payouts)
  | remove {t : OrderedTable Bytes TxValue} {k : Bytes} (h : IndexContent core t) :
      IndexContent core (t.remove k)

/-- The entries of an index under an address, with their block indices and positions, the newest
first. -/
structure IsHistory (t : OrderedTable Bytes TxValue) (address : Address)
    (history : List (ℕ × ℕ × TxValue)) : Prop where
  descending : history.Pairwise fun e e' => e'.1 < e.1 ∨ e'.1 = e.1 ∧ e'.2.1 < e.2.1
  mem : ∀ i p v, (i, p, v) ∈ history ↔
    i < 2 ^ 64 ∧ p < 2 ^ 32 ∧ t.get (makeTxKey address i p) = some v

/-- The record of an entry, with the block index that it is stored under. -/
def recordOf (e : ℕ × ℕ × TxValue) : TxRecord where
  blockIndex := e.1
  txidHex := e.2.2.txidHex
  sender := e.2.2.sender
  receiver := e.2.2.receiver
  amount := e.2.2.amount
  fee := e.2.2.fee

/-- Every page of a query is that page of the history, so consecutive pages make up the next larger
one. -/
structure AnswersWith (db : Db) (address : Address) (history : List (ℕ × ℕ × TxValue)) : Prop where
  isHistory : IsHistory db.txIndex address history
  pages : ∀ offset limit, db.getTransactionsForAddress address offset limit =
    .ok (((history.map recordOf).drop offset).take limit)
  consecutive : ∀ offset n m, ∃ page next,
    db.getTransactionsForAddress address offset n = .ok page ∧
    db.getTransactionsForAddress address (offset + n) m = .ok next ∧
    db.getTransactionsForAddress address offset (n + m) = .ok (page ++ next)

/-- No key of another address begins with the queried address and a zero byte. -/
def NoForeignKey (t : OrderedTable Bytes TxValue) (address : Address) : Prop :=
  ∀ a i p v, i < 2 ^ 64 → p < 2 ^ 32 → t.get (makeTxKey a i p) = some v → a ≠ address →
    ¬ utf8 address ++ [0] <+: makeTxKey a i p

variable {core : Core} {t : OrderedTable Bytes TxValue} {db : Db} {address : Address}

/-! ### The keys of an index -/

theorem IndexContent.key (h : IndexContent core t) {k : Bytes} {v : TxValue}
    (hk : t.get k = some v) : ∃ a i p, i < 2 ^ 64 ∧ p < 2 ^ 32 ∧ k = makeTxKey a i p := by
  have hbound : ∀ a i p, i < 2 ^ 64 → k = makeTxKey a i p →
      ∃ a i p, i < 2 ^ 64 ∧ p < 2 ^ 32 ∧ k = makeTxKey a i p := fun a i p hi hk =>
    ⟨a, i, p % 2 ^ 32, hi, Nat.mod_lt _ (by decide), by rw [makeTxKey_mod, hk]⟩
  induction h with
  | empty => simp at hk
  | indexTransactions _ hindex ih =>
    rw [indexTransactions_eq, OrderedTable.get_insertAll, Option.or_eq_some_iff] at hk
    rcases hk with hk | ⟨-, hk⟩
    · obtain ⟨a, p, rfl⟩ := key_of_mem_transactionEntries
        (List.mem_map_of_mem (OrderedTable.mem_of_get_insertAll_empty hk))
      exact hbound _ _ _ hindex rfl
    · exact ih hk
  | indexPayouts _ hindex ih =>
    rw [indexPayouts_eq, OrderedTable.get_insertAll, Option.or_eq_some_iff] at hk
    rcases hk with hk | ⟨-, hk⟩
    · obtain ⟨a, p, rfl⟩ := key_of_mem_payoutEntries
        (List.mem_map_of_mem (OrderedTable.mem_of_get_insertAll_empty hk))
      exact hbound _ _ _ hindex rfl
    · exact ih hk
  | remove _ ih =>
    rw [OrderedTable.get_remove] at hk
    split at hk
    · cases hk
    · exact ih hk

/-! ### The writes of the node give an index its contents -/

theorem IndexContent.removeAll (h : IndexContent core t) (ks : List Bytes) :
    IndexContent core (t.removeAll ks) := by
  induction ks generalizing t with
  | nil => exact h
  | cons k ks ih => exact ih h.remove

theorem IndexContent.removeDisplaced (h : IndexContent core db.txIndex) (b : Block) :
    IndexContent core (db.removeDisplaced b).txIndex := by
  show IndexContent core (unindexTransactions (unindexPayouts _ _ _) b)
  rw [unindexTransactions_eq core, unindexPayouts_eq core]
  exact (h.removeAll _).removeAll _

theorem IndexContent.savePayouts (h : IndexContent core db.txIndex) {i : ℕ} (hi : i < 2 ^ 64)
    (ps : List Payout) : IndexContent core (db.savePayouts core i ps).txIndex := by
  cases ps with
  | nil => exact h
  | cons p ps => exact h.indexPayouts hi

theorem IndexContent.insertCanonical (h : IndexContent core db.txIndex)
    (pm : HashTable ℕ (List Payout)) {b : Block} (hb : b.index < 2 ^ 64) :
    IndexContent core (db.insertCanonical core pm b).txIndex :=
  IndexContent.savePayouts (h.indexTransactions hb) hb _

theorem IndexContent.step {s s' : Indexed} {w : IndexWrite} (hw : Writes core s w s')
    (h : IndexContent core s.db.txIndex) : IndexContent core s'.db.txIndex := by
  cases hw with
  | saveAppliedBlock _ hindex =>
    exact IndexContent.savePayouts (h.indexTransactions hindex) hindex _
  | @applyReorgIncremental start new tickets pm hnew hindex =>
    have hdisplaced : ∀ (old : List Block) (db : Db), IndexContent core db.txIndex →
        IndexContent core (old.foldl Db.removeDisplaced db).txIndex := by
      intro old
      induction old with
      | nil => exact fun _ h => h
      | cons b old ih => exact fun db h => ih _ (h.removeDisplaced b)
    have hextended : ∀ (new : List Block) (db : Db), (∀ b ∈ new, b.index < 2 ^ 64) →
        IndexContent core db.txIndex →
        IndexContent core (new.foldl (Db.insertCanonical core pm) db).txIndex := by
      intro new
      induction new with
      | nil => exact fun _ _ h => h
      | cons b new ih =>
        exact fun db hlt h => ih _ (fun b' hb' => hlt b' (List.mem_cons_of_mem _ hb'))
          (h.insertCanonical pm (hlt b List.mem_cons_self))
    refine hextended new _ (fun b hb => ?_) (hdisplaced _ _ h)
    have := (List.mem_range'_1.mp (hnew ▸ List.mem_map_of_mem hb)).2
    omega

/-- Whatever blocks a node saves and replaces, its index is made of keys of addresses. -/
theorem indexContent_of_run {s s' : Indexed} {ws : List IndexWrite}
    (run : Runs.Run (Writes core) s ws s') (h : IndexContent core s.db.txIndex) :
    IndexContent core s'.db.txIndex :=
  run.invariant (P := fun s => IndexContent core s.db.txIndex) IndexContent.step h

/-! ### The entries that a query reads -/

/-- The entries between the two bounds of a query. -/
def queried (t : OrderedTable Bytes TxValue) (address : Address) : List (Bytes × TxValue) :=
  t.entriesBetween (utf8 address ++ [0]) (utf8 address ++ [1])

/-- They are those whose key begins with the address and a zero byte. -/
theorem mem_queried {e : Bytes × TxValue} :
    e ∈ queried t address ↔ t.get e.1 = some e.2 ∧ utf8 address ++ [0] <+: e.1 := by
  have hcover : (0 : Byte) ⋖ 1 := by
    refine ⟨by decide, fun c h0 h1 => ?_⟩
    rw [Fin.lt_def] at h0 h1
    exact absurd h1 (Nat.not_lt.mpr h0)
  rw [queried, OrderedTable.mem_entriesBetween, Lexicographic.mem_range_iff_prefix hcover]

theorem prefix_makeTxKey (address : Address) (i p : ℕ) :
    utf8 address ++ [0] <+: makeTxKey address i p :=
  ⟨bigEndian 8 i ++ bigEndian 4 p, by simp [makeTxKey]⟩

/-- Without foreign keys, a query reads only keys of its address. -/
theorem key_of_mem_queried (ht : IndexContent core t) (hf : NoForeignKey t address)
    {e : Bytes × TxValue} (he : e ∈ queried t address) :
    ∃ i p, i < 2 ^ 64 ∧ p < 2 ^ 32 ∧ e.1 = makeTxKey address i p := by
  obtain ⟨hget, hprefix⟩ := mem_queried.mp he
  obtain ⟨a, i, p, hi, hp, hkey⟩ := ht.key hget
  rw [hkey] at hget hprefix
  by_contra hnot
  have hne : a ≠ address := by
    rintro rfl
    exact hnot ⟨i, p, hi, hp, hkey⟩
  exact hf a i p e.2 hi hp hget hne hprefix

/-- The history that the entries of a query give. -/
def historyOf (t : OrderedTable Bytes TxValue) (address : Address) : List (ℕ × ℕ × TxValue) :=
  (queried t address).reverse.map fun e => (keyIndex e.1, keyPosition e.1, e.2)

theorem isHistory_historyOf (ht : IndexContent core t) (hf : NoForeignKey t address) :
    IsHistory t address (historyOf t address) := by
  refine ⟨?_, fun i p v => ?_⟩
  · rw [historyOf, List.map_reverse, List.pairwise_reverse, List.pairwise_map]
    have hsorted : (queried t address).Pairwise fun e e' => e.1 < e'.1 := t.sorted.filter _
    refine hsorted.imp_of_mem fun he he' hlt => ?_
    obtain ⟨i, p, hi, hp, hkey⟩ := key_of_mem_queried ht hf he
    obtain ⟨i', p', hi', hp', hkey'⟩ := key_of_mem_queried ht hf he'
    rw [hkey, hkey', makeTxKey_lt_makeTxKey hi hi' hp hp'] at hlt
    rwa [hkey, hkey', keyIndex_makeTxKey _ _ hi, keyIndex_makeTxKey _ _ hi',
      keyPosition_makeTxKey _ _ hp, keyPosition_makeTxKey _ _ hp']
  · rw [historyOf, List.mem_map]
    constructor
    · rintro ⟨e, he, heq⟩
      rw [List.mem_reverse] at he
      obtain ⟨i', p', hi', hp', hkey⟩ := key_of_mem_queried ht hf he
      rw [hkey, keyIndex_makeTxKey _ _ hi', keyPosition_makeTxKey _ _ hp'] at heq
      cases heq
      exact ⟨hi', hp', hkey ▸ (mem_queried.mp he).1⟩
    · rintro ⟨hi, hp, hget⟩
      refine ⟨(makeTxKey address i p, v), ?_, ?_⟩
      · exact List.mem_reverse.mpr (mem_queried.mpr ⟨hget, prefix_makeTxKey address i p⟩)
      · rw [keyIndex_makeTxKey _ _ hi, keyPosition_makeTxKey _ _ hp]

/-! ### Pages -/

theorem getTransactionsForAddress_eq (db : Db) (address : Address) (offset limit : ℕ) :
    db.getTransactionsForAddress address offset limit =
      (((queried db.txIndex address).reverse.drop offset).take limit).mapM
        (Db.txRecordAt ((utf8 address).length + 1)) :=
  rfl

/-- The key of an entry of the address is long enough and holds the block index where the query
reads it. -/
theorem txRecordAt_makeTxKey {i : ℕ} (hi : i < 2 ^ 64) (p : ℕ) (v : TxValue) :
    Db.txRecordAt ((utf8 address).length + 1) (makeTxKey address i p, v) =
      .ok (recordOf (i, p, v)) := by
  have hlen : ¬ (makeTxKey address i p).length < (utf8 address).length + 1 + 8 := by
    rw [length_makeTxKey]
    omega
  rw [Db.txRecordAt, if_neg hlen, drop_makeTxKey, List.take_left' (length_bigEndian 8 i),
    fromBigEndian_bigEndian hi]
  rfl

theorem pages_of_noForeignKey (ht : IndexContent core db.txIndex)
    (hf : NoForeignKey db.txIndex address) (offset limit : ℕ) :
    db.getTransactionsForAddress address offset limit =
      .ok ((((historyOf db.txIndex address).map recordOf).drop offset).take limit) := by
  rw [getTransactionsForAddress_eq, historyOf, List.map_map, ← List.map_drop, ← List.map_take]
  refine Fallible.mapM_eq_ok_map fun e he => ?_
  have hmem := List.mem_reverse.mp (List.mem_of_mem_drop (List.mem_of_mem_take he))
  obtain ⟨i, p, hi, hp, hkey⟩ := key_of_mem_queried ht hf hmem
  obtain ⟨k, v⟩ := e
  obtain rfl : k = makeTxKey address i p := hkey
  rw [txRecordAt_makeTxKey hi, Function.comp_apply, keyIndex_makeTxKey _ _ hi,
    keyPosition_makeTxKey _ _ hp]

/-- A query that answers with the history reads as many entries as the history has. -/
theorem AnswersWith.length_queried {history : List (ℕ × ℕ × TxValue)}
    (h : AnswersWith db address history) :
    (queried db.txIndex address).length = history.length := by
  have hpage := h.pages 0 ((queried db.txIndex address).length + history.length)
  rw [getTransactionsForAddress_eq, List.drop_zero, List.drop_zero,
    List.take_of_length_le (by simp), List.take_of_length_le (by simp)] at hpage
  have hlen := Fallible.length_of_mapM_eq_ok hpage
  simpa using hlen.symm

/-- A foreign key is one entry more than the history has. -/
theorem AnswersWith.noForeignKey {history : List (ℕ × ℕ × TxValue)}
    (h : AnswersWith db address history) : NoForeignKey db.txIndex address := by
  intro a i p v hi hp hget hne hprefix
  have hkeys : (history.map fun e => makeTxKey address e.1 e.2.1).Nodup := by
    rw [List.nodup_iff_pairwise_ne, List.pairwise_map]
    refine h.isHistory.descending.imp_of_mem fun he he' hlt heq => ?_
    obtain ⟨hi, hp, -⟩ := (h.isHistory.mem _ _ _).mp he
    obtain ⟨hi', hp', -⟩ := (h.isHistory.mem _ _ _).mp he'
    obtain ⟨hindex, hposition⟩ := makeTxKey_inj hi hi' hp hp' heq
    rcases hlt with hlt | ⟨-, hlt⟩
    · exact hlt.ne hindex.symm
    · exact hlt.ne hposition.symm
  have hsub : makeTxKey a i p :: history.map (fun e => makeTxKey address e.1 e.2.1) ⊆
      (queried db.txIndex address).map Prod.fst := by
    refine List.cons_subset.mpr ⟨?_, fun k hk => ?_⟩
    · exact List.mem_map.mpr ⟨(makeTxKey a i p, v), mem_queried.mpr ⟨hget, hprefix⟩, rfl⟩
    · obtain ⟨⟨i', p', v'⟩, he, rfl⟩ := List.mem_map.mp hk
      obtain ⟨-, -, hget'⟩ := (h.isHistory.mem _ _ _).mp he
      exact List.mem_map.mpr ⟨(makeTxKey address i' p', v'),
        mem_queried.mpr ⟨hget', prefix_makeTxKey address i' p'⟩, rfl⟩
  have hnodup : (makeTxKey a i p ::
      history.map fun e => makeTxKey address e.1 e.2.1).Nodup := by
    refine List.nodup_cons.mpr ⟨fun hmem => ?_, hkeys⟩
    obtain ⟨e, -, he⟩ := List.mem_map.mp hmem
    exact hne (address_of_makeTxKey he).symm
  have hle := (hnodup.subperm hsub).length_le
  rw [List.length_cons, List.length_map, List.length_map, h.length_queried] at hle
  omega

/-- A query answers with the history of its address, page by page, exactly when no key of another
address begins with the queried address and a zero byte. -/
theorem answersWith_iff (ht : IndexContent core db.txIndex) :
    (∃ history, AnswersWith db address history) ↔ NoForeignKey db.txIndex address := by
  constructor
  · rintro ⟨history, h⟩
    exact h.noForeignKey
  · intro hf
    have hpages := pages_of_noForeignKey ht hf
    refine ⟨historyOf db.txIndex address, isHistory_historyOf ht hf, hpages, fun offset n m => ?_⟩
    refine ⟨_, _, hpages offset n, hpages (offset + n) m, ?_⟩
    rw [hpages, List.take_add, List.drop_drop]

namespace Sample

def minedOnce : Db :=
  Db.empty.saveAppliedBlock plainCore (blockOf [coins "" "miner" 1 0 1] 1 [] 1748000060 32) [] []

theorem minedOnce_answers : (∃ history, AnswersWith minedOnce "miner" history) ↔
    NoForeignKey minedOnce.txIndex "miner" :=
  answersWith_iff (.indexTransactions .empty (by decide +kernel))

/-- A query whose bytes, with a zero byte behind them, begin the key of the miner's record is not
answered with its history. -/
theorem not_answersWith {q : Address} (hq : "miner" ≠ q)
    (h : utf8 q ++ [0] <+: makeTxKey "miner" 1 0) :
    ¬ ∃ history, AnswersWith minedOnce q history := by
  rintro ⟨history, hanswers⟩
  exact hanswers.noForeignKey "miner" 1 0 _ (by decide) (by decide)
    (OrderedTable.get_insert _ _ _) hq h

/-- The miner has one record.  Its address with zero bytes behind it gets that record under another
block index, or a panic. -/
theorem zeroBytes_reach_miner : IndexContent plainCore minedOnce.txIndex ∧
    (minedOnce.getTransactionsForAddress "miner" 0 50).toOption.map
      (fun page => page.map fun r => (r.receiver, r.blockIndex)) = some [("miner", 1)] ∧
    (minedOnce.getTransactionsForAddress "miner\x00" 0 50).toOption.map
      (fun page => page.map fun r => (r.receiver, r.blockIndex)) = some [("miner", 256)] ∧
    (¬ ∃ history, AnswersWith minedOnce "miner\x00" history) ∧
    (minedOnce.getTransactionsForAddress "miner\x00\x00\x00\x00\x00" 0 50).toOption = none ∧
    ¬ ∃ history, AnswersWith minedOnce "miner\x00\x00\x00\x00\x00" history :=
  ⟨.indexTransactions .empty (by decide +kernel), by decide +kernel, by decide +kernel,
    not_answersWith (by decide) (by decide +kernel), by decide +kernel,
    not_answersWith (by decide) (by decide +kernel)⟩

end Sample

end Lootcoin
