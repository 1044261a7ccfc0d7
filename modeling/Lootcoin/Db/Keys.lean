import Lootcoin.Encoding
import Lootcoin.Db

/-! The keys of the transaction index, and the entries that a block has there.  The twelve bytes at
the end of a key are the numbers of the block and of the position, so a key gives back its
address, its block, and its position, and the entries of different blocks have different keys. -/

namespace Lootcoin

/-- The block index in a key. -/
def keyIndex (k : Bytes) : ℕ := fromBigEndian ((k.drop (k.length - 12)).take 8)

/-- The position in a key. -/
def keyPosition (k : Bytes) : ℕ := fromBigEndian (k.drop (k.length - 4))

theorem length_makeTxKey (a : Address) (i p : ℕ) :
    (makeTxKey a i p).length = (utf8 a).length + 13 := by
  simp only [makeTxKey, List.length_append, List.length_cons, length_bigEndian]

/-- What follows the first byte after the address is the twelve bytes of the numbers. -/
theorem drop_makeTxKey (a : Address) (i p : ℕ) :
    (makeTxKey a i p).drop ((utf8 a).length + 1) = bigEndian 8 i ++ bigEndian 4 p := by
  have hsplit : makeTxKey a i p = (utf8 a ++ [0]) ++ (bigEndian 8 i ++ bigEndian 4 p) := by
    simp [makeTxKey]
  rw [hsplit]
  exact List.drop_left' (by simp)

theorem keyIndex_makeTxKey (a : Address) {i : ℕ} (p : ℕ) (hi : i < 2 ^ 64) :
    keyIndex (makeTxKey a i p) = i := by
  rw [keyIndex, length_makeTxKey, show (utf8 a).length + 13 - 12 = (utf8 a).length + 1 by omega,
    drop_makeTxKey, List.take_left' (length_bigEndian 8 i), fromBigEndian_bigEndian hi]

theorem keyPosition_makeTxKey (a : Address) (i : ℕ) {p : ℕ} (hp : p < 2 ^ 32) :
    keyPosition (makeTxKey a i p) = p := by
  rw [keyPosition, length_makeTxKey,
    show (utf8 a).length + 13 - 4 = (utf8 a).length + 1 + 8 by omega,
    ← List.drop_drop, drop_makeTxKey, List.drop_left' (length_bigEndian 8 i),
    fromBigEndian_bigEndian hp]

/-- A position counts modulo `2 ^ 32`. -/
theorem makeTxKey_mod (a : Address) (i p : ℕ) : makeTxKey a i (p % 2 ^ 32) = makeTxKey a i p := by
  rw [makeTxKey, makeTxKey]
  exact congrArg (fun bs => utf8 a ++ 0 :: (bigEndian 8 i ++ bs)) (bigEndian_mod 4 p)

/-- A key belongs to one address only. -/
theorem address_of_makeTxKey {a a' : Address} {i i' p p' : ℕ}
    (h : makeTxKey a i p = makeTxKey a' i' p') : a = a' := by
  have hlen := congrArg List.length h
  rw [length_makeTxKey, length_makeTxKey] at hlen
  exact utf8_injective (List.append_inj_left h (by omega))

/-- The keys of one address are ordered by block and position. -/
theorem makeTxKey_lt_makeTxKey {a : Address} {i i' p p' : ℕ} (hi : i < 2 ^ 64) (hi' : i' < 2 ^ 64)
    (hp : p < 2 ^ 32) (hp' : p' < 2 ^ 32) :
    makeTxKey a i p < makeTxKey a i' p' ↔ i < i' ∨ i = i' ∧ p < p' := by
  rw [makeTxKey, makeTxKey, Lexicographic.append_lt_append_iff rfl,
    Lexicographic.cons_lt_cons_iff, Lexicographic.append_lt_append_iff
      (by rw [length_bigEndian, length_bigEndian]),
    bigEndian_lt_bigEndian hi hi', bigEndian_lt_bigEndian hp hp', bigEndian_inj hi hi']
  simp

theorem makeTxKey_inj {a : Address} {i i' p p' : ℕ} (hi : i < 2 ^ 64) (hi' : i' < 2 ^ 64)
    (hp : p < 2 ^ 32) (hp' : p' < 2 ^ 32) (h : makeTxKey a i p = makeTxKey a i' p') :
    i = i' ∧ p = p' := by
  have hlt := mt (makeTxKey_lt_makeTxKey hi hi' hp hp').mpr h.not_lt
  have hgt := mt (makeTxKey_lt_makeTxKey hi' hi hp' hp).mpr h.not_gt
  omega

/-! ### The entries of a block -/

/-- The index entries of the transactions of a block, in the order in which they are written. -/
def transactionEntries (core : Core) (b : Block) : List (Bytes × TxValue) :=
  b.transactions.zipIdx.flatMap fun e =>
    (makeTxKey e.1.receiver b.index e.2, makeTxValue core e.1 b.index e.2) ::
      if e.1.isCoinbase then []
      else [(makeTxKey e.1.sender b.index e.2, makeTxValue core e.1 b.index e.2)]

/-- The index entries of the payouts of a block. -/
def payoutEntries (core : Core) (blockIndex : ℕ) (payouts : List Payout) :
    List (Bytes × TxValue) :=
  payouts.zipIdx.map fun e => (makeTxKey e.1.receiver blockIndex (payoutPosition + e.2),
    makeLotteryValue core e.1.receiver e.1.amount blockIndex e.2)

/-- The index entries of a block that is saved with payouts. -/
def blockEntries (core : Core) (b : Block) (payouts : List Payout) : List (Bytes × TxValue) :=
  transactionEntries core b ++ payoutEntries core b.index payouts

theorem indexTransactions_eq (core : Core) (t : OrderedTable Bytes TxValue) (b : Block) :
    indexTransactions core t b = t.insertAll (transactionEntries core b) := by
  rw [indexTransactions, OrderedTable.insertAll, transactionEntries, List.foldl_flatMap]
  congr 1
  funext t e
  cases hc : e.1.isCoinbase <;> simp [hc]

theorem unindexTransactions_eq (core : Core) (t : OrderedTable Bytes TxValue) (b : Block) :
    unindexTransactions t b = t.removeAll ((transactionEntries core b).map Prod.fst) := by
  rw [unindexTransactions, OrderedTable.removeAll, transactionEntries, List.map_flatMap,
    List.foldl_flatMap]
  congr 1
  funext t e
  cases hc : e.1.isCoinbase <;> simp [hc]

theorem indexPayouts_eq (core : Core) (t : OrderedTable Bytes TxValue) (i : ℕ) (ps : List Payout) :
    indexPayouts core t i ps = t.insertAll (payoutEntries core i ps) := by
  rw [indexPayouts, OrderedTable.insertAll, payoutEntries, List.foldl_map]

theorem unindexPayouts_eq (core : Core) (t : OrderedTable Bytes TxValue) (i : ℕ)
    (ps : List Payout) :
    unindexPayouts t i ps = t.removeAll ((payoutEntries core i ps).map Prod.fst) := by
  rw [unindexPayouts, OrderedTable.removeAll, payoutEntries, List.map_map, List.foldl_map]
  rfl

/-! Every entry of a block is stored under a key with the index of the block. -/

theorem key_of_mem_transactionEntries {core : Core} {b : Block} {k : Bytes}
    (h : k ∈ (transactionEntries core b).map Prod.fst) : ∃ a p, k = makeTxKey a b.index p := by
  rw [transactionEntries, List.map_flatMap, List.mem_flatMap] at h
  obtain ⟨e, -, h⟩ := h
  rw [List.map_cons] at h
  rcases List.mem_cons.mp h with rfl | h
  · exact ⟨_, _, rfl⟩
  · split at h
    · simp at h
    · exact ⟨_, _, List.mem_singleton.mp h⟩

theorem key_of_mem_payoutEntries {core : Core} {i : ℕ} {ps : List Payout} {k : Bytes}
    (h : k ∈ (payoutEntries core i ps).map Prod.fst) : ∃ a p, k = makeTxKey a i p := by
  rw [payoutEntries, List.map_map, List.mem_map] at h
  obtain ⟨e, -, rfl⟩ := h
  exact ⟨_, _, rfl⟩

theorem keyIndex_of_mem_transactionEntries {core : Core} {b : Block} {k : Bytes}
    (hb : b.index < 2 ^ 64) (h : k ∈ (transactionEntries core b).map Prod.fst) :
    keyIndex k = b.index := by
  obtain ⟨a, p, rfl⟩ := key_of_mem_transactionEntries h
  exact keyIndex_makeTxKey a p hb

theorem keyIndex_of_mem_payoutEntries {core : Core} {i : ℕ} {ps : List Payout} {k : Bytes}
    (hi : i < 2 ^ 64) (h : k ∈ (payoutEntries core i ps).map Prod.fst) : keyIndex k = i := by
  obtain ⟨a, p, rfl⟩ := key_of_mem_payoutEntries h
  exact keyIndex_makeTxKey a p hi

theorem keyIndex_of_mem_blockEntries {core : Core} {b : Block} {ps : List Payout} {k : Bytes}
    (hb : b.index < 2 ^ 64) (h : k ∈ (blockEntries core b ps).map Prod.fst) :
    keyIndex k = b.index := by
  rw [blockEntries, List.map_append, List.mem_append] at h
  rcases h with h | h
  · exact keyIndex_of_mem_transactionEntries hb h
  · exact keyIndex_of_mem_payoutEntries hb h

end Lootcoin
