import Mathlib.Data.List.Lex
import Lootcoin.Library.OrderedTable
import Lootcoin.Library.Weights
import Lootcoin.Types

/-! The pool of pending transactions, under their signatures, with the table that persists it.
Every entry is a transfer and lies under its own signature.  What the entries of a sender add up
to, the operations of the pool change by what they add and remove. -/

namespace Lootcoin

def maxMempoolSize : ℕ := 10000
def txExpiryBlocks : ℕ := 100
def maxPendingPerSender : ℕ := 25

/-- What a transfer takes from its sender, saturating. -/
def costOf (tx : Transaction) : ℕ := Word.saturatingAdd 64 tx.amount tx.fee

/-- A pending transaction with the height at which it was added. -/
structure MempoolEntry where
  tx : Transaction
  addedHeight : ℕ
  deriving DecidableEq

/-- An entry has been in the pool for no more than the expiry. -/
def MempoolEntry.unexpired (e : MempoolEntry) (currentHeight : ℕ) : Bool :=
  decide (currentHeight - e.addedHeight ≤ txExpiryBlocks)

/-- `table` is the stored copy, under transaction identifiers, of a pool that has a database. -/
structure Mempool where
  entries : HashTable Bytes MempoolEntry
  table : Option (OrderedTable Bytes (Transaction × ℕ))
  keyed : ∀ sig e, entries.lookup sig = some e → e.tx.signature = sig ∧ e.tx.isCoinbase = false

namespace Mempool

def new (table : Option (OrderedTable Bytes (Transaction × ℕ))) : Mempool where
  entries := ∅
  table := table
  keyed := by simp

def contains (p : Mempool) (sig : Bytes) : Bool := (p.entries.lookup sig).isSome

/-! ### Counts -/

def len (p : Mempool) : ℕ := p.entries.size

/-- The entries of a sender, in the order of iteration. -/
def entriesOf (p : Mempool) (sender : Address) : List MempoolEntry :=
  p.entries.values.filter fun e => e.tx.sender = sender

def pendingCount (p : Mempool) (sender : Address) : ℕ := (p.entriesOf sender).length

def pendingDebit (p : Mempool) (sender : Address) : ℕ :=
  Word.saturatingSum 64 ((p.entriesOf sender).map fun e => costOf e.tx)

/-! ### Changes -/

/-- Holds a transfer in memory. -/
def hold (p : Mempool) (tx : Transaction) (height : ℕ) (hc : tx.isCoinbase = false) : Mempool where
  entries := p.entries.insert tx.signature ⟨tx, height⟩
  table := p.table
  keyed := by
    intro sig e he
    by_cases hsig : sig = tx.signature
    · rw [hsig, AList.lookup_insert, Option.some.injEq] at he
      subst he
      exact ⟨hsig.symm, hc⟩
    · rw [AList.lookup_insert_ne hsig] at he
      exact p.keyed sig e he

def saveMempoolTx (core : Core) (p : Mempool) (tx : Transaction) (height : ℕ) : Mempool :=
  { p with table := p.table.map fun t => t.insert (core.txid tx) (tx, height) }

/-- Stores a transfer and holds it. -/
def put (core : Core) (p : Mempool) (tx : Transaction) (height : ℕ)
    (hc : tx.isCoinbase = false) : Mempool :=
  (p.saveMempoolTx core tx height).hold tx height hc

def removeMempoolTxs (p : Mempool) (txids : List Bytes) : Mempool :=
  { p with table := p.table.map fun t => txids.foldl OrderedTable.remove t }

/-- Populates the pool from stored entries, up to the limits, without storing them again. -/
def restore : Mempool → List (Transaction × ℕ) → Mempool
  | p, [] => p
  | p, (tx, addedHeight) :: rest =>
    if hc : tx.isCoinbase then restore p rest
    else if maxMempoolSize ≤ p.len then p
    else if p.contains tx.signature then restore p rest
    else if maxPendingPerSender ≤ p.pendingCount tx.sender then restore p rest
    else restore (p.hold tx addedHeight (Bool.eq_false_of_not_eq_true hc)) rest

/-- Adds a transaction unless it is a coinbase, its signature is pending, or a limit is reached. -/
def addTransaction (core : Core) (p : Mempool) (tx : Transaction) (currentHeight : ℕ) :
    Bool × Mempool :=
  if hc : tx.isCoinbase then (false, p)
  else if p.contains tx.signature then (false, p)
  else if maxPendingPerSender ≤ p.pendingCount tx.sender then (false, p)
  else if maxMempoolSize ≤ p.len then (false, p)
  else (true, p.put core tx currentHeight (Bool.eq_false_of_not_eq_true hc))

/-- The pool without the entry under a signature. -/
def discard (p : Mempool) (sig : Bytes) : Mempool where
  entries := p.entries.erase sig
  table := p.table
  keyed := by
    intro sig' e he
    by_cases hsig : sig' = sig
    · rw [hsig, AList.lookup_erase] at he
      cases he
    · rw [AList.lookup_erase_ne hsig] at he
      exact p.keyed sig' e he

/-- Removes what lies under the signature of a transfer, and notes its identifier. -/
def takeOut (core : Core) (acc : Mempool × List Bytes) (tx : Transaction) : Mempool × List Bytes :=
  if tx.isCoinbase then acc
  else
    match acc.1.entries.lookup tx.signature with
    | none => acc
    | some entry => (acc.1.discard tx.signature, acc.2 ++ [core.txid entry.tx])

/-- Removes every transaction that a block included. -/
def removeIncluded (core : Core) (p : Mempool) (included : List Transaction) : Mempool :=
  let (taken, removedTxids) := included.foldl (takeOut core) (p, [])
  taken.removeMempoolTxs removedTxids

/-- Drops the entries that have expired. -/
def evictExpired (core : Core) (p : Mempool) (currentHeight : ℕ) : Mempool :=
  let evicted := p.entries.values.filter fun e => !e.unexpired currentHeight
  let kept : Mempool := {
    entries := p.entries.retain fun _ e => e.unexpired currentHeight
    table := p.table
    keyed := fun sig e he => p.keyed sig e (HashTable.lookup_retain.mp he).1 }
  kept.removeMempoolTxs (evicted.map fun e => core.txid e.tx)

/-- Every pending transaction with the height at which it was added. -/
def allTransactionsWithHeight (p : Mempool) : List (Transaction × ℕ) :=
  p.entries.values.map fun e => (e.tx, e.addedHeight)

/-- Puts back the transactions of a displaced block that their senders can afford beside what is
pending. -/
def readdDisplaced (core : Core) (getBalance : Address → ℕ) (currentHeight : ℕ) :
    Mempool → List Transaction → Mempool
  | p, [] => p
  | p, tx :: txs =>
    if hc : tx.isCoinbase then readdDisplaced core getBalance currentHeight p txs
    else if p.contains tx.signature then readdDisplaced core getBalance currentHeight p txs
    else if maxPendingPerSender ≤ p.pendingCount tx.sender then
      readdDisplaced core getBalance currentHeight p txs
    else if maxMempoolSize ≤ p.len then p
    else if getBalance tx.sender - p.pendingDebit tx.sender < costOf tx then
      readdDisplaced core getBalance currentHeight p txs
    else
      readdDisplaced core getBalance currentHeight
        (p.put core tx currentHeight (Bool.eq_false_of_not_eq_true hc)) txs

/-! ### What the pool holds -/

variable {core : Core} {p : Mempool} {tx : Transaction} {txs : List Transaction} {sig : Bytes}
  {e : MempoolEntry} {height : ℕ}

theorem contains_eq_false : p.contains sig = false ↔ p.entries.lookup sig = none := by
  simp [contains]

theorem lookup_put (hc : tx.isCoinbase = false) : (p.put core tx height hc).entries.lookup sig =
    if sig = tx.signature then some ⟨tx, height⟩ else p.entries.lookup sig := by
  show (p.entries.insert tx.signature ⟨tx, height⟩).lookup sig = _
  split
  · rename_i h
    rw [h, AList.lookup_insert]
  · rename_i h
    rw [AList.lookup_insert_ne h]

/-- An admission adds the transaction, whose signature was not pending, below the limits. -/
theorem addTransaction_eq_true {p' : Mempool} : p.addTransaction core tx height = (true, p') ↔
    p.contains tx.signature = false ∧ p.pendingCount tx.sender < maxPendingPerSender ∧
      p.len < maxMempoolSize ∧ ∃ hc, p' = p.put core tx height hc := by
  unfold addTransaction
  split
  · rename_i hc
    simp [hc]
  split
  · rename_i hpending
    simp [hpending]
  split
  · rename_i hcount
    simp [Nat.not_lt.mpr hcount]
  split
  · rename_i hlen
    simp [Nat.not_lt.mpr hlen]
  rename_i hc hpending hcount hlen
  have hc' : tx.isCoinbase = false := Bool.eq_false_of_not_eq_true hc
  have hpending' : p.contains tx.signature = false := Bool.eq_false_of_not_eq_true hpending
  simp only [Prod.mk.injEq, true_and, hpending', Nat.not_le.mp hcount, Nat.not_le.mp hlen]
  exact ⟨fun h => ⟨hc', h.symm⟩, fun ⟨_, h⟩ => h.symm⟩

theorem eq_of_addTransaction_false {p' : Mempool}
    (h : p.addTransaction core tx height = (false, p')) : p' = p := by
  unfold addTransaction at h
  split at h
  · exact (Prod.mk.inj h).2.symm
  split at h
  · exact (Prod.mk.inj h).2.symm
  split at h
  · exact (Prod.mk.inj h).2.symm
  split at h
  · exact (Prod.mk.inj h).2.symm
  · cases (Prod.mk.inj h).1

theorem lookup_foldl_takeOut (txs : List Transaction) (acc : Mempool × List Bytes) :
    (txs.foldl (takeOut core) acc).1.entries.lookup sig =
      if sig ∈ signaturesIn txs then none else acc.1.entries.lookup sig := by
  induction txs generalizing acc with
  | nil => simp
  | cons tx txs ih =>
    rw [List.foldl_cons, ih]
    cases hc : tx.isCoinbase with
    | true => rw [takeOut, if_pos hc, signaturesIn_coinbase hc]
    | false =>
      have hstep : (takeOut core acc tx).1.entries.lookup sig =
          if sig = tx.signature then none else acc.1.entries.lookup sig := by
        unfold takeOut
        rw [if_neg (by simp [hc])]
        split
        · rename_i hnone
          split
          · rename_i hsig
            rw [hsig, hnone]
          · rfl
        · show (acc.1.entries.erase tx.signature).lookup sig = _
          split
          · rename_i hsig
            rw [hsig, AList.lookup_erase]
          · rename_i hsig
            rw [AList.lookup_erase_ne hsig]
      rw [hstep, signaturesIn_transfer hc]
      by_cases hsig : sig = tx.signature
      · simp [hsig]
      · simp [hsig]

/-- What a block included is no longer pending, and the rest stays. -/
theorem lookup_removeIncluded : (p.removeIncluded core txs).entries.lookup sig =
    if sig ∈ signaturesIn txs then none else p.entries.lookup sig :=
  lookup_foldl_takeOut txs (p, [])

theorem lookup_evictExpired : (p.evictExpired core height).entries.lookup sig = some e ↔
    p.entries.lookup sig = some e ∧ e.unexpired height = true :=
  HashTable.lookup_retain

/-! ### Sums over the entries -/

/-- What an entry costs a sender: nothing if it is another's. -/
def debitWeight (sender : Address) (_ : Bytes) (e : MempoolEntry) : ℕ :=
  if e.tx.sender = sender then costOf e.tx else 0

theorem pendingDebit_eq (p : Mempool) (sender : Address) : p.pendingDebit sender =
    min (HashTable.weigh (debitWeight sender) p.entries) (Word.maxValue 64) := by
  rw [pendingDebit, Word.saturatingSum_eq, entriesOf, HashTable.sum_filter_values]
  simp only [decide_eq_true_eq]
  rfl

theorem pendingCount_eq (p : Mempool) (sender : Address) : p.pendingCount sender =
    HashTable.weigh (fun _ e => if e.tx.sender = sender then 1 else 0) p.entries := by
  have h := HashTable.sum_filter_values (fun e : MempoolEntry => decide (e.tx.sender = sender))
    (fun _ => 1) p.entries
  rw [List.map_const', List.sum_replicate_nat, Nat.mul_one] at h
  simpa [pendingCount, entriesOf] using h

theorem len_eq (p : Mempool) : p.len = HashTable.weigh (fun _ _ => 1) p.entries := by
  simp [len, HashTable.size, HashTable.weigh]

/-- A new transfer adds the weight of its entry. -/
theorem weigh_put {w : Bytes → MempoolEntry → ℕ} (hc : tx.isCoinbase = false)
    (h : p.contains tx.signature = false) :
    HashTable.weigh w (p.put core tx height hc).entries =
      w tx.signature ⟨tx, height⟩ + HashTable.weigh w p.entries :=
  HashTable.weigh_insert (contains_eq_false.mp h)

theorem pendingDebit_put (hc : tx.isCoinbase = false) (h : p.contains tx.signature = false)
    (sender : Address) : (p.put core tx height hc).pendingDebit sender =
      Word.saturatingAdd 64 (p.pendingDebit sender)
        (if tx.sender = sender then costOf tx else 0) := by
  rw [pendingDebit_eq, pendingDebit_eq, weigh_put hc h, Word.saturatingAdd]
  show min ((if tx.sender = sender then costOf tx else 0) + _) _ = _
  omega

end Mempool

end Lootcoin
