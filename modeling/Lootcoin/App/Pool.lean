import Lootcoin.Api

/-! What a step of the chain does to the pool.  Displaced transactions come back one after the other
where their senders can pay for them, and then whatever the new blocks include or has expired is
gone. -/

namespace Lootcoin

/-- The transactions of blocks, in order. -/
def transactionsOf (bs : List Block) : List Transaction := bs.flatMap fun b => b.transactions

theorem signaturesIn_transactionsOf (bs : List Block) :
    signaturesIn (transactionsOf bs) = signaturesOf bs := by
  simp [signaturesIn, transactionsOf, signaturesOf, List.filter_flatMap, List.map_flatMap]

namespace Mempool

variable {core : Core} {p : Mempool} {tx : Transaction} {txs : List Transaction} {sig : Bytes}
  {e : MempoolEntry} {height : ℕ} {getBalance : Address → ℕ} {bs : List Block}

/-! ### Removal -/

theorem lookup_removeBlocks (bs : List Block) (p : Mempool) :
    (p.removeBlocks core bs).entries.lookup sig =
      if sig ∈ signaturesOf bs then none else p.entries.lookup sig := by
  induction bs generalizing p with
  | nil => rfl
  | cons b bs ih =>
    rw [show p.removeBlocks core (b :: bs) =
        (p.removeIncluded core b.transactions).removeBlocks core bs from rfl, ih,
      lookup_removeIncluded]
    simp only [signaturesOf, List.flatMap_cons, List.mem_append]
    by_cases hb : sig ∈ signaturesIn b.transactions <;> simp [hb]

/-- What is left of a pool when blocks have become canonical. -/
def leftBy (core : Core) (p : Mempool) (newBlocks : List Block) (height : ℕ) : Mempool :=
  (p.removeBlocks core newBlocks).evictExpired core height

theorem lookup_leftBy : (p.leftBy core bs height).entries.lookup sig = some e ↔
    p.entries.lookup sig = some e ∧ sig ∉ signaturesOf bs ∧ e.unexpired height = true := by
  rw [leftBy, lookup_evictExpired, lookup_removeBlocks]
  by_cases hsig : sig ∈ signaturesOf bs <;> simp [hsig]

/-- The weight that is left is that of the entries that stay. -/
theorem weigh_leftBy (w : Bytes → MempoolEntry → ℕ) :
    HashTable.weigh w (p.leftBy core bs height).entries = HashTable.weigh
      (fun sig e => if sig ∉ signaturesOf bs ∧ e.unexpired height = true then w sig e else 0)
      p.entries := by
  apply HashTable.weigh_congr
  intro sig
  cases hleft : (p.leftBy core bs height).entries.lookup sig with
  | some e =>
    obtain ⟨hp, hstay⟩ := lookup_leftBy.mp hleft
    rw [HashTable.weightAt_of_lookup hleft, HashTable.weightAt_of_lookup hp, if_pos hstay]
  | none =>
    rw [HashTable.weightAt_of_none hleft]
    cases hp : p.entries.lookup sig with
    | none => rw [HashTable.weightAt_of_none hp]
    | some e =>
      rw [HashTable.weightAt_of_lookup hp, if_neg]
      intro hstay
      rw [lookup_leftBy.mpr ⟨hp, hstay⟩] at hleft
      cases hleft

theorem pendingDebit_leftBy_le (a : Address) :
    (p.leftBy core bs height).pendingDebit a ≤ p.pendingDebit a := by
  have hle : HashTable.weigh (debitWeight a) (p.leftBy core bs height).entries ≤
      HashTable.weigh (debitWeight a) p.entries := by
    rw [weigh_leftBy]
    apply HashTable.weigh_le_weigh
    intro sig e
    split
    · exact Nat.le_refl _
    · exact Nat.zero_le _
  rw [pendingDebit_eq, pendingDebit_eq]
  omega

/-! ### Return -/

/-- A transaction comes back into a pool: it is a transfer that is not pending there, and its sender
can pay for it beside what is. -/
structure ComesBack (getBalance : Address → ℕ) (p : Mempool) (tx : Transaction) : Prop where
  transfer : tx.isCoinbase = false
  fresh : p.contains tx.signature = false
  affordable : costOf tx ≤ getBalance tx.sender - p.pendingDebit tx.sender

/-- What every transaction that comes back preserves, all of them preserve. -/
theorem readdDisplaced_invariant {P : Mempool → Prop}
    (hstep : ∀ {q : Mempool} {tx : Transaction}, tx ∈ txs → (h : ComesBack getBalance q tx) → P q →
      P (q.put core tx height h.transfer)) (hp : P p) :
    P (p.readdDisplaced core getBalance height txs) := by
  induction txs generalizing p with
  | nil => exact hp
  | cons tx txs ih =>
    have hlater : ∀ {q : Mempool}, P q → P (q.readdDisplaced core getBalance height txs) :=
      fun hq => ih (fun htx => hstep (List.mem_cons_of_mem _ htx)) hq
    rw [readdDisplaced]
    split
    · exact hlater hp
    rename_i hc
    split
    · exact hlater hp
    rename_i hfresh
    split
    · exact hlater hp
    split
    · exact hp
    split
    · exact hlater hp
    rename_i hcost
    exact hlater (hstep List.mem_cons_self ⟨Bool.eq_false_of_not_eq_true hc,
      Bool.eq_false_of_not_eq_true hfresh, Nat.not_lt.mp hcost⟩ hp)

theorem readdBlocks_invariant {P : Mempool → Prop}
    (hstep : ∀ {q : Mempool} {tx : Transaction}, (∃ b ∈ bs, tx ∈ b.transactions) →
      (h : ComesBack getBalance q tx) → P q → P (q.put core tx height h.transfer)) (hp : P p) :
    P (p.readdBlocks core getBalance height bs) := by
  induction bs generalizing p with
  | nil => exact hp
  | cons b bs ih =>
    apply ih fun ⟨b', hb', htx⟩ => hstep ⟨b', List.mem_cons_of_mem _ hb', htx⟩
    exact readdDisplaced_invariant (fun htx => hstep ⟨b, List.mem_cons_self, htx⟩) hp

theorem ComesBack.lookup_put {q : Mempool} (h : ComesBack getBalance q tx)
    (hsig : q.entries.lookup sig = some e) :
    (q.put core tx height h.transfer).entries.lookup sig = some e := by
  rw [Mempool.lookup_put h.transfer, if_neg]
  · exact hsig
  · rintro rfl
    rw [contains_eq_false.mp h.fresh] at hsig
    cases hsig

/-- What is pending in `q` was so in `p`, or has come back from a list of transactions. -/
def CameFrom (p : Mempool) (txs : List Transaction) (height : ℕ) (q : Mempool) : Prop :=
  ∀ {sig e}, q.entries.lookup sig = some e →
    p.entries.lookup sig = some e ∨ sig ∈ signaturesIn txs ∧ e.addedHeight = height

theorem CameFrom.put {q : Mempool} (hq : CameFrom p txs height q) (htx : tx ∈ txs)
    (h : ComesBack getBalance q tx) : CameFrom p txs height (q.put core tx height h.transfer) := by
  intro sig e he
  rw [Mempool.lookup_put h.transfer] at he
  split at he
  · rename_i hsig
    cases he
    refine .inr ⟨?_, rfl⟩
    simpa [signaturesIn, hsig] using ⟨tx, ⟨htx, h.transfer⟩, rfl⟩
  · exact hq he

/-- What was pending stays pending. -/
theorem lookup_readdDisplaced_of_lookup (h : p.entries.lookup sig = some e) :
    (p.readdDisplaced core getBalance height txs).entries.lookup sig = some e :=
  readdDisplaced_invariant (P := fun q => q.entries.lookup sig = some e)
    (fun _ hback => hback.lookup_put) h

theorem cameFrom_readdDisplaced :
    CameFrom p txs height (p.readdDisplaced core getBalance height txs) :=
  readdDisplaced_invariant (P := CameFrom p txs height) (fun htx hback hq => hq.put htx hback)
    fun h => .inl h

theorem lookup_readdBlocks_of_lookup (h : p.entries.lookup sig = some e) :
    (p.readdBlocks core getBalance height bs).entries.lookup sig = some e :=
  readdBlocks_invariant (P := fun q => q.entries.lookup sig = some e)
    (fun _ hback => hback.lookup_put) h

theorem cameFrom_readdBlocks :
    CameFrom p (transactionsOf bs) height (p.readdBlocks core getBalance height bs) :=
  readdBlocks_invariant (P := CameFrom p (transactionsOf bs) height)
    (fun htx hback hq => hq.put (List.mem_flatMap.mpr htx) hback) fun h => .inl h

/-- A sender's debits in the pool are as they were, or what has come back keeps them within the
balance. -/
theorem readdBlocks_affordable (a : Address) :
    (∀ w : Bytes → MempoolEntry → ℕ, (∀ sig e, w sig e ≤ debitWeight a sig e) →
      HashTable.weigh w (p.readdBlocks core getBalance height bs).entries =
        HashTable.weigh w p.entries) ∨
      (p.readdBlocks core getBalance height bs).pendingDebit a ≤ getBalance a := by
  refine readdBlocks_invariant (P := fun q => (∀ w : Bytes → MempoolEntry → ℕ,
    (∀ sig e, w sig e ≤ debitWeight a sig e) →
      HashTable.weigh w q.entries = HashTable.weigh w p.entries) ∨ q.pendingDebit a ≤ getBalance a)
    ?_ (.inl fun _ _ => rfl)
  intro q tx _ hback hq
  have hafford := hback.affordable
  by_cases hpays : tx.sender = a ∧ 0 < costOf tx
  · right
    obtain ⟨rfl, hpos⟩ := hpays
    rw [pendingDebit_put hback.transfer hback.fresh, if_pos rfl, Word.saturatingAdd]
    omega
  · have hfree : debitWeight a tx.signature ⟨tx, height⟩ = 0 := by
      unfold debitWeight
      split
      · rename_i hsender
        exact Nat.eq_zero_of_not_pos fun hpos => hpays ⟨hsender, hpos⟩
      · rfl
    rcases hq with hsame | hle
    · left
      intro w hw
      have hnew := hw tx.signature ⟨tx, height⟩
      rw [weigh_put hback.transfer hback.fresh, hsame w hw]
      omega
    · right
      rw [pendingDebit_eq, weigh_put hback.transfer hback.fresh, hfree, Nat.zero_add,
        ← pendingDebit_eq]
      exact hle

/-- After displaced transactions have come back and the new blocks have taken theirs, a sender can
pay for what is pending exactly when it could if nothing had come back. -/
theorem settled_affordable_iff (old : List Block) (a : Address) :
    ((p.readdBlocks core getBalance height old).leftBy core bs height).pendingDebit a ≤
        getBalance a ↔
      (p.leftBy core bs height).pendingDebit a ≤ getBalance a := by
  rw [pendingDebit_eq, pendingDebit_eq, weigh_leftBy, weigh_leftBy]
  set w : Bytes → MempoolEntry → ℕ := fun sig e =>
    if sig ∉ signaturesOf bs ∧ e.unexpired height = true then debitWeight a sig e else 0 with hwdef
  have hw : ∀ sig e, w sig e ≤ debitWeight a sig e := by
    intro sig e
    simp only [hwdef]
    split
    · exact Nat.le_refl _
    · exact Nat.zero_le _
  rcases readdBlocks_affordable a with hsame | hle
  · rw [hsame w hw]
  · have hless : HashTable.weigh w (p.readdBlocks core getBalance height old).entries ≤
        HashTable.weigh (debitWeight a) (p.readdBlocks core getBalance height old).entries :=
      HashTable.weigh_le_weigh hw
    have hmore : HashTable.weigh w p.entries ≤
        HashTable.weigh w (p.readdBlocks core getBalance height old).entries := by
      apply HashTable.weigh_mono
      intro sig
      cases h : p.entries.lookup sig with
      | none => rw [HashTable.weightAt_of_none h]; exact Nat.zero_le _
      | some e =>
        rw [HashTable.weightAt_of_lookup h,
          HashTable.weightAt_of_lookup (lookup_readdBlocks_of_lookup h)]
    rw [pendingDebit_eq] at hle
    omega

end Mempool

end Lootcoin
