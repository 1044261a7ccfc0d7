import Lootcoin.App.Pool
import Lootcoin.Node.Confirmed

/-! The stored copy of the pool.  Every change of the pool is written to the table with it, and what
a restart reads back is within the limits, so the pool holds it again.  Only the filter of a restart
drops transactions from the pool alone: the table is the pool as long as it drops none. -/

namespace Lootcoin

namespace Mempool

/-- What happens to a pool. The chain of a restart is the one that the node has when it restores the
pool. -/
inductive Op where
  | addTransaction (tx : Transaction) (currentHeight : ℕ)
  | removeIncluded (included : List Transaction)
  | evictExpired (currentHeight : ℕ)
  | readdDisplaced (txs : List Transaction) (getBalance : Address → ℕ) (currentHeight : ℕ)
  | restart (c : Blockchain)

/-- The transactions that may come in. -/
def Op.transactions : Op → List Transaction
  | .addTransaction tx _ => [tx]
  | .readdDisplaced txs _ _ => txs
  | _ => []

def perform (core : Core) (p : Mempool) : Op → Mempool
  | .addTransaction tx currentHeight => (p.addTransaction core tx currentHeight).2
  | .removeIncluded included => p.removeIncluded core included
  | .evictExpired currentHeight => p.evictExpired core currentHeight
  | .readdDisplaced txs getBalance currentHeight =>
    p.readdDisplaced core getBalance currentHeight txs
  | .restart c => p.table.elim (new none) (AppState.startMempool c)

/-- A table holds exactly the entries of a pool, each under its identifier. -/
def Copies (core : Core) (t : OrderedTable Bytes (Transaction × ℕ)) (p : Mempool) : Prop :=
  ∀ txid tx height, t.get txid = some (tx, height) ↔
    p.entries.lookup tx.signature = some ⟨tx, height⟩ ∧ core.txid tx = txid

/-- The table of the pool is a copy of it. -/
def Mirrored (core : Core) (p : Mempool) : Prop := ∃ t, p.table = some t ∧ Copies core t p

/-- A restart finds no pending transaction that is confirmed or has expired. -/
def LosesNoneAt (p : Mempool) : Op → Prop
  | .restart c => ∀ sig e, p.entries.lookup sig = some e →
      sig ∉ c.confirmedSignatures ∧ e.unexpired c.getHeight = true
  | _ => True

variable {core : Core} {p q : Mempool} {tx : Transaction} {txs : List Transaction} {sig : Bytes}
  {e : MempoolEntry} {height : ℕ} {getBalance : Address → ℕ} {S : Set Transaction} {op : Op}

/-! ### What the pool takes -/

/-- A transfer that is not pending comes while no limit is reached. -/
structure Admits (p : Mempool) (tx : Transaction) : Prop where
  transfer : tx.isCoinbase = false
  fresh : p.contains tx.signature = false
  sender : p.pendingCount tx.sender < maxPendingPerSender
  pool : p.len < maxMempoolSize

theorem addTransaction_induction {P : Mempool → Prop} (hp : P p)
    (hput : (h : p.Admits tx) → P (p.put core tx height h.transfer)) :
    P (p.addTransaction core tx height).2 := by
  cases h : p.addTransaction core tx height with
  | mk added p' =>
    cases added with
    | false => exact eq_of_addTransaction_false h ▸ hp
    | true =>
      obtain ⟨hfresh, hcount, hlen, hc, rfl⟩ := addTransaction_eq_true.mp h
      exact hput ⟨hc, hfresh, hcount, hlen⟩

theorem readdDisplaced_induction {P : Mempool → Prop}
    (hput : ∀ {q : Mempool} {tx : Transaction}, tx ∈ txs → (h : q.Admits tx) → P q →
      P (q.put core tx height h.transfer)) (hp : P p) :
    P (p.readdDisplaced core getBalance height txs) := by
  induction txs generalizing p with
  | nil => exact hp
  | cons tx txs ih =>
    have hlater : ∀ {q : Mempool}, P q → P (q.readdDisplaced core getBalance height txs) :=
      fun hq => ih (fun htx => hput (List.mem_cons_of_mem _ htx)) hq
    rw [readdDisplaced]
    split
    · exact hlater hp
    rename_i hc
    split
    · exact hlater hp
    rename_i hfresh
    split
    · exact hlater hp
    rename_i hcount
    split
    · exact hp
    rename_i hlen
    split
    · exact hlater hp
    exact hlater (hput List.mem_cons_self ⟨Bool.eq_false_of_not_eq_true hc,
      Bool.eq_false_of_not_eq_true hfresh, Nat.not_le.mp hcount, Nat.not_le.mp hlen⟩ hp)

theorem restore_induction {P : Mempool → Prop} {stored : List (Transaction × ℕ)}
    (hhold : ∀ {q : Mempool} {s : Transaction × ℕ}, s ∈ stored → (h : q.Admits s.1) → P q →
      P (q.hold s.1 s.2 h.transfer)) (hp : P p) : P (p.restore stored) := by
  induction stored generalizing p with
  | nil => exact hp
  | cons s stored ih =>
    have hlater : ∀ {q : Mempool}, P q → P (q.restore stored) :=
      fun hq => ih (fun hs => hhold (List.mem_cons_of_mem _ hs)) hq
    rw [restore]
    split
    · exact hlater hp
    rename_i hc
    split
    · exact hp
    rename_i hlen
    split
    · exact hlater hp
    rename_i hfresh
    split
    · exact hlater hp
    rename_i hcount
    exact hlater (hhold List.mem_cons_self ⟨Bool.eq_false_of_not_eq_true hc,
      Bool.eq_false_of_not_eq_true hfresh, Nat.not_le.mp hcount, Nat.not_le.mp hlen⟩ hp)

/-! ### The limits -/

/-- A pool holds what another holds. -/
def Within (q p : Mempool) : Prop :=
  ∀ {sig e}, q.entries.lookup sig = some e → p.entries.lookup sig = some e

theorem Within.weigh_le (h : q.Within p) (w : Bytes → MempoolEntry → ℕ) :
    HashTable.weigh w q.entries ≤ HashTable.weigh w p.entries := by
  apply HashTable.weigh_mono
  intro sig
  cases hq : q.entries.lookup sig with
  | none =>
    rw [HashTable.weightAt_of_none hq]
    exact Nat.zero_le _
  | some e => rw [HashTable.weightAt_of_lookup hq, HashTable.weightAt_of_lookup (h hq)]

/-- The pool is within its limits, and its transactions are among those that came in. -/
structure Limited (S : Set Transaction) (p : Mempool) : Prop where
  len : p.len ≤ maxMempoolSize
  sender : ∀ a, p.pendingCount a ≤ maxPendingPerSender
  known : ∀ {sig e}, p.entries.lookup sig = some e → e.tx ∈ S

theorem limited_new (table : Option (OrderedTable Bytes (Transaction × ℕ))) :
    (new table).Limited S := ⟨Nat.zero_le _, fun _ => Nat.zero_le _, nofun⟩

theorem Limited.of_within (hp : p.Limited S) (h : q.Within p) : q.Limited S where
  len := by
    rw [len_eq]
    exact (h.weigh_le _).trans (len_eq p ▸ hp.len)
  sender a := by
    rw [pendingCount_eq]
    exact (h.weigh_le _).trans (pendingCount_eq p a ▸ hp.sender a)
  known he := hp.known (h he)

theorem Limited.put (hp : p.Limited S) (h : p.Admits tx) (htx : tx ∈ S) :
    (p.put core tx height h.transfer).Limited S where
  len := by
    have hlen := h.pool
    rw [len_eq] at hlen ⊢
    rw [weigh_put h.transfer h.fresh]
    omega
  sender a := by
    have hcount := hp.sender a
    rw [pendingCount_eq] at hcount ⊢
    rw [weigh_put h.transfer h.fresh]
    split
    · rename_i ha
      have hroom := h.sender
      rw [pendingCount_eq, ha] at hroom
      omega
    · omega
  known he := by
    rw [lookup_put] at he
    split at he
    · cases he
      exact htx
    · exact hp.known he

theorem Limited.hold (core : Core) (hp : p.Limited S) (h : p.Admits tx) (htx : tx ∈ S) :
    (p.hold tx height h.transfer).Limited S := by
  have hput : (p.put core tx height h.transfer).Limited S := hp.put h htx
  exact hput.of_within fun he => he

/-! ### Writes through to the table -/

theorem mirrored_new : (new (some .empty)).Mirrored core :=
  ⟨.empty, rfl, fun _ _ _ => ⟨nofun, nofun⟩⟩

theorem Mirrored.put (hp : p.Mirrored core) (hlimited : p.Limited S)
    (hinj : Set.InjOn core.txid S) (h : p.Admits tx) (htx : tx ∈ S) :
    (p.put core tx height h.transfer).Mirrored core := by
  obtain ⟨t, ht, hget⟩ := hp
  refine ⟨t.insert (core.txid tx) (tx, height), ?_, fun txid tx' height' => ?_⟩
  · show p.table.map _ = _
    rw [ht, Option.map_some]
  rw [lookup_put]
  by_cases hid : txid = core.txid tx
  · rw [hid, OrderedTable.get_insert]
    constructor
    · rintro ⟨⟩
      exact ⟨if_pos rfl, rfl⟩
    · rintro ⟨hlookup, hsame⟩
      split at hlookup
      · cases hlookup
        rfl
      · rename_i hsig
        exact absurd (congrArg Transaction.signature
          (hinj (hlimited.known hlookup) htx hsame)) hsig
  · rw [OrderedTable.get_insert_ne _ _ hid, hget]
    split
    · rename_i hsig
      rw [hsig, contains_eq_false.mp h.fresh]
      constructor
      · exact nofun
      · rintro ⟨⟨⟩, rfl⟩
        exact absurd rfl hid
    · rfl

/-- A removal takes the same entries out of the pool and out of the table. -/
theorem Mirrored.of_removed (gone : Bytes → MempoolEntry → Prop) (txids : List Bytes)
    (hp : p.Mirrored core) (hlimited : p.Limited S) (hinj : Set.InjOn core.txid S)
    (htable : q.table = p.table.map fun t => t.removeAll txids)
    (hlookup : ∀ sig e, q.entries.lookup sig = some e ↔
      p.entries.lookup sig = some e ∧ ¬ gone sig e)
    (htxids : ∀ txid, txid ∈ txids ↔
      ∃ sig e, p.entries.lookup sig = some e ∧ gone sig e ∧ core.txid e.tx = txid) :
    q.Mirrored core := by
  obtain ⟨t, ht, hget⟩ := hp
  refine ⟨t.removeAll txids, by rw [htable, ht, Option.map_some], fun txid tx height => ?_⟩
  rw [OrderedTable.get_removeAll, hlookup, Option.ite_none_left_eq_some, hget]
  constructor
  · rintro ⟨hkept, hlookup, hid⟩
    exact ⟨⟨hlookup, fun hgone => hkept ((htxids _).mpr ⟨_, _, hlookup, hgone, hid⟩)⟩, hid⟩
  · rintro ⟨⟨hlookup, hkept⟩, hid⟩
    refine ⟨fun hmem => ?_, hlookup, hid⟩
    obtain ⟨sig, e, he, hgone, hid'⟩ := (htxids _).mp hmem
    have hsame := hinj (hlimited.known he) (hlimited.known hlookup) (hid'.trans hid.symm)
    obtain rfl : sig = tx.signature := (p.keyed sig e he).1 ▸ congrArg Transaction.signature hsame
    exact hkept (Option.some.inj (hlookup.symm.trans he) ▸ hgone)

theorem table_foldl_takeOut (acc : Mempool × List Bytes) :
    (txs.foldl (takeOut core) acc).1.table = acc.1.table := by
  induction txs generalizing acc with
  | nil => rfl
  | cons tx txs ih =>
    rw [List.foldl_cons, ih, takeOut]
    split
    · rfl
    · split <;> rfl

/-- The identifiers that a removal notes are those of the entries that it takes out. -/
theorem mem_foldl_takeOut {txid : Bytes} (acc : Mempool × List Bytes) :
    txid ∈ (txs.foldl (takeOut core) acc).2 ↔ txid ∈ acc.2 ∨ ∃ sig e,
      acc.1.entries.lookup sig = some e ∧ sig ∈ signaturesIn txs ∧ core.txid e.tx = txid := by
  induction txs generalizing acc with
  | nil => simp [signaturesIn]
  | cons tx txs ih =>
    rw [List.foldl_cons, ih]
    cases hc : tx.isCoinbase with
    | true => rw [takeOut, if_pos hc, signaturesIn_coinbase hc]
    | false =>
      rw [signaturesIn_transfer hc, takeOut, if_neg (by simp [hc])]
      cases hentry : acc.1.entries.lookup tx.signature with
      | none =>
        refine or_congr_right (exists_congr fun sig => exists_congr fun e => ?_)
        refine and_congr_right fun he => and_congr_left fun _ => ?_
        have hne : sig ≠ tx.signature := by
          rintro rfl
          rw [hentry] at he
          cases he
        simp [hne]
      | some entry =>
        rw [List.mem_append, List.mem_singleton]
        simp only [List.mem_cons]
        show (_ ∨ _) ∨ (∃ sig e, (acc.1.entries.erase tx.signature).lookup sig = some e ∧ _) ↔ _
        simp only [HashTable.lookup_erase_eq_some]
        constructor
        · rintro ((h | rfl) | ⟨sig, e, ⟨-, he⟩, hsig, hid⟩)
          · exact .inl h
          · exact .inr ⟨_, _, hentry, .inl rfl, rfl⟩
          · exact .inr ⟨sig, e, he, .inr hsig, hid⟩
        · rintro (h | ⟨sig, e, he, hsig, hid⟩)
          · exact .inl (.inl h)
          · by_cases hfirst : sig = tx.signature
            · rw [hfirst, hentry, Option.some.injEq] at he
              exact .inl (.inr (he ▸ hid.symm))
            · exact .inr ⟨sig, e, ⟨hfirst, he⟩, hsig.resolve_left hfirst, hid⟩

theorem within_removeIncluded : (p.removeIncluded core txs).Within p := by
  intro sig e he
  rw [lookup_removeIncluded] at he
  exact (Option.ite_none_left_eq_some.mp he).2

theorem Mirrored.removeIncluded (hp : p.Mirrored core) (hlimited : p.Limited S)
    (hinj : Set.InjOn core.txid S) : (p.removeIncluded core txs).Mirrored core := by
  refine hp.of_removed (fun sig _ => sig ∈ signaturesIn txs)
    (txs.foldl (takeOut core) (p, [])).2 hlimited hinj ?_ (fun sig e => ?_) fun txid => ?_
  · show (txs.foldl (takeOut core) (p, [])).1.table.map _ = _
    rw [table_foldl_takeOut]
    rfl
  · rw [lookup_removeIncluded, Option.ite_none_left_eq_some]
    exact and_comm
  · rw [mem_foldl_takeOut]
    simp

theorem within_evictExpired : (p.evictExpired core height).Within p :=
  fun he => (lookup_evictExpired.mp he).1

theorem Mirrored.evictExpired (hp : p.Mirrored core) (hlimited : p.Limited S)
    (hinj : Set.InjOn core.txid S) : (p.evictExpired core height).Mirrored core := by
  refine hp.of_removed (fun _ e => e.unexpired height = false)
    ((p.entries.values.filter fun e => !e.unexpired height).map fun e => core.txid e.tx)
    hlimited hinj rfl (fun sig e => ?_) fun txid => ?_
  · rw [lookup_evictExpired, Bool.not_eq_false]
  · simp only [List.mem_map, List.mem_filter, HashTable.mem_values, Bool.not_eq_true']
    constructor
    · rintro ⟨e, ⟨⟨sig, he⟩, hgone⟩, hid⟩
      exact ⟨sig, e, he, hgone, hid⟩
    · rintro ⟨sig, e, he, hgone, hid⟩
      exact ⟨e, ⟨⟨sig, he⟩, hgone⟩, hid⟩

/-! ### A restart -/

theorem table_restore {stored : List (Transaction × ℕ)} : (p.restore stored).table = p.table :=
  restore_induction (P := fun q => q.table = p.table) (fun _ _ hq => hq) rfl

theorem Limited.restore {stored : List (Transaction × ℕ)} (core : Core) (hp : p.Limited S)
    (h : ∀ s ∈ stored, s.1 ∈ S) : (p.restore stored).Limited S :=
  restore_induction (P := Limited S) (fun hs hadmits hq => hq.hold core hadmits (h _ hs)) hp

/-- What a pool admits of another comes beside what it holds already. -/
theorem Within.hold (h : q.Within p) (hentry : p.entries.lookup tx.signature = some ⟨tx, height⟩)
    (hc : tx.isCoinbase = false) : (q.hold tx height hc).Within p := by
  intro sig e he
  rcases HashTable.lookup_insert_eq_some.mp he with ⟨rfl, rfl⟩ | ⟨-, he⟩
  · exact hentry
  · exact h he

/-- Where the larger pool is within its limits, a smaller one admits the rest of it. -/
theorem Within.admits (h : q.Within p) (hp : p.Limited S)
    (hentry : p.entries.lookup tx.signature = some ⟨tx, height⟩)
    (hfresh : q.contains tx.signature = false) : q.Admits tx := by
  have hc := (p.keyed _ _ hentry).2
  have hsub : (q.hold tx height hc).Within p := h.hold hentry hc
  have hmore : ∀ w : Bytes → MempoolEntry → ℕ,
      w tx.signature ⟨tx, height⟩ + HashTable.weigh w q.entries ≤ HashTable.weigh w p.entries :=
    fun w => (HashTable.weigh_insert (contains_eq_false.mp hfresh)).symm.le.trans (hsub.weigh_le w)
  refine ⟨hc, hfresh, ?_, ?_⟩
  · have hcount := hmore fun _ e => if e.tx.sender = tx.sender then 1 else 0
    rw [if_pos rfl, ← pendingCount_eq, ← pendingCount_eq] at hcount
    have := hp.sender tx.sender
    omega
  · have hlen := hmore fun _ _ => 1
    rw [← len_eq, ← len_eq] at hlen
    have := hp.len
    omega

theorem lookup_restore_of_lookup {stored : List (Transaction × ℕ)}
    (h : p.entries.lookup sig = some e) : (p.restore stored).entries.lookup sig = some e := by
  refine restore_induction (P := fun q => q.entries.lookup sig = some e) (fun _ hadmits hq => ?_) h
  refine HashTable.lookup_insert_eq_some.mpr (.inr ⟨?_, hq⟩)
  rintro rfl
  rw [contains_eq_false.mp hadmits.fresh] at hq
  cases hq

/-- What is restored was stored. -/
theorem mem_of_lookup_restore {stored : List (Transaction × ℕ)}
    {table : Option (OrderedTable Bytes (Transaction × ℕ))}
    (h : ((new table).restore stored).entries.lookup sig = some e) :
    (e.tx, e.addedHeight) ∈ stored := by
  refine restore_induction (P := fun q => ∀ sig e, q.entries.lookup sig = some e →
    (e.tx, e.addedHeight) ∈ stored) (fun hs _ hq sig e he => ?_) (fun sig e he => ?_) sig e h
  · rcases HashTable.lookup_insert_eq_some.mp he with ⟨-, rfl⟩ | ⟨-, he⟩
    · exact hs
    · exact hq sig e he
  · cases he

/-- Whatever is stored of a pool within the limits is restored. -/
theorem Within.lookup_restore {stored : List (Transaction × ℕ)} (h : q.Within p)
    (hp : p.Limited S) (hstored : ∀ s ∈ stored, p.entries.lookup s.1.signature = some ⟨s.1, s.2⟩) :
    ∀ s ∈ stored, (q.restore stored).entries.lookup s.1.signature = some ⟨s.1, s.2⟩ := by
  -- what `q` holds at all it holds as `p` does
  have hheld : ∀ {q : Mempool} {s : Transaction × ℕ}, q.Within p →
      p.entries.lookup s.1.signature = some ⟨s.1, s.2⟩ → q.contains s.1.signature = true →
      q.entries.lookup s.1.signature = some ⟨s.1, s.2⟩ := by
    intro q s hq hs hcontains
    obtain ⟨e, he⟩ := Option.isSome_iff_exists.mp hcontains
    rw [he, ← hq he, hs]
  induction stored generalizing q with
  | nil => exact nofun
  | cons s stored ih =>
    have hrest := fun s' hs' => hstored s' (List.mem_cons_of_mem s hs')
    have hs := hstored s List.mem_cons_self
    have hc := (p.keyed _ _ hs).2
    rw [restore, dif_neg (by simp [hc])]
    split
    · -- a full pool holds all of `p`
      rename_i hfull
      intro s' hs'
      refine hheld h (hstored s' hs') (Bool.not_eq_false _ ▸ fun hfresh => ?_)
      exact absurd (h.admits hp (hstored s' hs') hfresh).pool (Nat.not_lt.mpr hfull)
    split
    · rename_i hcontains
      intro s' hs'
      rcases List.mem_cons.mp hs' with rfl | hs'
      · exact lookup_restore_of_lookup (hheld h hs hcontains)
      · exact ih h hrest s' hs'
    rename_i hfresh
    have hadmits := h.admits hp hs (Bool.eq_false_of_not_eq_true hfresh)
    rw [if_neg (Nat.not_le.mpr hadmits.sender)]
    intro s' hs'
    rcases List.mem_cons.mp hs' with rfl | hs'
    · exact lookup_restore_of_lookup (AList.lookup_insert _)
    · exact ih (h.hold hs hc) hrest s' hs'

theorem Copies.mem_values {t : OrderedTable Bytes (Transaction × ℕ)} (hget : Copies core t p)
    {s : Transaction × ℕ} :
    s ∈ t.values ↔ p.entries.lookup s.1.signature = some ⟨s.1, s.2⟩ := by
  rw [OrderedTable.values, List.mem_map]
  constructor
  · rintro ⟨entry, hentry, rfl⟩
    exact ((hget entry.1 entry.2.1 entry.2.2).mp (OrderedTable.mem_entries.mp hentry)).1
  · intro h
    exact ⟨(core.txid s.1, s), OrderedTable.mem_entries.mpr ((hget _ _ _).mpr ⟨h, rfl⟩), rfl⟩

/-- A restart from a table that is the pool leaves them the same exactly when nothing pending is
confirmed or has expired. -/
theorem Mirrored.restart_iff {c : Blockchain} (hp : p.Mirrored core) (hlimited : p.Limited S) :
    (p.perform core (.restart c)).Mirrored core ↔ p.LosesNoneAt (.restart c) := by
  obtain ⟨t, ht, hget⟩ := hp
  rw [perform, ht, Option.elim_some]
  constructor
  · rintro ⟨t', ht', hget'⟩ sig e he
    obtain rfl : t = t' := by
      rw [AppState.startMempool, table_restore] at ht'
      exact Option.some.inj ht'
    obtain ⟨rfl, -⟩ := p.keyed sig e he
    have hheld := (hget' _ _ _).mp ((hget (core.txid e.tx) e.tx e.addedHeight).mpr ⟨he, rfl⟩)
    have hmem := mem_of_lookup_restore hheld.1
    simpa [MempoolEntry.unexpired] using (List.mem_filter.mp hmem).2
  · intro hkept
    refine ⟨t, table_restore, fun txid tx height => (hget txid tx height).trans
      (and_congr_left fun _ => ⟨fun he => ?_, fun he => ?_⟩)⟩
    · have hempty : (new (some t)).Within p := fun he => by cases he
      refine hempty.lookup_restore hlimited
        (fun s hs => hget.mem_values.mp (List.mem_filter.mp hs).1) (tx, height)
        (List.mem_filter.mpr ⟨hget.mem_values.mpr he, ?_⟩)
      obtain ⟨hconfirmed, hage⟩ := hkept _ _ he
      simpa [MempoolEntry.unexpired, hconfirmed] using hage
    · exact hget.mem_values.mp (List.mem_filter.mp (mem_of_lookup_restore he)).1

/-! ### Runs -/

theorem Limited.perform (hlimited : p.Limited S) (hp : p.Mirrored core)
    (hop : ∀ tx ∈ op.transactions, tx ∈ S) : (p.perform core op).Limited S := by
  cases op with
  | addTransaction tx currentHeight =>
    have htx := hop tx (List.mem_singleton_self _)
    exact addTransaction_induction hlimited fun h => hlimited.put h htx
  | removeIncluded included => exact hlimited.of_within within_removeIncluded
  | evictExpired currentHeight => exact hlimited.of_within within_evictExpired
  | readdDisplaced txs getBalance currentHeight =>
    exact readdDisplaced_induction (fun htx h hq => hq.put h (hop _ htx)) hlimited
  | restart c =>
    obtain ⟨t, ht, hget⟩ := hp
    rw [Mempool.perform, ht, Option.elim_some]
    refine (limited_new _).restore core fun s hs => ?_
    exact hlimited.known (hget.mem_values.mp (List.mem_filter.mp hs).1)

theorem Mirrored.perform_iff (hp : p.Mirrored core) (hlimited : p.Limited S)
    (hinj : Set.InjOn core.txid S) (hop : ∀ tx ∈ op.transactions, tx ∈ S) :
    (p.perform core op).Mirrored core ↔ p.LosesNoneAt op := by
  cases op with
  | addTransaction tx currentHeight =>
    refine iff_of_true (addTransaction_induction hp fun h => ?_) trivial
    exact hp.put hlimited hinj h (hop tx (List.mem_singleton_self _))
  | removeIncluded included => exact iff_of_true (hp.removeIncluded hlimited hinj) trivial
  | evictExpired currentHeight => exact iff_of_true (hp.evictExpired hlimited hinj) trivial
  | readdDisplaced txs getBalance currentHeight =>
    refine iff_of_true (readdDisplaced_induction (P := fun q => q.Mirrored core ∧ q.Limited S)
      (fun htx h hq => ?_) ⟨hp, hlimited⟩).1 trivial
    exact ⟨hq.1.put hq.2 hinj h (hop _ htx), hq.2.put h (hop _ htx)⟩
  | restart c => exact hp.restart_iff hlimited

/-- The runs after whose every step the table is the pool are those whose restarts find nothing
pending that is confirmed or has expired. -/
theorem mirrored_run_iff {ops : List Op}
    (hinj : Set.InjOn core.txid {tx | ∃ op ∈ ops, tx ∈ op.transactions}) :
    Runs.Run (fun p op p' => p' = p.perform core op ∧ p'.Mirrored core) (new (some .empty)) ops p ↔
      Runs.Run (fun p op p' => p' = p.perform core op ∧ p.LosesNoneAt op) (new (some .empty)) ops
        p := by
  refine Runs.Run.iff_of_invariant
    (I := fun p => p.Mirrored core ∧ p.Limited {tx | ∃ op ∈ ops, tx ∈ op.transactions})
    (fun {p op p'} hmem hp => ?_) (fun {p op p'} hmem hp h => ?_) ⟨mirrored_new, limited_new _⟩
  · refine and_congr_right fun h => ?_
    rw [h]
    exact hp.1.perform_iff hp.2 hinj fun tx htx => ⟨op, hmem, htx⟩
  · obtain ⟨rfl, hmirrored⟩ := h
    exact ⟨hmirrored, hp.2.perform hp.1 fun tx htx => ⟨op, hmem, htx⟩⟩

end Mempool

namespace Sample

open Mempool

/-- A pool of one payment. -/
def paymentPool : Mempool := (new (some .empty)).perform plainCore (.addTransaction payment 1)

theorem lookup_paymentPool {sig : Bytes} {e : MempoolEntry}
    (h : paymentPool.entries.lookup sig = some e) : sig = payment.signature ∧ e = ⟨payment, 1⟩ := by
  refine addTransaction_induction (P := fun p => ∀ sig e, p.entries.lookup sig = some e →
    sig = payment.signature ∧ e = ⟨payment, 1⟩) (fun sig e he => ?_) (fun _ sig e he => ?_) sig e h
  · cases he
  · rcases HashTable.lookup_insert_eq_some.mp he with he | he
    · exact he
    · cases he.2

/-- The node restarts while the payment is pending, and a block includes it afterwards. -/
theorem paymentPool_mirrored :
    Runs.Run (fun p op p' => p' = p.perform plainCore op ∧ p'.Mirrored plainCore)
      (new (some .empty))
      [.addTransaction payment 1, .restart node.chain, .removeIncluded [payment]]
      ((paymentPool.perform plainCore (.restart node.chain)).removeIncluded plainCore
        [payment]) := by
  refine (mirrored_run_iff fun tx htx tx' htx' _ => ?_).mpr
    (.cons ⟨rfl, trivial⟩ (.cons ⟨rfl, fun sig e he => ?_⟩ (.cons ⟨rfl, trivial⟩ (.nil _))))
  · simp only [Set.mem_ofPred_eq, List.mem_cons, List.not_mem_nil, or_false, exists_eq_or_imp,
      exists_eq_left, Op.transactions] at htx htx'
    rw [htx, htx']
  · obtain ⟨rfl, rfl⟩ := lookup_paymentPool he
    decide +kernel

/-- The payment is confirmed before the node restarts, which drops it from the pool and leaves it in
the table. -/
theorem confirmedPayment_not_mirrored : ∃ n,
    Runs.Run (Node.DeliversCompletely plainCore) node [paymentDelivery] n ∧
    (paymentPool.perform plainCore (.restart n.chain)).len = 0 ∧
    ((paymentPool.perform plainCore (.restart n.chain)).table.map fun t => t.values) =
      some [(payment, 1)] ∧
    ¬ (paymentPool.perform plainCore (.restart n.chain)).Mirrored plainCore := by
  have hrun : (runCompletely node [paymentDelivery]).map (fun n =>
      let p := paymentPool.perform plainCore (.restart n.chain)
      (p.len, p.table.map fun t => t.values, p.entries.lookup payment.signature)) =
      some (0, some [(payment, 1)], none) := by
    decide +kernel
  obtain ⟨n, hn, hrun⟩ := Option.map_eq_some_iff.mp hrun
  simp only [Prod.mk.injEq] at hrun
  obtain ⟨hlen, htable, hnone⟩ := hrun
  refine ⟨n, run_of_runCompletely hn, hlen, htable, ?_⟩
  rintro ⟨t, ht, hget⟩
  rw [ht, Option.map_some, Option.some.injEq] at htable
  have hmem : (payment, 1) ∈ t.values := htable ▸ List.mem_singleton_self _
  rw [hget.mem_values.mp hmem] at hnone
  cases hnone

end Sample

end Lootcoin
