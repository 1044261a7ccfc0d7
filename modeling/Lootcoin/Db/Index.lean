import Lootcoin.Library.Runs
import Lootcoin.Chain.Supply
import Lootcoin.Db.Keys

/-! The indices of the database under the writes of a node.  `saveAppliedBlock` adds the entries of
one block, and `applyReorgIncremental` takes out those of the displaced blocks and adds those of
the new ones.  After any sequence of such writes, every key reads what the block in its number
gives it, and the indices are those that a rebuild from the stored blocks would write. -/

namespace Lootcoin

/-- A database with the payouts that each block was saved with and the last tickets. -/
structure Indexed where
  db : Db
  paid : ℕ → List Payout
  tickets : List LootTicket

/-- A table of payouts by block index holds the given payouts. -/
def Holds (payoutsByBlock : HashTable ℕ (List Payout)) (paid : ℕ → List Payout) : Prop :=
  ∀ i, HashTable.getD payoutsByBlock i [] = paid i

/-- The three index tables of a database are what a rebuild from its blocks would write. -/
structure Rebuilt (core : Core) (db : Db) (tickets : List LootTicket)
    (payoutsByBlock : HashTable ℕ (List Payout)) : Prop where
  txIndex : db.txIndex = (db.rebuildIndicesWithTickets core tickets payoutsByBlock).txIndex
  lotteryPayouts :
    db.lotteryPayouts = (db.rebuildIndicesWithTickets core tickets payoutsByBlock).lotteryPayouts
  tickets : db.tickets = (db.rebuildIndicesWithTickets core tickets payoutsByBlock).tickets

namespace Indexed

/-- Every block is stored under its index, and only stored blocks have payouts. -/
structure Stored (s : Indexed) : Prop where
  blocks : ∀ i b, s.db.blocks.get i = some b → b.index = i ∧ i < 2 ^ 64
  paid : ∀ i, s.db.blocks.get i = none → s.paid i = []

/-- The indices of a database agree with its blocks. -/
structure Agrees (core : Core) (s : Indexed) : Prop extends Stored s where
  rebuilt : ∃ payoutsByBlock, Holds payoutsByBlock s.paid ∧
    Rebuilt core s.db s.tickets payoutsByBlock

end Indexed

/-- A write of the node to the blocks and their indices. -/
inductive IndexWrite where
  | saveAppliedBlock (b : Block) (tickets : List LootTicket) (payouts : List Payout)
  | applyReorgIncremental (old new : List Block) (tickets : List LootTicket)
      (newPayoutsByBlock : HashTable ℕ (List Payout))

/-- What a write does. A saved block comes after every stored one, and a reorganization displaces
the stored blocks from an index on and numbers the new ones upwards from there. -/
inductive Writes (core : Core) : Indexed → IndexWrite → Indexed → Prop
  | saveAppliedBlock {s : Indexed} {b : Block} {tickets : List LootTicket}
      {payouts : List Payout} (hnext : ∀ i b', s.db.blocks.get i = some b' → i < b.index)
      (hindex : b.index < 2 ^ 64) :
      Writes core s (.saveAppliedBlock b tickets payouts)
        { db := s.db.saveAppliedBlock core b tickets payouts
          paid := Function.update s.paid b.index payouts
          tickets := tickets }
  | applyReorgIncremental {s : Indexed} {start : ℕ} {new : List Block}
      {tickets : List LootTicket} {newPayoutsByBlock : HashTable ℕ (List Payout)}
      (hnew : (new.map fun b => b.index) = List.range' start new.length)
      (hindex : start + new.length ≤ 2 ^ 64) :
      Writes core s
        (.applyReorgIncremental (s.db.loadBlocksFrom start) new tickets newPayoutsByBlock)
        { db := s.db.applyReorgIncremental core (s.db.loadBlocksFrom start) new tickets
            newPayoutsByBlock
          paid := fun i =>
            if i < start then s.paid i
            else if i < start + new.length then HashTable.getD newPayoutsByBlock i [] else []
          tickets := tickets }

/-! ### What a rebuild writes -/

/-- The entry of a block in the payouts table: blocks without payouts have none. -/
def paidEntry (i : ℕ) (payouts : List Payout) : List (ℕ × List Payout) :=
  if payouts.isEmpty then [] else [(i, payouts)]

theorem get_paidEntry (i : ℕ) (ps : List Payout) :
    (OrderedTable.empty.insertAll (paidEntry i ps)).get i = if ps = [] then none else some ps := by
  cases ps with
  | nil => rfl
  | cons p ps => exact OrderedTable.get_insert _ _ _

theorem savePayouts_txIndex (core : Core) (db : Db) (i : ℕ) (ps : List Payout) :
    (db.savePayouts core i ps).txIndex = db.txIndex.insertAll (payoutEntries core i ps) := by
  cases ps with
  | nil => rfl
  | cons p ps => exact indexPayouts_eq core _ _ _

theorem savePayouts_lotteryPayouts (core : Core) (db : Db) (i : ℕ) (ps : List Payout) :
    (db.savePayouts core i ps).lotteryPayouts = db.lotteryPayouts.insertAll (paidEntry i ps) := by
  cases ps with
  | nil => rfl
  | cons p ps => rfl

theorem foldl_savePayouts_txIndex (core : Core) (db : Db) (l : List (Σ _ : ℕ, List Payout)) :
    (l.foldl (fun db e => db.savePayouts core e.1 e.2) db).txIndex =
      db.txIndex.insertAll (l.flatMap fun e => payoutEntries core e.1 e.2) := by
  induction l generalizing db with
  | nil => rfl
  | cons e l ih =>
    rw [List.foldl_cons, ih, savePayouts_txIndex, List.flatMap_cons, OrderedTable.insertAll_append]

theorem foldl_savePayouts_lotteryPayouts (core : Core) (db : Db)
    (l : List (Σ _ : ℕ, List Payout)) :
    (l.foldl (fun db e => db.savePayouts core e.1 e.2) db).lotteryPayouts =
      db.lotteryPayouts.insertAll (l.flatMap fun e => paidEntry e.1 e.2) := by
  induction l generalizing db with
  | nil => rfl
  | cons e l ih =>
    rw [List.foldl_cons, ih, savePayouts_lotteryPayouts, List.flatMap_cons,
      OrderedTable.insertAll_append]

theorem foldl_indexTransactions (core : Core) (t : OrderedTable Bytes TxValue) (l : List Block) :
    l.foldl (indexTransactions core) t = t.insertAll (l.flatMap (transactionEntries core)) := by
  induction l generalizing t with
  | nil => rfl
  | cons b l ih =>
    rw [List.foldl_cons, ih, indexTransactions_eq, List.flatMap_cons, OrderedTable.insertAll_append]

namespace Indexed

variable {core : Core} {s s' : Indexed} {payoutsByBlock : HashTable ℕ (List Payout)}

/-- What the indices of a database hold: every key what the block in its number gives it. -/
structure Maintained (core : Core) (s : Indexed) : Prop extends Stored s where
  txIndex : ∀ k, s.db.txIndex.get k = (s.db.blocks.get (keyIndex k)).bind fun b =>
    (OrderedTable.empty.insertAll (blockEntries core b (s.paid b.index))).get k
  lotteryPayouts : ∀ i, s.db.lotteryPayouts.get i =
    if s.paid i = [] then none else some (s.paid i)
  tickets : s.db.tickets = ticketTable s.tickets

theorem mem_entries_of_lookup {i : ℕ} {e : Σ _ : ℕ, List Payout}
    (he : e ∈ (payoutsByBlock.lookup i).map fun ps => (⟨i, ps⟩ : Σ _ : ℕ, List Payout)) :
    e ∈ payoutsByBlock.entries := by
  obtain ⟨ps, hps, rfl⟩ := Option.map_eq_some_iff.mp he
  exact HashTable.mem_entries.mpr hps

theorem get_payouts_flatMap {ν : Type} {κ : Type} [LinearOrder κ]
    {entries : ℕ → List Payout → List (κ × ν)} {paid : ℕ → List Payout} {k : κ} {i : ℕ}
    (hh : Holds payoutsByBlock paid) (hempty : ∀ i, entries i [] = [])
    (honly : ∀ j ps, payoutsByBlock.lookup j = some ps → k ∈ (entries j ps).map Prod.fst → i = j) :
    (OrderedTable.empty.insertAll (payoutsByBlock.entries.flatMap fun e => entries e.1 e.2)).get k =
      (OrderedTable.empty.insertAll (entries i (paid i))).get k := by
  rw [OrderedTable.get_insertAll_flatMap (fun _ => mem_entries_of_lookup (i := i))]
  · rw [← hh i, HashTable.getD]
    cases payoutsByBlock.lookup i with
    | none => simp [hempty]
    | some ps => simp
  · rintro ⟨j, ps⟩ he hk
    have hlookup := HashTable.mem_entries.mp he
    rw [honly j ps hlookup hk, hlookup, Option.map_some]

theorem Stored.lt_of_paid (hs : Stored s) {i : ℕ} (h : s.paid i ≠ []) : i < 2 ^ 64 := by
  cases hb : s.db.blocks.get i with
  | none => exact absurd (hs.paid i hb) h
  | some b => exact (hs.blocks i b hb).2

/-- A payouts table whose payouts belong to stored blocks has no key beyond 64 bits. -/
theorem Stored.keyIndex_of_payout (hs : Stored s) (hh : Holds payoutsByBlock s.paid) {j : ℕ}
    {ps : List Payout} {k : Bytes} (hps : payoutsByBlock.lookup j = some ps)
    (hk : k ∈ (payoutEntries core j ps).map Prod.fst) : keyIndex k = j := by
  have hpaid : s.paid j = ps := by rw [← hh j, HashTable.getD, hps, Option.getD_some]
  refine keyIndex_of_mem_payoutEntries (hs.lt_of_paid ?_) hk
  rintro hnil
  rw [← hpaid, hnil] at hk
  simp [payoutEntries] at hk

/-- A rebuild writes the entries of the stored blocks. -/
theorem Stored.rebuild_txIndex (hs : Stored s) (hh : Holds payoutsByBlock s.paid) (k : Bytes) :
    (s.db.rebuildIndicesWithTickets core s.tickets payoutsByBlock).txIndex.get k =
      (s.db.blocks.get (keyIndex k)).bind fun b =>
        (OrderedTable.empty.insertAll (blockEntries core b (s.paid b.index))).get k := by
  have hpayouts : (OrderedTable.empty.insertAll
      (payoutsByBlock.entries.flatMap fun e => payoutEntries core e.1 e.2)).get k =
      (OrderedTable.empty.insertAll
        (payoutEntries core (keyIndex k) (s.paid (keyIndex k)))).get k :=
    get_payouts_flatMap hh (fun _ => rfl) fun j ps hps hk => hs.keyIndex_of_payout hh hps hk
  have hblocks : (OrderedTable.empty.insertAll
      (s.db.blocks.values.flatMap (transactionEntries core))).get k =
      (s.db.blocks.get (keyIndex k)).bind fun b =>
        (OrderedTable.empty.insertAll (transactionEntries core b)).get k := by
    refine OrderedTable.get_insertAll_flatMap (fun b hb => ?_) fun b hb hk => ?_
    · exact List.mem_map.mpr ⟨(keyIndex k, b), OrderedTable.mem_entries.mpr hb, rfl⟩
    · obtain ⟨e, he, rfl⟩ := List.mem_map.mp hb
      have hget := OrderedTable.mem_entries.mp he
      obtain ⟨hindex, hlt⟩ := hs.blocks _ _ hget
      rw [keyIndex_of_mem_transactionEntries (hindex ▸ hlt) hk, hindex, hget]
  have hrebuild : (s.db.rebuildIndicesWithTickets core s.tickets payoutsByBlock).txIndex =
      (OrderedTable.empty.insertAll
        (s.db.blocks.values.flatMap (transactionEntries core))).insertAll
          (payoutsByBlock.entries.flatMap fun e => payoutEntries core e.1 e.2) := by
    rw [← foldl_indexTransactions]
    exact foldl_savePayouts_txIndex core _ _
  rw [hrebuild, OrderedTable.get_insertAll, hpayouts, hblocks]
  cases hb : s.db.blocks.get (keyIndex k) with
  | none => simp [hs.paid _ hb, payoutEntries]
  | some b =>
    simp only [Option.bind_some, blockEntries, OrderedTable.insertAll_append,
      (hs.blocks _ _ hb).1]
    rw [OrderedTable.get_insertAll (OrderedTable.insertAll _ _)]

theorem Stored.rebuild_lotteryPayouts (hh : Holds payoutsByBlock s.paid) (i : ℕ) :
    (s.db.rebuildIndicesWithTickets core s.tickets payoutsByBlock).lotteryPayouts.get i =
      if s.paid i = [] then none else some (s.paid i) := by
  have hrebuild : (s.db.rebuildIndicesWithTickets core s.tickets payoutsByBlock).lotteryPayouts =
      OrderedTable.empty.insertAll
        (payoutsByBlock.entries.flatMap fun e => paidEntry e.1 e.2) :=
    foldl_savePayouts_lotteryPayouts core _ _
  rw [hrebuild, ← get_paidEntry]
  refine get_payouts_flatMap hh (fun _ => rfl) fun j ps _ hi => ?_
  unfold paidEntry at hi
  split at hi
  · simp at hi
  · simpa using hi

/-- The indices agree with the blocks exactly when a rebuild would write them. -/
theorem Stored.maintained_iff (hs : Stored s) (hh : Holds payoutsByBlock s.paid) :
    Maintained core s ↔ Rebuilt core s.db s.tickets payoutsByBlock := by
  constructor
  · intro h
    refine ⟨OrderedTable.ext_get fun k => ?_, OrderedTable.ext_get fun i => ?_, h.tickets⟩
    · rw [h.txIndex, hs.rebuild_txIndex hh]
    · rw [h.lotteryPayouts, Stored.rebuild_lotteryPayouts hh]
  · intro h
    refine ⟨hs, fun k => ?_, fun i => ?_, h.tickets⟩
    · rw [h.txIndex, hs.rebuild_txIndex hh]
    · rw [h.lotteryPayouts, Stored.rebuild_lotteryPayouts hh]

/-! ### One block at a time -/

/-- The database without a displaced block. -/
def displace (s : Indexed) (b : Block) : Indexed :=
  { s with
    db := s.db.removeDisplaced b
    paid := Function.update s.paid b.index [] }

/-- The database with a new block. -/
def extend (core : Core) (payoutsByBlock : HashTable ℕ (List Payout)) (s : Indexed) (b : Block) :
    Indexed :=
  { s with
    db := s.db.insertCanonical core payoutsByBlock b
    paid := Function.update s.paid b.index (HashTable.getD payoutsByBlock b.index []) }

theorem displace_txIndex (core : Core) {s : Indexed} (h : Maintained core s) (b : Block)
    (k : Bytes) : (s.displace b).db.txIndex.get k =
      if k ∈ (blockEntries core b (s.paid b.index)).map Prod.fst then none
      else s.db.txIndex.get k := by
  have hpaid : (s.db.lotteryPayouts.get b.index).getD [] = s.paid b.index := by
    rw [h.lotteryPayouts]
    split
    · rename_i hnil
      rw [hnil, Option.getD_none]
    · rw [Option.getD_some]
  show (unindexTransactions (unindexPayouts s.db.txIndex b.index
    ((s.db.lotteryPayouts.get b.index).getD [])) b).get k = _
  rw [hpaid, unindexPayouts_eq core, unindexTransactions_eq core, OrderedTable.get_removeAll,
    OrderedTable.get_removeAll, blockEntries, List.map_append]
  by_cases htx : k ∈ (transactionEntries core b).map Prod.fst
  · rw [if_pos htx, if_pos (List.mem_append_left _ htx)]
  · by_cases hp : k ∈ (payoutEntries core b.index (s.paid b.index)).map Prod.fst
    · rw [if_neg htx, if_pos hp, if_pos (List.mem_append_right _ hp)]
    · rw [if_neg htx, if_neg hp, if_neg (by simp only [List.mem_append, htx, hp, or_self,
        not_false_eq_true])]

/-- The entries of a displaced block go, and those of the others stay. -/
theorem Maintained.displace (h : Maintained core s) {b : Block}
    (hb : s.db.blocks.get b.index = some b) : Maintained core (s.displace b) := by
  have hlt := (h.blocks _ _ hb).2
  have hblocks : ∀ i, (s.displace b).db.blocks.get i =
      if i = b.index then none else s.db.blocks.get i := fun i => OrderedTable.get_remove _ _ _
  have hpaid : (s.displace b).paid = Function.update s.paid b.index [] := rfl
  refine ⟨⟨fun i b' hb' => ?_, fun i hi => ?_⟩, fun k => ?_, fun i => ?_, h.tickets⟩
  · rw [hblocks] at hb'
    split at hb'
    · cases hb'
    · exact h.blocks i b' hb'
  · rw [hpaid]
    by_cases hib : i = b.index
    · rw [hib, Function.update_self]
    · rw [Function.update_of_ne hib]
      rw [hblocks, if_neg hib] at hi
      exact h.paid i hi
  · rw [displace_txIndex core h, hblocks, h.txIndex]
    by_cases hk : keyIndex k = b.index
    · rw [if_pos hk, hk, hb, Option.bind_some, Option.bind_none]
      split
      · rfl
      · rename_i hnot
        rw [OrderedTable.get_insertAll_of_notMem hnot, OrderedTable.get_empty]
    · rw [if_neg hk, if_neg fun hmem => hk (keyIndex_of_mem_blockEntries hlt hmem)]
      cases hb' : s.db.blocks.get (keyIndex k) with
      | none => rfl
      | some b' =>
        have hne : b'.index ≠ b.index := by rwa [(h.blocks _ _ hb').1]
        rw [Option.bind_some, Option.bind_some, hpaid, Function.update_of_ne hne]
  · show (s.db.lotteryPayouts.remove b.index).get i = _
    rw [OrderedTable.get_remove, h.lotteryPayouts, hpaid]
    by_cases hib : i = b.index
    · rw [if_pos hib, hib, Function.update_self, if_pos rfl]
    · rw [if_neg hib, Function.update_of_ne hib]

/-- A new block brings its entries and changes no others. -/
theorem Maintained.extend (h : Maintained core s) {b : Block}
    (hb : s.db.blocks.get b.index = none) (hlt : b.index < 2 ^ 64) :
    Maintained core (s.extend core payoutsByBlock b) := by
  set ps := HashTable.getD payoutsByBlock b.index [] with hps
  have hblocks : (s.extend core payoutsByBlock b).db.blocks = s.db.blocks.insert b.index b :=
    Db.insertCanonical_blocks core payoutsByBlock s.db b
  have hpaid : (s.extend core payoutsByBlock b).paid = Function.update s.paid b.index ps := rfl
  have htx : (s.extend core payoutsByBlock b).db.txIndex =
      s.db.txIndex.insertAll (blockEntries core b ps) := by
    rw [blockEntries, OrderedTable.insertAll_append, ← indexTransactions_eq]
    exact savePayouts_txIndex core _ _ _
  have hlp : (s.extend core payoutsByBlock b).db.lotteryPayouts =
      s.db.lotteryPayouts.insertAll (paidEntry b.index ps) :=
    savePayouts_lotteryPayouts core _ _ _
  have htickets : (s.extend core payoutsByBlock b).db.tickets = s.db.tickets := by
    show (Db.savePayouts core _ b.index ps).tickets = _
    unfold Db.savePayouts
    split <;> rfl
  refine ⟨⟨fun i b' hb' => ?_, fun i hi => ?_⟩, fun k => ?_, fun i => ?_, ?_⟩
  · rw [hblocks] at hb'
    by_cases hib : i = b.index
    · rw [hib, OrderedTable.get_insert, Option.some.injEq] at hb'
      exact ⟨by rw [← hb', hib], hib ▸ hlt⟩
    · rw [OrderedTable.get_insert_ne _ _ hib] at hb'
      exact h.blocks i b' hb'
  · rw [hblocks] at hi
    have hib : i ≠ b.index := by
      rintro rfl
      simp at hi
    rw [OrderedTable.get_insert_ne _ _ hib] at hi
    rw [hpaid, Function.update_of_ne hib]
    exact h.paid i hi
  · rw [htx, OrderedTable.get_insertAll, hblocks, h.txIndex, hpaid]
    by_cases hk : keyIndex k = b.index
    · rw [hk, hb, OrderedTable.get_insert, Option.bind_none, Option.or_none, Option.bind_some,
        Function.update_self]
    · rw [OrderedTable.get_insert_ne _ _ hk, OrderedTable.get_insertAll_of_notMem fun hmem =>
        hk (keyIndex_of_mem_blockEntries hlt hmem), OrderedTable.get_empty, Option.none_or]
      cases hb' : s.db.blocks.get (keyIndex k) with
      | none => rfl
      | some b' =>
        have hne : b'.index ≠ b.index := by rwa [(h.blocks _ _ hb').1]
        rw [Option.bind_some, Option.bind_some, Function.update_of_ne hne]
  · rw [hlp, OrderedTable.get_insertAll, h.lotteryPayouts, hpaid]
    by_cases hib : i = b.index
    · rw [hib, get_paidEntry, h.paid _ hb, if_pos rfl, Option.or_none, Function.update_self]
    · rw [OrderedTable.get_insertAll_of_notMem, OrderedTable.get_empty, Option.none_or,
        Function.update_of_ne hib]
      unfold paidEntry
      split
      · simp
      · simpa using hib
  · rw [htickets]
    exact h.tickets

/-! ### Writes -/

theorem Maintained.withTickets (h : Maintained core s) (tickets : List LootTicket) :
    Maintained core
      { s with
        db := { s.db with tickets := ticketTable tickets }
        tickets := tickets } :=
  ⟨⟨h.blocks, h.paid⟩, h.txIndex, h.lotteryPayouts, rfl⟩

theorem foldl_displace_db (old : List Block) (s : Indexed) :
    (old.foldl displace s).db = old.foldl Db.removeDisplaced s.db := by
  induction old generalizing s with
  | nil => rfl
  | cons b old ih => exact ih _

theorem foldl_displace_paid (old : List Block) (s : Indexed) (i : ℕ) :
    (old.foldl displace s).paid i =
      if i ∈ old.map fun b => b.index then [] else s.paid i := by
  induction old generalizing s with
  | nil => simp
  | cons b old ih =>
    rw [List.foldl_cons, ih]
    by_cases hib : i = b.index
    · simp [displace, hib]
    · simp [displace, hib, Function.update_of_ne]

/-- Displacing stored blocks keeps the indices in step. -/
theorem Maintained.foldl_displace {old : List Block} (h : Maintained core s)
    (hold : ∀ b ∈ old, s.db.blocks.get b.index = some b)
    (hnodup : (old.map fun b => b.index).Nodup) :
    Maintained core (old.foldl Indexed.displace s) := by
  induction old generalizing s with
  | nil => exact h
  | cons b old ih =>
    rw [List.map_cons, List.nodup_cons] at hnodup
    refine ih (h.displace (hold b List.mem_cons_self)) (fun b' hb' => ?_) hnodup.2
    have hne : b'.index ≠ b.index := fun he => hnodup.1 (he ▸ List.mem_map_of_mem hb')
    exact (OrderedTable.get_remove _ _ _).trans ((if_neg hne).trans
      (hold b' (List.mem_cons_of_mem _ hb')))

theorem foldl_extend_db (core : Core) (pm : HashTable ℕ (List Payout)) (new : List Block)
    (s : Indexed) : (new.foldl (Indexed.extend core pm) s).db =
      new.foldl (Db.insertCanonical core pm) s.db := by
  induction new generalizing s with
  | nil => rfl
  | cons b new ih => exact ih _

theorem foldl_extend_paid (core : Core) (pm : HashTable ℕ (List Payout)) (new : List Block)
    (s : Indexed) (i : ℕ) : (new.foldl (Indexed.extend core pm) s).paid i =
      if i ∈ new.map fun b => b.index then HashTable.getD pm i [] else s.paid i := by
  induction new generalizing s with
  | nil => simp
  | cons b new ih =>
    rw [List.foldl_cons, ih]
    by_cases hib : i = b.index
    · simp [Indexed.extend, hib]
    · simp [Indexed.extend, hib, Function.update_of_ne]

/-- New blocks at free indices keep the indices in step. -/
theorem Maintained.foldl_extend {new : List Block} (h : Maintained core s)
    (hnew : ∀ b ∈ new, s.db.blocks.get b.index = none ∧ b.index < 2 ^ 64)
    (hnodup : (new.map fun b => b.index).Nodup) :
    Maintained core (new.foldl (Indexed.extend core payoutsByBlock) s) := by
  induction new generalizing s with
  | nil => exact h
  | cons b new ih =>
    rw [List.map_cons, List.nodup_cons] at hnodup
    obtain ⟨hnone, hlt⟩ := hnew b List.mem_cons_self
    refine ih (h.extend hnone hlt) (fun b' hb' => ?_) hnodup.2
    have hne : b'.index ≠ b.index := fun he => hnodup.1 (he ▸ List.mem_map_of_mem hb')
    obtain ⟨hnone', hlt'⟩ := hnew b' (List.mem_cons_of_mem _ hb')
    refine ⟨?_, hlt'⟩
    show (s.db.insertCanonical core payoutsByBlock b).blocks.get b'.index = none
    rw [Db.insertCanonical_blocks, OrderedTable.get_insert_ne _ _ hne, hnone']

theorem saveAppliedBlock_eq (db : Db) (b : Block) (tickets : List LootTicket)
    (payouts : List Payout) : db.saveAppliedBlock core b tickets payouts =
      { db.insertCanonical core ((∅ : HashTable ℕ (List Payout)).insert b.index payouts) b with
        tickets := ticketTable tickets } := by
  rw [Db.saveAppliedBlock, Db.insertCanonical, HashTable.getD_insert]
  cases payouts <;> rfl

theorem Stored.mem_loadBlocksFrom (hs : Stored s) {start : ℕ} {b : Block} :
    b ∈ s.db.loadBlocksFrom start ↔ start ≤ b.index ∧ s.db.blocks.get b.index = some b := by
  rw [Db.loadBlocksFrom, OrderedTable.rangeFrom, List.mem_map]
  constructor
  · rintro ⟨e, he, rfl⟩
    obtain ⟨he, hle⟩ := List.mem_filter.mp he
    have hget := OrderedTable.mem_entries.mp he
    have hindex := (hs.blocks _ _ hget).1
    rw [hindex]
    exact ⟨by simpa using hle, hget⟩
  · rintro ⟨hle, hget⟩
    refine ⟨(b.index, b), List.mem_filter.mpr ⟨?_, by simpa using hle⟩, rfl⟩
    exact OrderedTable.mem_entries.mpr hget

theorem Stored.nodup_loadBlocksFrom (hs : Stored s) (start : ℕ) :
    ((s.db.loadBlocksFrom start).map fun b => b.index).Nodup := by
  have hkeys : (s.db.loadBlocksFrom start).map (fun b => b.index) =
      (s.db.blocks.entries.filter fun e => start ≤ e.1).map Prod.fst := by
    rw [Db.loadBlocksFrom, OrderedTable.rangeFrom, List.map_map]
    refine List.map_congr_left fun e he => ?_
    exact (hs.blocks _ _ (OrderedTable.mem_entries.mp (List.mem_filter.mp he).1)).1
  rw [hkeys]
  exact s.db.blocks.nodup_keys.sublist (List.filter_sublist.map _)

/-- The displaced suffix leaves no block from its start on. -/
theorem Stored.foldl_displace_blocks (hs : Stored s) {start i : ℕ} (hi : start ≤ i) :
    ((s.db.loadBlocksFrom start).foldl displace s).db.blocks.get i = none := by
  have hremove : ((s.db.loadBlocksFrom start).foldl displace s).db.blocks =
      s.db.blocks.removeAll ((s.db.loadBlocksFrom start).map fun b => b.index) := by
    rw [foldl_displace_db, Db.foldl_removeDisplaced_blocks, OrderedTable.removeAll, List.foldl_map]
  rw [hremove, OrderedTable.get_removeAll]
  split
  · rfl
  · rename_i hnot
    by_contra hne
    obtain ⟨b, hb⟩ := Option.ne_none_iff_exists'.mp hne
    obtain ⟨rfl, -⟩ := hs.blocks _ _ hb
    exact hnot (List.mem_map_of_mem (hs.mem_loadBlocksFrom.mpr ⟨hi, hb⟩))

theorem Maintained.step {w : IndexWrite} (h : Maintained core s) (hw : Writes core s w s') :
    Maintained core s' := by
  cases hw with
  | @saveAppliedBlock b tickets payouts hnext hindex =>
    have hnone : s.db.blocks.get b.index = none := by
      by_contra hne
      obtain ⟨b', hb'⟩ := Option.ne_none_iff_exists'.mp hne
      exact lt_irrefl _ (hnext _ _ hb')
    have hextend : Maintained core
        (s.extend core ((∅ : HashTable ℕ (List Payout)).insert b.index payouts) b) :=
      h.extend hnone hindex
    rw [saveAppliedBlock_eq]
    have hfinal := hextend.withTickets tickets
    rwa [Indexed.extend, HashTable.getD_insert] at hfinal
  | @applyReorgIncremental start new tickets pm hnew hindex =>
    have hstart : ∀ b ∈ new, start ≤ b.index ∧ b.index < start + new.length := fun b hb =>
      List.mem_range'_1.mp (hnew ▸ List.mem_map_of_mem hb)
    have hdisplaced : Maintained core ((s.db.loadBlocksFrom start).foldl Indexed.displace s) :=
      h.foldl_displace (fun b hb => (h.mem_loadBlocksFrom.mp hb).2) (h.nodup_loadBlocksFrom start)
    have hextended : Maintained core (new.foldl (Indexed.extend core pm)
        ((s.db.loadBlocksFrom start).foldl Indexed.displace s)) := by
      refine hdisplaced.foldl_extend (fun b hb => ?_) (hnew ▸ List.nodup_range')
      obtain ⟨hle, hlt⟩ := hstart b hb
      exact ⟨h.foldl_displace_blocks hle, by omega⟩
    have hpaid : (new.foldl (Indexed.extend core pm)
        ((s.db.loadBlocksFrom start).foldl Indexed.displace s)).paid = fun i =>
          if i < start then s.paid i
          else if i < start + new.length then HashTable.getD pm i [] else [] := by
      funext i
      rw [foldl_extend_paid, foldl_displace_paid, hnew]
      by_cases hlt : i < start
      · rw [if_neg fun hmem => absurd (List.mem_range'_1.mp hmem).1 (Nat.not_le.mpr hlt),
          if_neg, if_pos hlt]
        rintro hmem
        obtain ⟨b, hb, rfl⟩ := List.mem_map.mp hmem
        exact absurd (h.mem_loadBlocksFrom.mp hb).1 (Nat.not_le.mpr hlt)
      · rw [if_neg hlt]
        by_cases hlen : i < start + new.length
        · rw [if_pos hlen, if_pos (List.mem_range'_1.mpr ⟨Nat.not_lt.mp hlt, hlen⟩)]
        · rw [if_neg hlen, if_neg fun hmem => hlen (List.mem_range'_1.mp hmem).2]
          -- an index from the start on belongs to a displaced block or to none
          cases hget : s.db.blocks.get i with
          | none => rw [h.paid i hget, ite_self]
          | some b =>
            obtain ⟨rfl, -⟩ := h.blocks _ _ hget
            rw [if_pos (List.mem_map_of_mem
              (h.mem_loadBlocksFrom.mpr ⟨Nat.not_lt.mp hlt, hget⟩))]
    have hfinal := hextended.withTickets tickets
    rw [hpaid, foldl_extend_db, foldl_displace_db] at hfinal
    exact hfinal

theorem Stored.exists_holds (hs : Stored s) : ∃ payoutsByBlock, Holds payoutsByBlock s.paid := by
  refine HashTable.exists_getD_eq (l := s.db.blocks.entries.map Prod.fst) fun i hi => ?_
  apply hs.paid
  by_contra hne
  obtain ⟨b, hb⟩ := Option.ne_none_iff_exists'.mp hne
  exact hi (List.mem_map_of_mem (OrderedTable.mem_entries.mpr hb))

/-- Incremental maintenance is a rebuild: after any sequence of writes to a database whose indices
agree with its blocks, the indices are those that a rebuild from the stored blocks, with the last
tickets and the payouts of the stored blocks, would write. -/
theorem rebuilt_of_run {ws : List IndexWrite} (run : Runs.Run (Writes core) s ws s')
    (hs : s.Agrees core) : s'.Agrees core ∧
      ∀ payoutsByBlock, Holds payoutsByBlock s'.paid →
        Rebuilt core s'.db s'.tickets payoutsByBlock := by
  obtain ⟨pm, hholds, hrebuilt⟩ := hs.rebuilt
  have hmaintained : Maintained core s' :=
    run.invariant (fun hw h => h.step hw) ((hs.toStored.maintained_iff hholds).mpr hrebuilt)
  obtain ⟨pm', hholds'⟩ := hmaintained.exists_holds
  exact ⟨⟨hmaintained.toStored, pm', hholds',
      (hmaintained.maintained_iff hholds').mp hmaintained⟩,
    fun payoutsByBlock hh => (hmaintained.maintained_iff hh).mp hmaintained⟩

end Indexed

namespace Sample

/-! Three writes: a genesis block, a block that pays its miner and settles a ticket, and a branch
of two blocks in its place. -/

def noIndex : Indexed := ⟨.empty, fun _ => [], []⟩

def allocated : Block := blockOf [coins "" "miner" 1000 0 0] 0 [] 1748000000 0

def displacedBlock : Block :=
  blockOf [coins "" "miner" 1 0 1, coins "miner" "miner" 300 10 3] 1 allocated.hash 1748000060 32

def newBranch : List Block :=
  let first := blockOf [coins "" "rival" 1 0 1] 1 allocated.hash 1748000061 33
  [first, blockOf [coins "" "rival" 1 0 2] 2 first.hash 1748000121 33]

def branchPayouts : HashTable ℕ (List Payout) :=
  (∅ : HashTable ℕ (List Payout)).insert 2 [⟨"rival", 7, .small⟩]

def indexWrites : List IndexWrite :=
  [.saveAppliedBlock allocated [] [],
    .saveAppliedBlock displacedBlock [⟨"miner", 1⟩] [⟨"miner", 5, .small⟩],
    .applyReorgIncremental [displacedBlock] newBranch [⟨"rival", 2⟩] branchPayouts]

theorem newBranch_rebuilt : ∃ s, Runs.Run (Writes plainCore) noIndex indexWrites s ∧
    s.Agrees plainCore ∧ ∀ payoutsByBlock, Holds payoutsByBlock s.paid →
      Rebuilt plainCore s.db s.tickets payoutsByBlock := by
  have hempty : noIndex.Agrees plainCore :=
    ⟨⟨nofun, fun _ _ => rfl⟩, ∅, fun _ => rfl, rfl, rfl, rfl⟩
  have hrun : ∃ s, Runs.Run (Writes plainCore) noIndex indexWrites s := by
    refine ⟨_, .cons (.saveAppliedBlock nofun (by decide +kernel))
      (.cons (.saveAppliedBlock ?_ (by decide +kernel))
        (.cons (@Writes.applyReorgIncremental plainCore _ 1 _ _ _ rfl (by decide +kernel))
          (.nil _)))⟩
    intro i b' h
    simp only [Db.saveAppliedBlock_blocks] at h
    rw [(OrderedTable.get_insert_empty.mp h).1]
    decide +kernel
  obtain ⟨s, run⟩ := hrun
  exact ⟨s, run, Indexed.rebuilt_of_run run hempty⟩

end Sample

end Lootcoin
