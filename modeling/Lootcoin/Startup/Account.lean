import Lootcoin.Db.Payouts
import Lootcoin.Db.Records
import Lootcoin.Node.Tickets
import Lootcoin.Startup.Indexed
import Lootcoin.Startup.Reorg

/-! What the explorer shows over a run.  A query for the history of an address is answered with its
records in the canonical chain, the newest first, and these add up to its balance.  Queries for
payouts and for blocks are answered with those of the canonical chain. -/

namespace Lootcoin

namespace Blockchain

open DerivedState

variable {core : Core} {c c' d : Blockchain} {b : Block} {bs : List Block}

/-! ### The payouts of a block -/

/-- The pending tickets have heights of their own below the height of the chain. -/
structure TicketsApart (c : Blockchain) : Prop where
  nodup : (c.pendingTickets.map fun t => t.createdHeight).Nodup
  below : ∀ t ∈ c.pendingTickets, t.createdHeight < c.getHeight

theorem TicketsApart.appended (hc : c.TicketsApart) (h : Appended core c b c') :
    c'.TicketsApart := by
  have hstill : ∀ t ∈ c.stillPending b.index, t ∈ c.pendingTickets := fun t ht =>
    (List.mem_filter.mp ht).1
  constructor
  · rw [h.pendingTickets, List.map_append]
    refine List.Nodup.append (hc.nodup.sublist (List.filter_sublist.map _)) ?_ ?_
    · cases ticketOf b <;> simp
    · rintro i hi hi'
      obtain ⟨t, ht, rfl⟩ := List.mem_map.mp hi
      obtain ⟨t', ht', heq⟩ := List.mem_map.mp hi'
      have hcreated := createdHeight_of_ticketOf (Option.mem_toList.mp ht')
      have := hc.below t (hstill t ht)
      have := h.index
      omega
  · intro t ht
    rw [h.getHeight]
    rw [h.pendingTickets, List.mem_append] at ht
    rcases ht with ht | ht
    · have := hc.below t (hstill t ht)
      omega
    · have := createdHeight_of_ticketOf (Option.mem_toList.mp ht)
      have := h.index
      omega

theorem length_payoutsFrom_le {hashAt : ℕ → Option Bytes} {s : DerivedState} (pot : ℕ)
    (ts : List LootTicket) : (payoutsFrom core hashAt s pot ts).length ≤ ts.length := by
  induction ts generalizing pot with
  | nil => exact Nat.le_refl _
  | cons t ts ih =>
    rw [payoutsFrom]
    split
    · exact Nat.succ_le_succ (ih _)
    · exact (ih _).trans (Nat.le_succ _)

/-- Tickets with heights of their own mature one at a time. -/
theorem TicketsApart.length_toSettle_le (hc : c.TicketsApart) (i : ℕ) :
    (c.toSettle i).length ≤ 1 := by
  have hnodup : ((c.toSettle i).map fun t => t.createdHeight).Nodup :=
    hc.nodup.sublist (List.filter_sublist.map _)
  have hdue : ∀ t ∈ c.toSettle i, t.createdHeight + revealBlocks = i := fun t ht => by
    simpa using (List.mem_filter.mp ht).2
  match hts : c.toSettle i with
  | [] => exact Nat.zero_le _
  | [t] => exact Nat.le_refl _
  | t :: u :: ts =>
    rw [hts] at hnodup hdue
    have ht := hdue t List.mem_cons_self
    have hu := hdue u (List.mem_cons_of_mem _ List.mem_cons_self)
    have hne : t.createdHeight ≠ u.createdHeight := by
      simp only [List.map_cons, List.nodup_cons, List.mem_cons, not_or] at hnodup
      exact hnodup.1.1
    omega

theorem length_paidAlong_le (hc : c.TicketsApart) (h : Grows core c bs c') (i : ℕ) :
    (paidAlong core c bs i).length ≤ 1 := by
  induction h with
  | nil => exact Nat.zero_le _
  | cons hs _ ih =>
    rw [paidAlong, hs.after]
    split
    · exact (length_payoutsFrom_le _ _).trans (hc.length_toSettle_le _)
    · exact ih (hc.appended hs.appended)

/-- A block that a chain has accepted has few transactions. -/
theorem Appended.length_transactions_le (h : Appended core c b c') :
    b.transactions.length ≤ maxBlockTxs + 1 := by
  obtain ⟨-, -, hcount, htransfers, -⟩ := validBody_iff.mp h.validBody
  have hrest : (b.transactions.drop 1).countP (fun tx => !tx.isCoinbase) =
      (b.transactions.drop 1).length := by
    rw [List.countP_eq_length]
    exact fun tx htx => by rw [htransfers tx htx]; rfl
  have hle := (List.drop_sublist 1 b.transactions).countP_le (p := fun tx => !tx.isCoinbase)
  rw [hrest, List.length_drop] at hle
  unfold nonCoinbaseCount at hcount
  omega

theorem Grows.length_transactions_le (h : Grows core c bs c') :
    ∀ b ∈ bs, b.transactions.length ≤ maxBlockTxs + 1 := by
  induction h with
  | nil => simp
  | cons hs _ ih => exact List.forall_mem_cons.mpr ⟨hs.appended.length_transactions_le, ih⟩

/-! ### The balance along a branch -/

/-- The first block of a branch settles what matures before it, and those behind it settle what they
do without it. -/
theorem map_paidAlong_cons {β : Type} (hs : Appends core c b d) (h : Grows core d bs c')
    (f : Block → List Payout → β) :
    ((b :: bs).map fun x => f x (paidAlong core c (b :: bs) x.index)) =
      f b (c.maturingPayouts core c.blockHashAt b.index) ::
        bs.map fun x => f x (paidAlong core d bs x.index) := by
  have hindex := hs.appended.index
  have hheight := hs.appended.getHeight
  rw [List.map_cons, paidAlong, if_pos rfl]
  congr 1
  refine List.map_congr_left fun x hx => ?_
  have := Grows.getHeight_le h x hx
  rw [paidAlong, if_neg (by omega), hs.after]

theorem gainsAlong_eq (h : Grows core c bs c') (a : Address) :
    gainsAlong core c bs a = (bs.map fun b => receivedBy b.transactions a +
      wonBy (paidAlong core c bs b.index) a + minerShareOf b a).sum := by
  induction h with
  | nil => rfl
  | @cons c d c' b bs hs hrest ih =>
    have hpaid := map_paidAlong_cons hs hrest fun x ps =>
      receivedBy x.transactions a + wonBy ps a + minerShareOf x a
    rw [gainsAlong, hs.after, ih, hpaid, List.sum_cons]

end Blockchain

namespace Node

open Blockchain (Grows paidAlong gainsAlong spentAlong)
open DerivedState (receivedBy spentBy wonBy minerShareOf)

variable {core : Core} {n : Node} {env : Option ℚ} {pot : ℕ} {genesis : Block} {full : Blockchain}
  {a : Address}

/-- The blocks of a whole chain have room for their positions. -/
theorem Tracks.positioned (ht : Tracks core env pot genesis n full) (hi : genesis.index = 0)
    (hgenesis : genesis.transactions.length ≤ payoutPosition) :
    ∀ b ∈ full.blocks, Positioned b (paidOn core env pot genesis full b.index) := by
  intro b hb
  obtain ⟨i, hb'⟩ := List.mem_iff_getElem?.mp hb
  obtain ⟨rest, hrest, hgrow⟩ := ht.blocks
  have hfresh : (freshChain env pot genesis).TicketsApart :=
    ⟨List.nodup_nil, fun _ ht => by cases ht⟩
  have hpaid : (paidOn core env pot genesis full b.index).length ≤ 1 := by
    rw [paidOn, hrest, List.tail_cons]
    exact Blockchain.length_paidAlong_le hfresh hgrow _
  refine ⟨?_, ?_, ?_⟩
  · have := ht.index hi hb'
    have := (List.getElem?_eq_some_iff.mp hb').1
    have := ht.length_le
    omega
  · rw [hrest] at hb
    rcases List.mem_cons.mp hb with rfl | hb
    · exact hgenesis
    · have hle := Blockchain.Grows.length_transactions_le hgrow b hb
      have : maxBlockTxs + 1 ≤ payoutPosition := by decide
      omega
  · have : payoutPosition + 1 ≤ 2 ^ 32 := by decide
    omega

/-- The blocks of a whole chain have rising indices. -/
theorem Tracks.sorted_blocks (ht : Tracks core env pot genesis n full) (hi : genesis.index = 0) :
    full.blocks.Pairwise fun b b' => b.index < b'.index := by
  rw [List.pairwise_iff_getElem]
  intro i j hlt hlt' hij
  rw [ht.index hi (List.getElem?_eq_getElem hlt), ht.index hi (List.getElem?_eq_getElem hlt')]
  exact hij

/-- The index of a node holds the records of an address in the whole chain, but that those of the
genesis block may be missing. -/
theorem Indexes.get_makeTxKey (hx : Indexes core env pot genesis n full)
    (ht : Tracks core env pot genesis n full) (hm : n.Mirrors full) (hi : genesis.index = 0)
    (hgenesis : genesis.transactions.length ≤ payoutPosition) :
    ∃ bs, (bs = full.blocks ∨ bs = full.blocks.tail) ∧ ∀ i p v, i < 2 ^ 64 → p < 2 ^ 32 →
      (n.db.txIndex.get (makeTxKey a i p) = some v ↔
        (i, p, v) ∈ recordsAlong core (paidOn core env pot genesis full) a bs) := by
  obtain ⟨db, hmaintained, hdb⟩ := hx.maintained
  have hwhole : ∀ i p v, i < 2 ^ 64 → p < 2 ^ 32 → (db.txIndex.get (makeTxKey a i p) = some v ↔
      (i, p, v) ∈ recordsAlong core (paidOn core env pot genesis full) a full.blocks) := by
    intro i p v hi64 hp
    have hblocks : db.blocks.get i = full.blocks[i]? := by
      rw [← blocks_of_concealed hdb, hm i]
    have hget := hmaintained.txIndex (makeTxKey a i p)
    simp only [keyIndex_makeTxKey a p hi64, hblocks] at hget
    rw [hget, Option.bind_eq_some_iff, recordsAlong, List.mem_flatMap]
    refine exists_congr fun b => ?_
    constructor
    · rintro ⟨hb, hv⟩
      have hmem := List.mem_of_getElem? hb
      exact ⟨hmem, (get_blockEntries (ht.positioned hi hgenesis b hmem) hi64 hp).mp hv⟩
    · rintro ⟨hmem, hv⟩
      obtain ⟨j, hb⟩ := List.mem_iff_getElem?.mp hmem
      obtain rfl : i = j := (index_of_mem_recordsOf hv).trans (ht.index hi hb)
      exact ⟨hb, (get_blockEntries (ht.positioned hi hgenesis b hmem) hi64 hp).mpr hv⟩
  rcases hdb with heq | ⟨t, heq, hconceals⟩
  · exact ⟨_, .inl rfl, by rw [heq]; exact hwhole⟩
  · refine ⟨_, .inr rfl, fun i p v hi64 hp => ?_⟩
    obtain ⟨rest, hrest, -⟩ := ht.blocks
    have htail : ∀ e ∈ recordsAlong core (paidOn core env pot genesis full) a rest, e.1 ≠ 0 := by
      intro e he
      obtain ⟨b, hb, he⟩ := List.mem_flatMap.mp he
      have := (ht.mem_indices hi).mp (by rw [hrest]; exact List.mem_map_of_mem hb)
      rw [index_of_mem_recordsOf he]
      omega
    rw [heq, hconceals, keyIndex_makeTxKey a p hi64, hrest, List.tail_cons]
    split
    · rename_i hz
      exact iff_of_false (by simp) fun hmem => htail _ hmem hz
    · rename_i hz
      rw [hwhole i p v hi64 hp, hrest, recordsAlong, List.flatMap_cons, List.mem_append]
      exact or_iff_right fun hmem => hz ((index_of_mem_recordsOf hmem).trans hi)

/-- The history of an address in the index is that of its records in the chain. -/
theorem Explored.historyOf (hn : Explored core env pot genesis n) (hi : genesis.index = 0)
    (hgenesis : genesis.transactions.length ≤ payoutPosition)
    (hforeign : NoForeignKey n.db.txIndex a) :
    ∃ bs, (bs = n.canonicalChain ∨ bs = n.canonicalChain.tail) ∧ historyOf n.db.txIndex a =
      (recordsAlong core (paidAlong core (freshChain env pot genesis) n.canonicalChain.tail) a
        bs).reverse := by
  obtain ⟨-, full, ht, hm, hx⟩ := hn
  rw [ht.canonicalChain]
  obtain ⟨bs, hbs, hget⟩ := hx.get_makeTxKey ht hm hi hgenesis (a := a)
  have hsub : bs.Sublist full.blocks := by
    rcases hbs with rfl | rfl
    · exact List.Sublist.refl _
    · exact List.tail_sublist _
  have hpositioned : ∀ b ∈ bs, Positioned b (paidOn core env pot genesis full b.index) :=
    fun b hb => ht.positioned hi hgenesis b (hsub.subset hb)
  refine ⟨bs, hbs, (isHistory_historyOf hx.content hforeign).unique ⟨?_, fun i p v => ?_⟩⟩
  · rw [List.pairwise_reverse]
    refine (sorted_recordsAlong hpositioned ((ht.sorted_blocks hi).sublist hsub)).imp ?_
    rintro e e' (hlt | ⟨heq, hlt⟩)
    · exact .inl hlt
    · exact .inr ⟨heq, hlt⟩
  · rw [List.mem_reverse]
    constructor
    · intro hmem
      obtain ⟨b, hb, he⟩ := List.mem_flatMap.mp hmem
      have hindex : i = b.index := index_of_mem_recordsOf he
      have hi64 : i < 2 ^ 64 := hindex ▸ (hpositioned b hb).index
      have hp := position_lt_of_mem_recordsOf (hpositioned b hb) he
      exact ⟨hi64, hp, (hget i p v hi64 hp).mpr hmem⟩
    · rintro ⟨hi64, hp, hv⟩
      exact (hget i p v hi64 hp).mp hv

/-- Over every run in which forks from below the window reach the height, a query for an address
that no other shadows is answered, page by page, with the records of that address in the canonical
chain, the newest first. The records of the genesis block are there or not. -/
theorem history_of_run (hi : genesis.index = 0) (hpot : pot < 2 ^ 64)
    (hgenesis : genesis.transactions.length ≤ payoutPosition) {ds : List Delivery}
    (run : Runs.Run (DeliversReaching core) (fresh env pot genesis) ds n)
    (hforeign : NoForeignKey n.db.txIndex a) :
    ∃ bs, (bs = n.canonicalChain ∨ bs = n.canonicalChain.tail) ∧ ∀ offset limit,
      n.db.getTransactionsForAddress a offset limit =
        .ok (((((recordsAlong core (paidAlong core (freshChain env pot genesis)
          n.canonicalChain.tail) a bs).reverse).map recordOf).drop offset).take limit) := by
  have hn := explored_of_run hi hpot run
  obtain ⟨bs, hbs, hhistory⟩ := hn.historyOf hi hgenesis hforeign
  obtain ⟨-, full, -, -, hx⟩ := hn
  refine ⟨bs, hbs, fun offset limit => ?_⟩
  rw [pages_of_noForeignKey hx.content hforeign, hhistory]

/-! ### The balance of an address -/

/-- The records since the genesis block. -/
def sinceGenesis (records : List TxRecord) : List TxRecord :=
  records.filter fun r => 0 < r.blockIndex

/-- They are those of the blocks behind it. -/
theorem sinceGenesis_recordsAlong {paid : ℕ → List Payout} {bs rest : List Block}
    (hi : genesis.index = 0) (hrest : ∀ b ∈ rest, 0 < b.index)
    (hbs : bs = genesis :: rest ∨ bs = rest) :
    sinceGenesis ((recordsAlong core paid a bs).reverse.map recordOf) =
      (recordsAlong core paid a rest).reverse.map recordOf := by
  unfold sinceGenesis
  have habove : (((recordsAlong core paid a rest).reverse.map recordOf).filter
      fun r => 0 < r.blockIndex) = (recordsAlong core paid a rest).reverse.map recordOf := by
    refine List.filter_eq_self.mpr fun r hr => ?_
    obtain ⟨e, he, rfl⟩ := List.mem_map.mp hr
    obtain ⟨b, hb, he⟩ := List.mem_flatMap.mp (List.mem_reverse.mp he)
    have := hrest b hb
    rw [← index_of_mem_recordsOf he] at this
    exact decide_eq_true this
  rcases hbs with rfl | rfl
  · have hgenesis : (((recordsOf core a genesis (paid genesis.index)).reverse.map recordOf).filter
        fun r => 0 < r.blockIndex) = [] := by
      refine List.filter_eq_nil_iff.mpr fun r hr => ?_
      obtain ⟨e, he, rfl⟩ := List.mem_map.mp hr
      have hzero : e.1 = 0 := (index_of_mem_recordsOf (List.mem_reverse.mp he)).trans hi
      simp [recordOf, hzero]
    rw [recordsAlong, List.flatMap_cons, List.reverse_append, List.map_append, List.filter_append,
      hgenesis, List.append_nil]
    exact habove
  · exact habove

/-- The sum of what the records of blocks contribute is the sum over the blocks. -/
theorem sum_recordsAlong {paid : ℕ → List Payout} {value : TxRecord → ℕ} {f : Block → ℕ}
    (h : ∀ b, ((recordsOf core a b (paid b.index)).map fun e => value (recordOf e)).sum = f b)
    (bs : List Block) :
    (((recordsAlong core paid a bs).reverse.map recordOf).map value).sum = (bs.map f).sum := by
  rw [List.map_reverse, List.map_reverse, List.sum_reverse, List.map_map]
  induction bs with
  | nil => rfl
  | cons b bs ih =>
    rw [recordsAlong, List.flatMap_cons, List.map_append, List.sum_append, List.map_cons,
      List.sum_cons]
    exact congrArg₂ (· + ·) (h b) ih

/-- Over every such run, the whole history of an address adds up to its balance: with what the
genesis block gave it and its parts of the fees as a miner, the records of the blocks since then
have credited what they have debited and what the address has. -/
theorem balance_of_run (hi : genesis.index = 0) (hpot : pot < 2 ^ 64)
    (hgenesis : genesis.transactions.length ≤ payoutPosition) {ds : List Delivery}
    (run : Runs.Run (DeliversReaching core) (fresh env pot genesis) ds n)
    (hforeign : NoForeignKey n.db.txIndex a) (hnone : a ≠ "") (hlottery : a ≠ "lottery")
    (hsupply : (freshChain env pot genesis).totalSupply + n.chain.getHeight ≤ 2 ^ 64) {limit : ℕ}
    {records : List TxRecord} (hquery : n.db.getTransactionsForAddress a 0 limit = .ok records)
    (hall : records.length < limit) :
    n.chain.getBalance a + ((sinceGenesis records).map (TxRecord.debit a)).sum =
      (freshChain env pot genesis).getBalance a +
        ((sinceGenesis records).map (TxRecord.credit a)).sum +
          (n.canonicalChain.tail.map fun b => minerShareOf b a).sum := by
  have hn := explored_of_run hi hpot run
  obtain ⟨bs, hbs, hhistory⟩ := hn.historyOf hi hgenesis hforeign
  obtain ⟨-, full, ht, hm, hx⟩ := hn
  obtain ⟨rest, hrest, hgrow⟩ := ht.blocks
  rw [pages_of_noForeignKey hx.content hforeign, hhistory, List.drop_zero,
    Except.ok.injEq] at hquery
  -- a page that is not full is the whole history
  have hrecords : records = (recordsAlong core (paidAlong core (freshChain env pot genesis)
      n.canonicalChain.tail) a bs).reverse.map recordOf := by
    rw [← hquery, List.take_of_length_le]
    rw [← hquery, List.length_take] at hall
    omega
  rw [ht.canonicalChain, hrest, List.tail_cons] at hrecords hbs ⊢
  have hpositive : ∀ b ∈ rest, 0 < b.index := fun b hb =>
    ((ht.mem_indices hi).mp (by rw [hrest]; exact List.mem_map_of_mem hb)).1
  have hlength : n.chain.getHeight = rest.length + 1 := by
    rw [ht.getHeight, hrest, List.length_cons]
  have hbalance := hgrow.balances (by omega) a
  rw [← show n.chain.getBalance a = full.getBalance a by
    rw [DerivedState.getBalance, DerivedState.getBalance, ht.pruned.derived],
    Blockchain.gainsAlong_eq hgrow, spentAlong] at hbalance
  have hcredit := sum_recordsAlong (fun b => credits_recordsOf core a b
    (paidAlong core (freshChain env pot genesis) rest b.index)) rest
  have hdebit := sum_recordsAlong (fun b => debits_recordsOf core b
    (paidAlong core (freshChain env pot genesis) rest b.index) hnone hlottery) rest
  rw [hrecords, sinceGenesis_recordsAlong hi hpositive hbs, hcredit, hdebit, hbalance,
    Nat.add_assoc, ← List.sum_map_add]

/-! ### The payouts of the lottery -/

/-- The records of the payouts of a tier that blocks settle, the newest block first. -/
def payoutsAlong (paid : ℕ → List Payout) (tier : Option String) (bs : List Block) :
    List PayoutRecord :=
  bs.reverse.flatMap fun b => ((paid b.index).filter fun p => p.matches tier).map fun p =>
    ⟨b.index, some b.timestamp, p.receiver, p.amount, p.tier.name⟩

/-- A node stores the payouts of the blocks that have any. -/
theorem Indexes.get_lotteryPayouts (hx : Indexes core env pot genesis n full) (i : ℕ) :
    n.db.lotteryPayouts.get i = if paidOn core env pot genesis full i = [] then none
      else some (paidOn core env pot genesis full i) := by
  obtain ⟨db, hmaintained, hdb⟩ := hx.maintained
  rw [← hmaintained.lotteryPayouts i]
  rcases hdb with heq | ⟨t, heq, -⟩
  · rw [heq]
  · rw [heq]

/-- They are stored in the order of the chain. -/
theorem Indexes.lotteryPayouts (hx : Indexes core env pot genesis n full)
    (ht : Tracks core env pot genesis n full) (hi : genesis.index = 0) :
    n.db.lotteryPayouts.entries = (full.blocks.tail.map fun b =>
      (b.index, paidOn core env pot genesis full b.index)).filter fun e => e.2 ≠ [] := by
  have hsorted : ((full.blocks.tail.map fun b =>
      (b.index, paidOn core env pot genesis full b.index)).filter fun e =>
        e.2 ≠ []).Pairwise fun e e' => e.1 < e'.1 := by
    refine List.Pairwise.filter _ ?_
    rw [List.pairwise_map]
    exact (ht.sorted_blocks hi).sublist (List.tail_sublist _)
  have hnodup : ∀ {l : List (ℕ × List Payout)}, (l.Pairwise fun e e' => e.1 < e'.1) → l.Nodup :=
    fun h => h.imp fun hlt heq => by
      subst heq
      exact lt_irrefl _ hlt
  have hperm := (List.perm_ext_iff_of_nodup (hnodup n.db.lotteryPayouts.sorted)
    (hnodup hsorted)).mpr fun e => by
      obtain ⟨i, ps⟩ := e
      rw [OrderedTable.mem_entries, hx.get_lotteryPayouts, List.mem_filter, List.mem_map]
      constructor
      · intro h
        split at h
        · cases h
        · rename_i hne
          cases h
          have hmem : i ∈ full.blocks.tail.map fun b => b.index := by
            by_contra hnot
            exact hne (Blockchain.paidAlong_of_notMem hnot)
          obtain ⟨b, hb, rfl⟩ := List.mem_map.mp hmem
          exact ⟨⟨b, hb, rfl⟩, decide_eq_true hne⟩
      · rintro ⟨⟨b, -, heq⟩, hne⟩
        cases heq
        exact if_neg (of_decide_eq_true hne)
  exact hperm.eq_of_pairwise (fun e e' _ _ hlt hgt => absurd hlt hgt.not_gt)
    n.db.lotteryPayouts.sorted hsorted

/-- The stored payouts of stored blocks match as those of the blocks do. -/
theorem matchingPayouts_eq {db : Db} {paid : ℕ → List Payout} {bs : List Block}
    (hentries : db.lotteryPayouts.entries =
      (bs.map fun b => (b.index, paid b.index)).filter fun e => e.2 ≠ [])
    (hstored : ∀ b ∈ bs, db.blocks.get b.index = some b) (tier : Option String) :
    db.matchingPayouts tier = payoutsAlong paid tier bs := by
  rw [Db.matchingPayouts, hentries, payoutsAlong, ← List.filter_reverse, ← List.map_reverse]
  replace hstored : ∀ b ∈ bs.reverse, db.blocks.get b.index = some b := fun b hb =>
    hstored b (List.mem_reverse.mp hb)
  generalize bs.reverse = bs at hstored
  induction bs with
  | nil => rfl
  | cons b bs ih =>
    have hrest := ih fun x hx => hstored x (List.mem_cons_of_mem _ hx)
    have hrecord : db.payoutRecord b.index = fun p =>
        ⟨b.index, some b.timestamp, p.receiver, p.amount, p.tier.name⟩ := by
      funext p
      rw [Db.payoutRecord, hstored b List.mem_cons_self, Option.map_some]
    rw [List.map_cons, List.filter_cons, List.flatMap_cons, ← hrest, ← hrecord]
    split
    · rfl
    · rename_i hnot
      have hempty : paid b.index = [] := by simpa using hnot
      rw [hempty]
      rfl

/-- Over every such run, a request for payouts is answered with those that the blocks of the
canonical chain have settled, each with the time of its block, the newest block first. -/
theorem payouts_of_run (hi : genesis.index = 0) (hpot : pot < 2 ^ 64) {ds : List Delivery}
    (run : Runs.Run (DeliversReaching core) (fresh env pot genesis) ds n) (tier : Option String)
    {limit : Option ℕ} (hlimit : limit ≠ some 0) :
    getRecentLotteryPayoutsHandler n.db tier limit =
      (payoutsAlong (paidAlong core (freshChain env pot genesis) n.canonicalChain.tail) tier
        n.canonicalChain.tail).take (min (limit.getD 10) 100) := by
  obtain ⟨-, full, ht, hm, hx⟩ := explored_of_run hi hpot run
  have hpos : 1 ≤ min (limit.getD 10) 100 := by
    cases limit with
    | none => decide
    | some k =>
      have : k ≠ 0 := fun hk => hlimit (by rw [hk])
      rw [Option.getD_some]
      omega
  have hstored : ∀ b ∈ full.blocks.tail, n.db.blocks.get b.index = some b := by
    intro b hb
    obtain ⟨j, hj⟩ := List.mem_iff_getElem?.mp (List.mem_of_mem_tail hb)
    rw [hm b.index, ht.index hi hj, hj]
  rw [getRecentLotteryPayoutsHandler, Db.getRecentLotteryPayouts_eq, Nat.max_eq_left hpos,
    matchingPayouts_eq (hx.lotteryPayouts ht hi) hstored, ht.canonicalChain]
  rfl

/-- The payouts that a query of blocks reads for a block of its range are those that it settled. -/
theorem Indexes.lookup_getLotteryPayoutsRange (hx : Indexes core env pot genesis n full)
    {start limit i : ℕ} (hstart : start ≤ i) (hlimit : i < Word.saturatingAdd 64 start limit) :
    ((n.db.getLotteryPayoutsRange start limit).lookup i).getD [] =
      paidOn core env pot genesis full i := by
  have hnodup : ((n.db.lotteryPayouts.entriesBetween start
      (Word.saturatingAdd 64 start limit)).map Prod.fst).Nodup :=
    n.db.lotteryPayouts.nodup_keys.sublist (List.filter_sublist.map _)
  have hlookup : ∀ ps, (n.db.getLotteryPayoutsRange start limit).lookup i = some ps ↔
      n.db.lotteryPayouts.get i = some ps := by
    intro ps
    rw [Db.getLotteryPayoutsRange, HashTable.lookup_collect hnodup,
      OrderedTable.mem_entriesBetween]
    exact and_iff_left ⟨hstart, hlimit⟩
  rw [Option.ext hlookup, hx.get_lotteryPayouts]
  split
  · rename_i hempty
    exact hempty.symm
  · rfl

/-- Over every such run, a request for blocks is answered with those of the canonical chain from an
index on, each with the payouts that it has settled. -/
theorem blocks_of_run (hi : genesis.index = 0) (hpot : pot < 2 ^ 64) {ds : List Delivery}
    (run : Runs.Run (DeliversReaching core) (fresh env pot genesis) ds n) {start : ℕ}
    (hstart : start < 2 ^ 64) (hheight : n.chain.getHeight < 2 ^ 64) (limit : Option ℕ) :
    getBlocksHandler n.db start limit =
      ((n.canonicalChain.drop start).take (min (limit.getD 500) 500)).map fun b =>
        b.view (paidAlong core (freshChain env pot genesis) n.canonicalChain.tail b.index) := by
  obtain ⟨-, full, ht, hm, hx⟩ := explored_of_run hi hpot run
  rw [ht.canonicalChain]
  rw [ht.getHeight] at hheight
  have hmax : Word.maxValue 64 = 2 ^ 64 - 1 := rfl
  set most := min (limit.getD 500) 500 with hmost
  have hrange : n.db.getBlocksRange start most = (full.blocks.drop start).take most := by
    rw [Db.getBlocksRange]
    by_cases hfits : start + most < 2 ^ 64
    · rw [Word.saturatingAdd_of_lt hfits, OrderedTable.range_eq_take hm]
    · -- the end of the range is cut off, and the chain ends before it
      have hend : Word.saturatingAdd 64 start most = start + (2 ^ 64 - 1 - start) := by
        rw [Word.saturatingAdd]
        omega
      rw [hend, OrderedTable.range_eq_take hm, List.take_of_length_le, List.take_of_length_le]
      · rw [List.length_drop]
        omega
      · rw [List.length_drop]
        omega
  rw [getBlocksHandler, ← hmost, ← hrange]
  refine List.map_congr_left fun b hb => ?_
  obtain ⟨i, hle, hlt, hget⟩ := Db.mem_getBlocksRange hb
  rw [hm i] at hget
  have hlength := (List.getElem?_eq_some_iff.mp hget).1
  have hend : i < Word.saturatingAdd 64 start most := by
    rw [Word.saturatingAdd]
    omega
  rw [ht.index hi hget, hx.lookup_getLotteryPayoutsRange hle hend]
  rfl

end Node

namespace Sample

/-- A block on the rival that pays its miner and confirms the displaced payment. -/
def rivalPayment : Block :=
  blockOf [coins "" "miner" 1 0 9, payment] 2 rivalBlock.hash 1748000121 33

/-- The payment is confirmed, displaced, and confirmed again. -/
def paidAgain : List Node.Delivery :=
  [paymentBlock, rivalBlock, rivalPayment].map fun b => ⟨b, around 1748000160⟩

/-- The addresses of the run shadow none of the others in the index. -/
theorem noForeignKey_of_entries {t : OrderedTable Bytes TxValue} {a : Address}
    (h : ∀ e ∈ t.entries, utf8 a ++ [0] <+: e.1 →
      e.1 = makeTxKey a (keyIndex e.1) (keyPosition e.1)) : NoForeignKey t a :=
  fun _ _ _ _ _ _ hget hne hprefix =>
    hne (address_of_makeTxKey (h _ (OrderedTable.mem_entries.mpr hget) hprefix))

theorem paidAgainRun (a : Address) (ha : a = Node.genesisAddress ∨ a = "payee") : ∃ n,
    Runs.Run (Node.DeliversReaching plainCore) node paidAgain n ∧
    n.canonicalChain = [genesis, rivalBlock, rivalPayment] ∧ NoForeignKey n.db.txIndex a ∧
    (n.db.getTransactionsForAddress a 0 50).toOption.map List.length = some 1 := by
  have hrun : (runChecked plainCore (fun n d =>
      n.chain.ForkReplays plainCore d.ambient d.block (some n.db.reader) ∧
        n.ReachesHeight plainCore d) node paidAgain).map (fun n => (n.canonicalChain,
        decide (∀ e ∈ n.db.txIndex.entries, utf8 a ++ [0] <+: e.1 →
          e.1 = makeTxKey a (keyIndex e.1) (keyPosition e.1)),
        (n.db.getTransactionsForAddress a 0 50).toOption.map List.length)) =
      some ([genesis, rivalBlock, rivalPayment], true, some 1) := by
    rcases ha with rfl | rfl <;> decide +kernel
  obtain ⟨n, hn, hobs⟩ := Option.map_eq_some_iff.mp hrun
  simp only [Prod.mk.injEq, decide_eq_true_eq] at hobs
  exact ⟨n, (run_of_runChecked hn).mono fun h => ⟨⟨h.1, h.2.1⟩, h.2.2⟩, hobs.1,
    noForeignKey_of_entries hobs.2.1, hobs.2.2⟩

theorem getHeight_of_paidAgain {n : Node}
    (hrun : Runs.Run (Node.DeliversReaching plainCore) node paidAgain n)
    (hchain : n.canonicalChain = [genesis, rivalBlock, rivalPayment]) : n.chain.getHeight = 3 := by
  obtain ⟨-, full, ht, -, -⟩ := Node.explored_of_run rfl (by decide) hrun
  rw [ht.getHeight, ← ht.canonicalChain, hchain]
  rfl

/-- The payee's history is the one confirmed payment. -/
theorem payee_history : ∃ n : Node, n.canonicalChain = [genesis, rivalBlock, rivalPayment] ∧
    ∃ bs, (bs = n.canonicalChain ∨ bs = n.canonicalChain.tail) ∧ ∀ offset limit,
      n.db.getTransactionsForAddress "payee" offset limit =
        .ok (((((recordsAlong plainCore (Blockchain.paidAlong plainCore
          (Node.freshChain none Node.genesisPotAmount genesis) n.canonicalChain.tail) "payee"
          bs).reverse).map recordOf).drop offset).take limit) := by
  obtain ⟨n, hrun, hchain, hforeign, -⟩ := paidAgainRun "payee" (.inr rfl)
  exact ⟨n, hchain, Node.history_of_run rfl (by decide) (by decide) hrun hforeign⟩

/-- The address that pays has one record, and its balance is what the genesis block gave it less the
payment and the fee. -/
theorem payer_balance : ∃ (n : Node) (records : List TxRecord),
    n.canonicalChain = [genesis, rivalBlock, rivalPayment] ∧ records.length = 1 ∧
    n.db.getTransactionsForAddress Node.genesisAddress 0 50 = .ok records ∧
    n.chain.getBalance Node.genesisAddress +
        ((Node.sinceGenesis records).map (TxRecord.debit Node.genesisAddress)).sum =
      (Node.freshChain none Node.genesisPotAmount genesis).getBalance Node.genesisAddress +
        ((Node.sinceGenesis records).map (TxRecord.credit Node.genesisAddress)).sum +
          (n.canonicalChain.tail.map fun b => DerivedState.minerShareOf b
            Node.genesisAddress).sum := by
  obtain ⟨n, hrun, hchain, hforeign, hpage⟩ := paidAgainRun Node.genesisAddress (.inl rfl)
  obtain ⟨records, hquery, hlength⟩ := Fallible.exists_of_toOption_map hpage
  have hheight := getHeight_of_paidAgain hrun hchain
  have hsupply : (Node.freshChain none Node.genesisPotAmount genesis).totalSupply +
      n.chain.getHeight ≤ 2 ^ 64 := by
    rw [hheight]
    decide +kernel
  exact ⟨n, records, hchain, hlength, hquery, Node.balance_of_run rfl (by decide) (by decide) hrun
    hforeign (by decide) (by decide) hsupply hquery (by omega)⟩

/-- The ticket of the first block wins a five-hundredth of the pot, and the query finds that. -/
theorem winningRun : ∃ n,
    Runs.Run (Node.DeliversReaching winningCore) node
      (winningDeliveries ++ [winningDelivery revealBlocks]) n ∧
    n.chain.getHeight = 102 ∧ n.chain.pot = 98802001 ∧
    getRecentLotteryPayoutsHandler n.db none none =
      [⟨101, some 1748006060, "miner", 198000, "jackpot"⟩] := by
  have hrun : (runChecked winningCore (fun n d =>
      n.chain.ForkReplays winningCore d.ambient d.block (some n.db.reader) ∧
        n.ReachesHeight winningCore d) node
      (winningDeliveries ++ [winningDelivery revealBlocks])).map (fun n =>
        (n.chain.getHeight, n.chain.pot, getRecentLotteryPayoutsHandler n.db none none)) =
      some (102, 98802001, [⟨101, some 1748006060, "miner", 198000, "jackpot"⟩]) := by
    decide +kernel
  obtain ⟨n, hn, hobs⟩ := Option.map_eq_some_iff.mp hrun
  simp only [Prod.mk.injEq] at hobs
  exact ⟨n, (run_of_runChecked hn).mono fun h => ⟨⟨h.1, h.2.1⟩, h.2.2⟩, hobs⟩

theorem winning_payouts : ∃ n : Node,
    getRecentLotteryPayoutsHandler n.db none none =
      [⟨101, some 1748006060, "miner", 198000, "jackpot"⟩] ∧
    getRecentLotteryPayoutsHandler n.db none none =
      (Node.payoutsAlong (Blockchain.paidAlong winningCore
        (Node.freshChain none Node.genesisPotAmount genesis) n.canonicalChain.tail) none
        n.canonicalChain.tail).take (min ((none : Option ℕ).getD 10) 100) := by
  obtain ⟨n, hrun, -, -, hfound⟩ := winningRun
  exact ⟨n, hfound, Node.payouts_of_run rfl (by decide) hrun none (by decide)⟩

/-- A query for one block from index one on finds the rival. -/
theorem rivalBlock_listed : ∃ n : Node,
    n.canonicalChain = [genesis, rivalBlock, rivalPayment] ∧
    getBlocksHandler n.db 1 (some 1) =
      ((n.canonicalChain.drop 1).take (min ((some 1).getD 500) 500)).map fun b =>
        b.view (Blockchain.paidAlong plainCore (Node.freshChain none Node.genesisPotAmount genesis)
          n.canonicalChain.tail b.index) := by
  obtain ⟨n, hrun, hchain, -⟩ := paidAgainRun "payee" (.inr rfl)
  have hheight := getHeight_of_paidAgain hrun hchain
  exact ⟨n, hchain, Node.blocks_of_run rfl (by decide) hrun (by decide) (by omega) (some 1)⟩

end Sample

end Lootcoin
