import Lootcoin.Chain.Accounts
import Lootcoin.Db.History
import Lootcoin.Node.Stale
import Lootcoin.Startup.Counters

/-! The transaction index of a node over a run.  Each append and each reorganization drains the
payouts that `updateState` has settled and writes them with its blocks, so the index always holds
the entries of the canonical chain, whatever blocks were displaced on the way.  Only the genesis
block is indexed or not: a rebuild of the index enters it, and nothing else does. -/

namespace Lootcoin

namespace Blockchain

open DerivedState

variable {core : Core} {c c' d full : Blockchain} {b : Block} {bs : List Block}

/-! ### The payouts of a branch -/

/-- The payouts that the blocks of a branch settle, by block index. -/
def paidAlong (core : Core) : Blockchain → List Block → ℕ → List Payout
  | _, [], _ => []
  | c, b :: bs, i =>
    if i = b.index then c.maturingPayouts core c.blockHashAt b.index
    else paidAlong core (c.after core b) bs i

/-- No payouts are kept for blocks that the chain does not have yet. -/
def SettledBelow (c : Blockchain) : Prop :=
  ∀ i, c.getHeight ≤ i → c.settledPayoutsByBlock.lookup i = none

theorem paidAlong_of_notMem {i : ℕ} (h : i ∉ bs.map fun b => b.index) :
    paidAlong core c bs i = [] := by
  induction bs generalizing c with
  | nil => rfl
  | cons b bs ih =>
    rw [List.map_cons, List.mem_cons, not_or] at h
    rw [paidAlong, if_neg h.1, ih h.2]

theorem paidAlong_append (bs bs' : List Block) (i : ℕ) :
    paidAlong core c (bs ++ bs') i =
      if i ∈ bs.map fun b => b.index then paidAlong core c bs i
      else paidAlong core (bs.foldl (Blockchain.after core) c) bs' i := by
  induction bs generalizing c with
  | nil => simp
  | cons b bs ih =>
    rw [List.cons_append, paidAlong, paidAlong, ih, List.foldl_cons, List.map_cons]
    by_cases hi : i = b.index
    · rw [if_pos hi, if_pos hi, if_pos (by rw [hi]; exact List.mem_cons_self)]
    · rw [if_neg hi, if_neg hi]
      simp only [List.mem_cons, hi, false_or]

/-- The payouts that an append settles are those of the maturing tickets, and the chain keeps them
under the index of the block. -/
theorem Appends.committed (h : Appends core c b c') : ∃ s, c' = c.commitBlock b s
    (c.maturingPayouts core c.blockHashAt b.index) := by
  obtain ⟨now, hup⟩ := h
  obtain ⟨-, s, payouts, hadv, rfl⟩ := updateState_eq_some.mp hup
  obtain ⟨-, -, -, -, rfl⟩ := advance_eq_ok.mp hadv
  exact ⟨s, by rw [settleTickets_payouts]⟩

/-- A branch leaves the payouts of its blocks under their indices. -/
theorem Grows.settled (h : Grows core c bs c') (hc : c.SettledBelow) :
    c'.SettledBelow ∧ ∀ i, HashTable.getD c'.settledPayoutsByBlock i [] =
      if c.getHeight ≤ i then paidAlong core c bs i
      else HashTable.getD c.settledPayoutsByBlock i [] := by
  induction h with
  | nil c =>
    refine ⟨hc, fun i => ?_⟩
    split
    · rename_i hi
      rw [HashTable.getD, hc i hi]
      rfl
    · rfl
  | @cons c d c' b bs hs _ ih =>
    obtain ⟨s, hcommit⟩ := hs.committed
    have happended := hs.appended
    have hindex := happended.index
    have hheight := happended.getHeight
    have hlookup : ∀ i, i ≠ b.index →
        d.settledPayoutsByBlock.lookup i = c.settledPayoutsByBlock.lookup i := by
      intro i hi
      rw [hcommit, Node.lookup_settled_commitBlock, if_neg fun h => hi h.1]
    have hd : d.SettledBelow := fun i hi => by
      rw [hlookup i (by omega), hc i (by omega)]
    obtain ⟨hbelow, hsettled⟩ := ih hd
    refine ⟨hbelow, fun i => ?_⟩
    rw [hsettled, paidAlong, hs.after]
    by_cases hi : i = b.index
    · -- the block's own payouts are those that the append has added
      rw [if_neg (by omega), if_pos (by omega), if_pos hi, hi, hcommit,
        Node.getD_settled_commitBlock (hc _ hindex.ge)]
    · rw [if_neg hi, HashTable.getD, HashTable.getD, hlookup i hi]
      by_cases hle : d.getHeight ≤ i
      · rw [if_pos hle, if_pos (by omega)]
      · rw [if_neg hle, if_neg (by omega)]

/-- A pruned chain settles the payouts that the whole chain does. -/
theorem PrunedFrom.maturingPayouts (h : PrunedFrom full c) (hb : b.index = c.getHeight) :
    c.maturingPayouts core c.blockHashAt b.index =
      full.maturingPayouts core full.blockHashAt b.index := by
  have hrules : SameRules core c full b := h.sameRules hb
  have hdraws := hrules.draws
  rw [← settleTickets_payouts, ← settleTickets_payouts, settleTickets_congr hdraws, h.derived]

theorem PrunedFrom.paidAlong (h : PrunedFrom full c) (hc : Grows core c bs c') (i : ℕ) :
    Blockchain.paidAlong core c bs i = Blockchain.paidAlong core full bs i := by
  induction hc generalizing full with
  | nil => rfl
  | cons hs _ ih =>
    have hindex := hs.appended.index
    have hafter := hs.after
    obtain ⟨now, hup⟩ := hs
    obtain ⟨mid, hmid, hpruned⟩ := h.updateState hup
    rw [Blockchain.paidAlong, Blockchain.paidAlong, h.maturingPayouts hindex, hafter,
      (show Appends core full _ mid from ⟨now, hmid⟩).after, ih hpruned]

/-! ### Draining payouts -/

theorem getD_foldl_drainInto (bs : List Block) (acc : HashTable ℕ (List Payout) × Blockchain)
    (i : ℕ) : HashTable.getD (bs.foldl drainInto acc).1 i [] =
      if i ∈ (bs.map fun b => b.index) ∧ HashTable.getD acc.2.settledPayoutsByBlock i [] ≠ [] then
        HashTable.getD acc.2.settledPayoutsByBlock i []
      else HashTable.getD acc.1 i [] := by
  induction bs generalizing acc with
  | nil => simp
  | cons b bs ih =>
    obtain ⟨t, d⟩ := acc
    rw [List.foldl_cons, ih]
    set payouts := HashTable.getD d.settledPayoutsByBlock b.index [] with hpayouts
    have hstep : drainInto (t, d) b = (if payouts.isEmpty then t else t.insert b.index payouts,
        { d with settledPayoutsByBlock := d.settledPayoutsByBlock.erase b.index }) := rfl
    rw [hstep]
    by_cases hi : i = b.index
    · -- the first block of an index takes out all that is there
      have herased : HashTable.getD (d.settledPayoutsByBlock.erase b.index) b.index [] = [] := by
        rw [HashTable.getD, AList.lookup_erase, Option.getD_none]
      subst hi
      rw [if_neg (by simp [herased])]
      cases hp : payouts with
      | nil => simp [← hpayouts, hp]
      | cons p ps => simp [← hpayouts, hp]
    · have hkept : HashTable.getD (d.settledPayoutsByBlock.erase b.index) i [] =
          HashTable.getD d.settledPayoutsByBlock i [] := by
        rw [HashTable.getD, AList.lookup_erase_ne hi, HashTable.getD]
      have htable : HashTable.getD (if payouts.isEmpty then t else t.insert b.index payouts) i [] =
          HashTable.getD t i [] := by
        split
        · rfl
        · exact HashTable.getD_insert_ne hi _ _
      simp only [hkept, htable, List.map_cons, List.mem_cons, hi, false_or]

/-- The payouts drained for blocks are those that the chain has kept for them. -/
theorem getD_drainPayouts (c : Blockchain) (bs : List Block) (i : ℕ) :
    HashTable.getD (c.drainPayouts bs).1 i [] =
      if i ∈ bs.map fun b => b.index then HashTable.getD c.settledPayoutsByBlock i [] else [] := by
  rw [drainPayouts, getD_foldl_drainInto]
  have hempty : HashTable.getD (∅ : HashTable ℕ (List Payout)) i [] = [] := rfl
  by_cases hi : i ∈ bs.map fun b => b.index
  · by_cases hp : HashTable.getD c.settledPayoutsByBlock i [] = []
    · simp [hp, hempty]
    · rw [if_pos ⟨hi, hp⟩, if_pos hi]
  · rw [if_neg fun h => hi h.1, if_neg hi, hempty]

/-- Taking payouts out of a chain keeps none for blocks that it does not have. -/
theorem SettledBelow.erase (hc : c.SettledBelow) (i : ℕ) : SettledBelow
    { c with settledPayoutsByBlock := c.settledPayoutsByBlock.erase i } := by
  intro j hj
  by_cases hji : j = i
  · rw [hji, AList.lookup_erase]
  · rw [AList.lookup_erase_ne hji]
    exact hc j hj

theorem SettledBelow.drainPayouts (hc : c.SettledBelow) (bs : List Block) :
    (c.drainPayouts bs).2.SettledBelow := by
  have h : ∀ (acc : HashTable ℕ (List Payout) × Blockchain), acc.2.SettledBelow →
      (bs.foldl drainInto acc).2.SettledBelow := by
    induction bs with
    | nil => exact fun _ h => h
    | cons b bs ih => exact fun acc h => ih _ (h.erase b.index)
  exact h (∅, c) hc

theorem SettledBelow.prune (hc : c.SettledBelow) (hne : c.blocks ≠ []) :
    c.pruneToWindow.SettledBelow := by
  intro i hi
  rw [pruneToWindow_getHeight hne] at hi
  exact Node.lookup_settled_pruneToWindow (hc i hi)

end Blockchain

/-! ### Databases that conceal the entries of the genesis block -/

namespace Db

variable {core : Core} {db db' : Db} {b : Block}

/-- `db'` is `db` without the index entries of block 0. -/
def Conceals (db db' : Db) : Prop :=
  ∃ t, db' = { db with txIndex := t } ∧
    ∀ k, t.get k = if keyIndex k = 0 then none else db.txIndex.get k

theorem insertCanonical_txIndex (pm : HashTable ℕ (List Payout)) (db : Db) (b : Block) :
    (db.insertCanonical core pm b).txIndex =
      db.txIndex.insertAll (blockEntries core b (HashTable.getD pm b.index [])) := by
  rw [blockEntries, OrderedTable.insertAll_append, ← indexTransactions_eq]
  exact savePayouts_txIndex core _ _ _

theorem removeDisplaced_txIndex (core : Core) (db : Db) (b : Block) :
    (db.removeDisplaced b).txIndex =
      (db.txIndex.removeAll ((payoutEntries core b.index
        ((db.lotteryPayouts.get b.index).getD [])).map Prod.fst)).removeAll
          ((transactionEntries core b).map Prod.fst) := by
  rw [← unindexPayouts_eq, ← unindexTransactions_eq]
  rfl

/-- The index of a database plays no part in what a new block writes to the other tables. -/
theorem insertCanonical_withIndex (pm : HashTable ℕ (List Payout)) (db : Db) (b : Block)
    (t : OrderedTable Bytes TxValue) :
    ({ db with txIndex := t }).insertCanonical core pm b = { db.insertCanonical core pm b with
      txIndex := t.insertAll (blockEntries core b (HashTable.getD pm b.index [])) } := by
  have htx : (({ db with txIndex := t } : Db).insertCanonical core pm b).txIndex =
      t.insertAll (blockEntries core b (HashTable.getD pm b.index [])) :=
    insertCanonical_txIndex pm { db with txIndex := t } b
  rw [← htx]
  unfold insertCanonical savePayouts
  split <;> rfl

theorem Conceals.insertCanonical (h : db.Conceals db') (pm : HashTable ℕ (List Payout))
    (hpos : b.index ≠ 0) (hlt : b.index < 2 ^ 64) :
    (db.insertCanonical core pm b).Conceals (db'.insertCanonical core pm b) := by
  obtain ⟨t, rfl, ht⟩ := h
  refine ⟨_, insertCanonical_withIndex pm db b t, fun k => ?_⟩
  rw [insertCanonical_txIndex, OrderedTable.get_insertAll, OrderedTable.get_insertAll db.txIndex,
    ht]
  split
  · rename_i hk
    -- the entries of another block have other keys
    have hnot : k ∉ (blockEntries core b (HashTable.getD pm b.index [])).map Prod.fst :=
      fun hmem => hpos ((keyIndex_of_mem_blockEntries hlt hmem).symm.trans hk)
    rw [OrderedTable.get_insertAll_of_notMem hnot]
    rfl
  · rfl

theorem Conceals.removeDisplaced (core : Core) (h : db.Conceals db') (b : Block) :
    (db.removeDisplaced b).Conceals (db'.removeDisplaced b) := by
  obtain ⟨t, rfl, ht⟩ := h
  refine ⟨(Db.removeDisplaced { db with txIndex := t } b).txIndex, rfl, fun k => ?_⟩
  rw [removeDisplaced_txIndex core, removeDisplaced_txIndex core]
  simp only [OrderedTable.get_removeAll, ht]
  split
  · split <;> rfl
  · split
    · split <;> rfl
    · rfl

theorem Conceals.withTickets (h : db.Conceals db') (tickets : OrderedTable ℕ Address) :
    ({ db with tickets := tickets }).Conceals { db' with tickets := tickets } := by
  obtain ⟨t, rfl, ht⟩ := h
  exact ⟨t, rfl, ht⟩

theorem Conceals.withCheckpoints (h : db.Conceals db')
    (checkpoints : OrderedTable ℕ CheckpointState) :
    ({ db with checkpoints := checkpoints }).Conceals { db' with checkpoints := checkpoints } := by
  obtain ⟨t, rfl, ht⟩ := h
  exact ⟨t, rfl, ht⟩

theorem Conceals.deleteCheckpointsFrom (h : db.Conceals db') (height : ℕ) :
    (db.deleteCheckpointsFrom height).Conceals (db'.deleteCheckpointsFrom height) := by
  obtain ⟨t, rfl, ht⟩ := h
  exact ⟨t, rfl, ht⟩

theorem Conceals.saveAppliedBlock (h : db.Conceals db') (tickets : List LootTicket)
    (payouts : List Payout) (hpos : b.index ≠ 0) (hlt : b.index < 2 ^ 64) :
    (db.saveAppliedBlock core b tickets payouts).Conceals
      (db'.saveAppliedBlock core b tickets payouts) := by
  rw [Indexed.saveAppliedBlock_eq, Indexed.saveAppliedBlock_eq]
  exact (h.insertCanonical _ hpos hlt).withTickets _

theorem Conceals.applyReorgIncremental (h : db.Conceals db') (old : List Block) {new : List Block}
    (tickets : List LootTicket) (pm : HashTable ℕ (List Payout))
    (hnew : ∀ b ∈ new, b.index ≠ 0 ∧ b.index < 2 ^ 64) :
    (db.applyReorgIncremental core old new tickets pm).Conceals
      (db'.applyReorgIncremental core old new tickets pm) := by
  have hdisplaced : ∀ (old : List Block) (db db' : Db), db.Conceals db' →
      (old.foldl Db.removeDisplaced db).Conceals (old.foldl Db.removeDisplaced db') := by
    intro old
    induction old with
    | nil => exact fun _ _ h => h
    | cons b old ih => exact fun _ _ h => ih _ _ (h.removeDisplaced core b)
  have hextended : ∀ (new : List Block) (db db' : Db),
      (∀ b ∈ new, b.index ≠ 0 ∧ b.index < 2 ^ 64) → db.Conceals db' →
      (new.foldl (Db.insertCanonical core pm) db).Conceals
        (new.foldl (Db.insertCanonical core pm) db') := by
    intro new
    induction new with
    | nil => exact fun _ _ _ h => h
    | cons b new ih =>
      intro db db' hb h
      obtain ⟨hpos, hlt⟩ := hb b List.mem_cons_self
      exact ih _ _ (fun b' hb' => hb b' (List.mem_cons_of_mem _ hb'))
        (h.insertCanonical pm hpos hlt)
  exact (hextended new _ _ hnew (hdisplaced old _ _ h)).withTickets _

end Db

namespace Node

open Blockchain (Grows paidAlong SettledBelow)

variable {core : Core} {ambient : Ambient} {n n' : Node} {b : Block} {env : Option ℚ} {pot : ℕ}
  {genesis : Block} {full full' chain : Blockchain}

/-- The payouts that the blocks of a whole chain settle, by block index. -/
def paidOn (core : Core) (env : Option ℚ) (pot : ℕ) (genesis : Block) (full : Blockchain) :
    ℕ → List Payout :=
  paidAlong core (freshChain env pot genesis) full.blocks.tail

/-- The indices of a node are those of the whole chain, but that the entries of the genesis block
may be missing. -/
structure Indexes (core : Core) (env : Option ℚ) (pot : ℕ) (genesis : Block) (n : Node)
    (full : Blockchain) : Prop where
  content : IndexContent core n.db.txIndex
  settled : n.chain.SettledBelow
  maintained : ∃ db, Indexed.Maintained core
      ⟨db, paidOn core env pot genesis full, n.chain.pendingTickets⟩ ∧
    (n.db = db ∨ db.Conceals n.db)

/-! ### The payouts of the whole chain -/

theorem Tracks.mem_indices (ht : Tracks core env pot genesis n full) (hi : genesis.index = 0)
    {i : ℕ} : i ∈ (full.blocks.tail.map fun b => b.index) ↔ 0 < i ∧ i < full.blocks.length := by
  rw [List.mem_map]
  constructor
  · rintro ⟨x, hx, rfl⟩
    obtain ⟨j, hj⟩ := List.mem_iff_getElem?.mp hx
    rw [List.getElem?_tail] at hj
    have := (List.getElem?_eq_some_iff.mp hj).1
    have := ht.index hi hj
    omega
  · rintro ⟨hpos, hlt⟩
    have hx := List.getElem?_eq_getElem hlt
    refine ⟨full.blocks[i], List.mem_iff_getElem?.mpr ⟨i - 1, ?_⟩, ht.index hi hx⟩
    rw [List.getElem?_tail, show i - 1 + 1 = i by omega, hx]

/-- No payouts are settled outside the chain, nor in the genesis block. -/
theorem Tracks.paidOn_eq_nil (ht : Tracks core env pot genesis n full) (hi : genesis.index = 0)
    {i : ℕ} (h : i = 0 ∨ full.blocks.length ≤ i) : paidOn core env pot genesis full i = [] := by
  refine Blockchain.paidAlong_of_notMem fun hmem => ?_
  have := (ht.mem_indices hi).mp hmem
  omega

/-- An append settles the payouts of its block and of no other. -/
theorem Tracks.paidOn_applied (ht : Tracks core env pot genesis n full) (hi : genesis.index = 0)
    (hup : n.chain.updateState core (ambient.clock 0) b = .ok (some chain))
    (hfull : full'.blocks = full.blocks ++ [b]) : paidOn core env pot genesis full' =
      Function.update (paidOn core env pot genesis full) b.index
        (n.chain.maturingPayouts core n.chain.blockHashAt b.index) := by
  obtain ⟨rest, hrest, hgrow⟩ := ht.blocks
  have hindex := (Blockchain.appended_of_updateState hup).index
  have htail : full'.blocks.tail = full.blocks.tail ++ [b] := by
    rw [hfull, hrest, List.cons_append, List.tail_cons, List.tail_cons]
  have hfrom : full.blocks.tail.foldl (Blockchain.after core) (freshChain env pot genesis) =
      full := by
    rw [hrest, List.tail_cons]
    exact hgrow.foldl_after
  funext i
  rw [paidOn, htail, Blockchain.paidAlong_append, hfrom, paidAlong, paidAlong,
    ← ht.pruned.maturingPayouts hindex]
  have hlen := ht.getHeight
  by_cases hib : i = b.index
  · rw [if_neg, if_pos hib, hib, Function.update_self]
    intro hmem
    have := (ht.mem_indices hi).mp hmem
    omega
  · rw [Function.update_of_ne hib, if_neg hib]
    split
    · rfl
    · rename_i hnot
      exact (Blockchain.paidAlong_of_notMem hnot).symm

/-- A complete replay has kept the payouts of the whole chain that it rebuilds. -/
theorem Tracks.settled_rebuilt (ht : Tracks core env pot genesis n full) (hn : Sound core n)
    (hi : genesis.index = 0) (hpot : pot < 2 ^ 64) {old fork new : List Block} {ancestor : ℕ}
    (hre : n.chain.Reorganizes core ambient b (some n.db.reader) old fork chain ancestor new)
    (hfull : Rebuilt core ambient env pot genesis full fork ancestor chain full') :
    chain.SettledBelow ∧ ∀ i, HashTable.getD chain.settledPayoutsByBlock i [] =
      paidOn core env pot genesis full' i := by
  obtain ⟨stem, g, rest, hstem, htarget, -, -, hreplay⟩ := hn.reorganizes hre
  rw [ht.chainUpTo (ht.ancestor_lt hre.splice), Option.some.injEq] at hstem
  obtain ⟨before, -, hfrom⟩ := ht.blocks
  obtain ⟨rest', hrest, hgrow, -⟩ := hfull.grown
  have hblocks : g :: rest = genesis :: rest' := by rw [← htarget, ← hstem, ← hfull.blocks, hrest]
  obtain ⟨rfl, rfl⟩ := List.cons.inj hblocks
  -- the replay has appended every block, as the whole chain has them all
  obtain ⟨done, -, hdone⟩ := Blockchain.replay_grows hreplay
  have hall : full'.blocks = g :: done := by
    have hblocks := hdone.blocks
    rw [hfull.pruned.blocks, hdone.blocksOffset] at hblocks
    exact hblocks
  obtain rfl : done = rest := (List.cons.inj (hall.symm.trans hrest)).2
  have hpruned := prunedFrom_reset (c := n.chain.admitOrphan ambient.order b) (ht.pruned.congr
    rfl rfl rfl rfl rfl) hfrom hpot
  have hreset : ((n.chain.admitOrphan ambient.order b).reset g).SettledBelow := fun _ _ => rfl
  obtain ⟨hbelow, hsettled⟩ := hdone.settled hreset
  refine ⟨hbelow, fun i => ?_⟩
  rw [hsettled, paidOn, hrest, List.tail_cons, hpruned.paidAlong hdone]
  split
  · rfl
  · rename_i hlt
    refine (Blockchain.paidAlong_of_notMem fun hmem => hlt ?_).symm
    obtain ⟨x, hx, rfl⟩ := List.mem_map.mp hmem
    obtain ⟨j, hj⟩ := List.mem_iff_getElem?.mp hx
    have := ((windowSound_freshChain hi).grows hgrow).index (j + 1) x (by
      rw [hrest, List.getElem?_cons_succ, hj])
    show 1 ≤ x.index
    omega

/-- The payouts of a rebuilt chain: below the fork those of the chain before, and on the fork those
that the replay has kept. -/
theorem Tracks.paidOn_reorged (ht : Tracks core env pot genesis n full)
    (ht' : Tracks core env pot genesis n' full') (hi : genesis.index = 0) {fork : List Block}
    {ancestor : ℕ} (ha : ancestor < full.blocks.length)
    (hfull : full'.blocks = full.blocks.take (ancestor + 1) ++ fork) (i : ℕ) :
    paidOn core env pot genesis full' i =
      if i < ancestor + 1 then paidOn core env pot genesis full i
      else if i < ancestor + 1 + fork.length then paidOn core env pot genesis full' i else [] := by
  have hlen : full'.blocks.length = ancestor + 1 + fork.length := by
    rw [hfull, List.length_append, List.length_take]
    omega
  split
  · rename_i hlt
    by_cases hz : i = 0
    · rw [ht'.paidOn_eq_nil hi (.inl hz), ht.paidOn_eq_nil hi (.inl hz)]
    obtain ⟨before, hbefore, -⟩ := ht.blocks
    -- both chains begin with the blocks up to the ancestor
    have htail : full'.blocks.tail = full.blocks.tail.take ancestor ++ fork := by
      rw [hfull, hbefore, List.take_succ_cons, List.cons_append, List.tail_cons, List.tail_cons]
    have hmem : i ∈ (full.blocks.tail.take ancestor).map fun b => b.index := by
      have hx := List.getElem?_eq_getElem (show i < full.blocks.length by omega)
      refine List.mem_map.mpr ⟨full.blocks[i], List.mem_iff_getElem?.mpr ⟨i - 1, ?_⟩,
        ht.index hi hx⟩
      rw [List.getElem?_take_of_lt (by omega), List.getElem?_tail, show i - 1 + 1 = i by omega, hx]
    rw [paidOn, paidOn, htail, Blockchain.paidAlong_append, if_pos hmem]
    conv_rhs => rw [← List.take_append_drop ancestor full.blocks.tail]
    rw [Blockchain.paidAlong_append, if_pos hmem]
  · split
    · rfl
    · exact ht'.paidOn_eq_nil hi (.inr (by omega))

/-! ### One delivery -/

theorem maintained_withCheckpoints {db : Db} {paid : ℕ → List Payout} {tickets : List LootTicket}
    (h : Indexed.Maintained core ⟨db, paid, tickets⟩)
    (checkpoints : OrderedTable ℕ CheckpointState) :
    Indexed.Maintained core ⟨{ db with checkpoints := checkpoints }, paid, tickets⟩ :=
  ⟨⟨h.blocks, h.paid⟩, h.txIndex, h.lotteryPayouts, h.tickets⟩

/-- The checkpoint that an append may store is apart from the indices. -/
theorem persistApplied_db (core : Core) (n : Node) (b : Block) : ∃ checkpoints,
    (persistApplied core n b).db = { n.db.saveAppliedBlock core b n.chain.pendingTickets
      (HashTable.getD n.chain.settledPayoutsByBlock b.index []) with
        checkpoints := checkpoints } := by
  simp only [persistApplied, Blockchain.drainPayoutsForBlock]
  split
  · exact ⟨_, rfl⟩
  · exact ⟨_, rfl⟩

/-- The tables that a node may have stored, with or without the genesis block in the index, hold
the same blocks. -/
theorem blocks_of_concealed {db db' : Db} (h : db' = db ∨ db.Conceals db') :
    db'.blocks = db.blocks := by
  rcases h with rfl | ⟨t, rfl, -⟩ <;> rfl

theorem Indexes.applied (hx : Indexes core env pot genesis n full)
    (ht : Tracks core env pot genesis n full) (hm : n.Mirrors full) (hi : genesis.index = 0)
    (hfits : b.Fits) (hup : n.chain.updateState core (ambient.clock 0) b = .ok (some chain))
    (hfull : full'.blocks = full.blocks ++ [b]) :
    Indexes core env pot genesis (persistApplied core ⟨chain, n.db⟩ b) full' := by
  have happended := Blockchain.appended_of_updateState hup
  have hindex := happended.index
  have hlen := ht.getHeight
  have hne : chain.blocks ≠ [] := by simp [happended.blocks]
  have hgrow : Grows core n.chain [b] chain := .cons ⟨_, hup⟩ (.nil _)
  obtain ⟨hbelow, hsettled⟩ := hgrow.settled hx.settled
  have hpayouts : HashTable.getD chain.settledPayoutsByBlock b.index [] =
      n.chain.maturingPayouts core n.chain.blockHashAt b.index := by
    rw [hsettled, if_pos hindex.ge, paidAlong, if_pos rfl]
  have hpos : b.index ≠ 0 := by
    have := ht.pruned.offset_lt
    omega
  obtain ⟨checkpoints, hdb⟩ := persistApplied_db core ⟨chain, n.db⟩ b
  rw [hpayouts] at hdb
  refine ⟨?_, (hbelow.erase _).prune hne, ?_⟩
  · rw [hdb]
    exact IndexContent.savePayouts (hx.content.indexTransactions hfits.index) hfits.index _
  · obtain ⟨db, hmaintained, hdbs⟩ := hx.maintained
    have hnext : ∀ i b', db.blocks.get i = some b' → i < b.index := by
      intro i b' hb'
      rw [← blocks_of_concealed hdbs, hm i] at hb'
      have := (List.getElem?_eq_some_iff.mp hb').1
      omega
    have hstep := hmaintained.step (@Writes.saveAppliedBlock core _ b chain.pendingTickets
      (n.chain.maturingPayouts core n.chain.blockHashAt b.index) hnext hfits.index)
    have htickets : (persistApplied core ⟨chain, n.db⟩ b).chain.pendingTickets =
        chain.pendingTickets := by
      show (Blockchain.pruneToWindow _).pendingTickets = _
      rw [Blockchain.pruneToWindow_toDerivedState]
    rw [htickets, ht.paidOn_applied hi hup hfull]
    refine ⟨_, maintained_withCheckpoints hstep checkpoints, ?_⟩
    rw [hdb]
    rcases hdbs with heq | hconceals
    · exact .inl (by rw [heq])
    · exact .inr ((hconceals.saveAppliedBlock _ _ hpos hfits.index).withCheckpoints _)

/-- The blocks of a fork are numbered from the ancestor on. -/
theorem Tracks.fork_indices (ht' : Tracks core env pot genesis n' full') (hi : genesis.index = 0)
    {fork : List Block} {ancestor : ℕ} (ha : ancestor < full.blocks.length)
    (hfull : full'.blocks = full.blocks.take (ancestor + 1) ++ fork) :
    (fork.map fun b => b.index) = List.range' (ancestor + 1) fork.length := by
  have htake : (full.blocks.take (ancestor + 1)).length = ancestor + 1 := by
    rw [List.length_take]
    omega
  apply List.ext_getElem?
  intro j
  rw [List.getElem?_map]
  by_cases hj : j < fork.length
  · have hx := List.getElem?_eq_getElem hj
    have hfork : full'.blocks[ancestor + 1 + j]? = some fork[j] := by
      rw [hfull, List.getElem?_append_right (by omega), htake, Nat.add_sub_cancel_left, hx]
    rw [hx, Option.map_some, ht'.index hi hfork, List.getElem?_range' hj, Nat.one_mul]
  · rw [List.getElem?_eq_none (Nat.not_lt.mp hj), List.getElem?_eq_none (by simpa using hj)]
    rfl

/-- The displaced blocks of a fork from inside the window are those stored above its ancestor. -/
theorem Mirrors.loadBlocksFrom_splice (hm : n.Mirrors full)
    (ht : Tracks core env pot genesis n full) {old fork new : List Block} {ancestor : ℕ}
    (hsplice : n.chain.splice fork ancestor = .ok (new, old)) (hne : old ≠ []) :
    old = n.db.loadBlocksFrom (ancestor + 1) := by
  have hload : n.db.loadBlocksFrom (ancestor + 1) = full.blocks.drop (ancestor + 1) :=
    OrderedTable.rangeFrom_eq_drop hm _
  rcases Blockchain.splice_eq_ok.mp hsplice with ⟨ho, -, -, rfl⟩ | ⟨-, -, rfl⟩
  · rw [hload, ht.pruned.blocks, List.drop_drop]
    congr 1
    omega
  · exact absurd rfl hne

theorem drainPayouts_pendingTickets (c : Blockchain) (bs : List Block) :
    (c.drainPayouts bs).2.pendingTickets = c.pendingTickets := by
  obtain ⟨payouts, h⟩ := drainPayouts_eq c bs
  rw [h]

theorem drainPayouts_blocks (c : Blockchain) (bs : List Block) :
    (c.drainPayouts bs).2.blocks = c.blocks := by
  obtain ⟨payouts, h⟩ := drainPayouts_eq c bs
  rw [h]

/-- A reorganization that displaces stored blocks takes their entries out of the index, and enters
those of the fork. -/
theorem Indexes.displaced (hx : Indexes core env pot genesis n full)
    (ht : Tracks core env pot genesis n full) (hm : n.Mirrors full)
    (ht' : Tracks core env pot genesis n' full') (hi : genesis.index = 0)
    {fork new old : List Block} {first : Block} {ancestor : ℕ}
    (hsplice : n.chain.splice fork ancestor = .ok (new, first :: old))
    (hfull : full'.blocks = full.blocks.take (ancestor + 1) ++ fork) (hne : chain.blocks ≠ [])
    (hbelow : chain.SettledBelow) (hsettled : ∀ i,
      HashTable.getD chain.settledPayoutsByBlock i [] = paidOn core env pot genesis full' i) :
    Indexes core env pot genesis (persistReorged core ⟨chain, n.db⟩ (first :: old) fork) full' := by
  have ha := ht.ancestor_lt hsplice
  have hindices := ht'.fork_indices hi ha hfull
  have hlen : full'.blocks.length = ancestor + 1 + fork.length := by
    rw [hfull, List.length_append, List.length_take]
    omega
  have hle := ht'.length_le
  have hload := hm.loadBlocksFrom_splice ht hsplice (List.cons_ne_nil _ _)
  have hfork : ∀ b ∈ fork, b.index ≠ 0 ∧ b.index < 2 ^ 64 := by
    intro b hb
    have := List.mem_range'_1.mp (hindices ▸ List.mem_map_of_mem hb)
    omega
  have hdb : (persistReorged core ⟨chain, n.db⟩ (first :: old) fork).db =
      (n.db.deleteCheckpointsFrom first.index).applyReorgIncremental core (first :: old) fork
        chain.pendingTickets (chain.drainPayouts fork).1 := by
    rw [← drainPayouts_pendingTickets chain fork]
    rfl
  have hchain : (persistReorged core ⟨chain, n.db⟩ (first :: old) fork).chain =
      (chain.drainPayouts fork).2.pruneToWindow := rfl
  have hpaid : (fun i => if i < ancestor + 1 then paidOn core env pot genesis full i
      else if i < ancestor + 1 + fork.length then HashTable.getD (chain.drainPayouts fork).1 i []
      else []) = paidOn core env pot genesis full' := by
    funext i
    rw [ht.paidOn_reorged ht' hi ha hfull i]
    split
    · rfl
    · split
      · rw [Blockchain.getD_drainPayouts, if_pos, hsettled]
        rw [hindices, List.mem_range'_1]
        omega
      · rfl
  obtain ⟨db, hmaintained, hdbs⟩ := hx.maintained
  have hloaded : (db.deleteCheckpointsFrom first.index).loadBlocksFrom (ancestor + 1) =
      first :: old := by
    rw [hload, Db.loadBlocksFrom, Db.loadBlocksFrom, blocks_of_concealed hdbs]
    rfl
  have hdeleted : Indexed.Maintained core ⟨db.deleteCheckpointsFrom first.index,
      paidOn core env pot genesis full, n.chain.pendingTickets⟩ :=
    maintained_withCheckpoints hmaintained _
  have hstep := hdeleted.step (@Writes.applyReorgIncremental core _ (ancestor + 1) fork
    chain.pendingTickets (chain.drainPayouts fork).1 hindices (by omega))
  simp only [hloaded, hpaid] at hstep
  refine ⟨?_, ?_, ?_⟩
  · have hcontent := IndexContent.step (@Writes.applyReorgIncremental core
      ⟨n.db.deleteCheckpointsFrom first.index, paidOn core env pot genesis full, []⟩ (ancestor + 1)
      fork chain.pendingTickets (chain.drainPayouts fork).1 hindices (by omega)) hx.content
    rw [show (n.db.deleteCheckpointsFrom first.index).loadBlocksFrom (ancestor + 1) =
      first :: old from hload.symm] at hcontent
    rwa [hdb]
  · rw [hchain]
    exact (hbelow.drainPayouts fork).prune (by rwa [drainPayouts_blocks])
  · rw [hchain, Blockchain.pruneToWindow_toDerivedState, drainPayouts_pendingTickets, hdb]
    refine ⟨_, hstep, ?_⟩
    rcases hdbs with heq | hconceals
    · exact .inl (by rw [heq])
    · exact .inr ((hconceals.deleteCheckpointsFrom _).applyReorgIncremental _ _ _ hfork)

/-- A rebuild makes an index of keys of addresses, when blocks and payouts have indices of 64
bits. -/
theorem content_of_rebuild {db : Db} {payoutsByBlock : HashTable ℕ (List Payout)}
    (hblocks : ∀ b ∈ db.loadCanonicalChain, b.index < 2 ^ 64)
    (hpayouts : ∀ i ps, payoutsByBlock.lookup i = some ps → ps ≠ [] → i < 2 ^ 64)
    (tickets : List LootTicket) :
    IndexContent core (db.rebuildIndicesWithTickets core tickets payoutsByBlock).txIndex := by
  have htransactions : ∀ (bs : List Block) (t : OrderedTable Bytes TxValue),
      (∀ b ∈ bs, b.index < 2 ^ 64) → IndexContent core t →
      IndexContent core (bs.foldl (indexTransactions core) t) := by
    intro bs
    induction bs with
    | nil => exact fun _ _ h => h
    | cons b bs ih =>
      exact fun t hlt h => ih _ (fun b' hb' => hlt b' (List.mem_cons_of_mem _ hb'))
        (h.indexTransactions (hlt b List.mem_cons_self))
  have hsaved : ∀ (l : List (Σ _ : ℕ, List Payout)) (db : Db),
      (∀ e ∈ l, e.2 ≠ [] → e.1 < 2 ^ 64) → IndexContent core db.txIndex →
      IndexContent core (l.foldl (fun db e => Db.savePayouts core db e.1 e.2) db).txIndex := by
    intro l
    induction l with
    | nil => exact fun _ _ h => h
    | cons e l ih =>
      intro db hlt h
      refine ih _ (fun e' he' => hlt e' (List.mem_cons_of_mem _ he')) ?_
      show IndexContent core (Db.savePayouts core db e.1 e.2).txIndex
      by_cases hnil : e.2 = []
      · rw [hnil]
        exact h
      · exact h.savePayouts (hlt e List.mem_cons_self hnil) e.2
  exact hsaved payoutsByBlock.entries _
    (fun e he => hpayouts e.1 e.2 (HashTable.mem_entries.mp he))
    (htransactions db.loadCanonicalChain .empty hblocks .empty)

/-- A rebuild of the indices of the whole chain enters the genesis block too. -/
theorem Indexes.rebuilt (ht' : Tracks core env pot genesis n' full') (hm' : n'.Mirrors full')
    (hi : genesis.index = 0) {fork : List Block}
    (hn' : n' = persistReorged core ⟨chain, n.db⟩ [] fork)
    (hsettled : ∀ i, HashTable.getD chain.settledPayoutsByBlock i [] =
      paidOn core env pot genesis full' i) :
    Indexes core env pot genesis n' full' := by
  subst hn'
  set db := fork.foldl Db.saveBlockIndexed (n.db.deleteCheckpointsFrom 0) with hdb
  set paid := paidOn core env pot genesis full' with hpaid
  have hle := ht'.length_le
  have hblocks : ∀ i, db.blocks.get i = full'.blocks[i]? := by
    intro i
    rw [← hm' i]
    exact congrArg (fun t => t.get i) (Db.rebuildIndicesWithTickets_blocks core db
      chain.pendingTickets chain.settledPayoutsByBlock).symm
  have hstored : Indexed.Stored ⟨db, paid, chain.pendingTickets⟩ := by
    constructor
    · intro i b hb
      have hb' := (hblocks i).symm.trans hb
      have := (List.getElem?_eq_some_iff.mp hb').1
      exact ⟨ht'.index hi hb', by omega⟩
    · intro i hnone
      refine ht'.paidOn_eq_nil hi (.inr (List.getElem?_eq_none_iff.mp ?_))
      exact (hblocks i).symm.trans hnone
  have hholds : Lootcoin.Holds chain.settledPayoutsByBlock paid := hsettled
  have hrebuilt : Indexed.Maintained core
      ⟨db.rebuildIndicesWithTickets core chain.pendingTickets chain.settledPayoutsByBlock, paid,
        chain.pendingTickets⟩ := by
    have hsame := Db.rebuildIndicesWithTickets_blocks core db chain.pendingTickets
      chain.settledPayoutsByBlock
    refine ⟨⟨?_, ?_⟩, fun k => ?_, fun i => ?_, rfl⟩
    · rw [hsame]
      exact hstored.blocks
    · rw [hsame]
      exact hstored.paid
    · rw [hsame]
      exact hstored.rebuild_txIndex hholds k
    · exact Indexed.Stored.rebuild_lotteryPayouts (s := ⟨db, paid, chain.pendingTickets⟩) hholds i
  have htickets : (persistReorged core ⟨chain, n.db⟩ [] fork).chain.pendingTickets =
      chain.pendingTickets := by
    show (Blockchain.pruneToWindow _).pendingTickets = _
    rw [Blockchain.pruneToWindow_toDerivedState]
  refine ⟨?_, ?_, ?_⟩
  · refine content_of_rebuild (fun b hb => ?_) (fun i ps hps hne => ?_) _
    · obtain ⟨e, he, rfl⟩ := List.mem_map.mp hb
      have hget := OrderedTable.mem_entries.mp he
      rw [(hstored.blocks _ _ hget).1]
      exact (hstored.blocks _ _ hget).2
    · refine hstored.lt_of_paid (i := i) ?_
      show paid i ≠ []
      rwa [← hholds i, HashTable.getD, hps, Option.getD_some]
  · refine fun i _ => Node.lookup_settled_pruneToWindow ?_
    rfl
  · rw [htickets]
    exact ⟨_, hrebuilt, .inl rfl⟩

/-! ### Runs -/

theorem indexes_fresh (hi : genesis.index = 0) : Indexes core env pot genesis
    (fresh env pot genesis) (freshChain env pot genesis) := by
  have hempty : Indexed.Maintained core ⟨.empty, fun _ => [], []⟩ :=
    ⟨⟨fun _ _ hget => (by cases hget), fun _ _ => rfl⟩, fun _ => rfl, fun _ => rfl, rfl⟩
  have hlt : genesis.index < 2 ^ 64 := by omega
  have hgenesis : Indexed.Maintained core
      (Indexed.extend core ∅ ⟨.empty, fun _ => [], []⟩ genesis) := hempty.extend rfl hlt
  have hpaid : Function.update (fun _ => []) genesis.index [] =
      paidOn core env pot genesis (freshChain env pot genesis) :=
    Function.update_eq_self genesis.index (fun _ => ([] : List Payout))
  refine ⟨.empty, fun _ _ => rfl, Db.insertCanonical core ∅ Db.empty genesis, ?_,
    .inr ⟨.empty, rfl, fun k => ?_⟩⟩
  · rw [← hpaid]
    exact hgenesis
  show none = if keyIndex k = 0 then none
    else (Db.insertCanonical core ∅ Db.empty genesis).txIndex.get k
  split
  · rfl
  · rename_i hk
    -- the genesis block has no entries but those that are concealed
    rw [Db.insertCanonical_txIndex, OrderedTable.get_insertAll_of_notMem]
    · rfl
    · exact fun hmem => hk ((keyIndex_of_mem_blockEntries hlt hmem).trans hi)

/-- A block that is kept as an orphan, or rejected, leaves the indices. -/
theorem Indexes.orphaned (hx : Indexes core env pot genesis n full) (order : PoolOrder) :
    Indexes core env pot genesis ⟨n.chain.admitOrphan order b, n.db⟩ full :=
  ⟨hx.content, hx.settled, hx.maintained⟩

/-- A node that stores its canonical chain and nothing else, with the indices of that chain. -/
structure Explored (core : Core) (env : Option ℚ) (pot : ℕ) (genesis : Block) (n : Node) :
    Prop where
  sound : Sound core n
  chain : ∃ full, Tracks core env pot genesis n full ∧ n.Mirrors full ∧
    Indexes core env pot genesis n full

theorem Explored.step {d : Delivery} (hn : Explored core env pot genesis n) (hi : genesis.index = 0)
    (hpot : pot < 2 ^ 64) (h : n.DeliversReaching core d n') :
    Explored core env pot genesis n' := by
  obtain ⟨⟨⟨hfits, outcome, happ⟩, hrep⟩, hreach⟩ := h
  obtain ⟨hsound, full, ht, hm, hx⟩ := hn
  refine ⟨hsound.step (effect_of_applyBlock happ), ?_⟩
  obtain ⟨chain, hmem, hpersist⟩ := applyBlock_eq_ok.mp happ
  rcases Blockchain.applyInMemory_eq_ok.mp hmem with ⟨rfl, hup⟩ | ⟨rfl, rfl, -, -⟩ |
    ⟨rfl, hadm, hfind⟩ | ⟨old, fork, ancestor, new, rfl, hre⟩
  · obtain ⟨last, hlast, rfl⟩ : ∃ last, chain.blocks.getLast? = some last ∧
        n' = persistApplied core ⟨chain, n.db⟩ last := by simpa using hpersist
    obtain rfl : d.block = last := by
      simpa [(Blockchain.appended_of_updateState hup).blocks] using hlast
    obtain ⟨payouts, hchain⟩ := persistApplied_chain core ⟨chain, n.db⟩ d.block
    have hblocks := persistApplied_blocks core ⟨chain, n.db⟩ d.block
    obtain ⟨full', hfull, -, ht'⟩ := ht.applied hfits hup hchain hblocks
    have hindex : d.block.index = full.blocks.length :=
      (Blockchain.appended_of_updateState hup).index.trans ht.getHeight
    exact ⟨full', ht', hm.applied hfull hindex hblocks, hx.applied ht hm hi hfits hup hfull⟩
  · obtain rfl : n' = n := by simpa using hpersist
    exact ⟨full, ht, hm, hx⟩
  · obtain rfl : n' = ⟨chain, n.db⟩ := by simpa using hpersist
    obtain ⟨-, -, -, rfl⟩ := Blockchain.admits_eq_some.mp hadm
    exact ⟨full, ht.orphaned hfits (.orphaned hadm hfind rfl), hm, hx.orphaned _⟩
  · obtain rfl : n' = persistReorged core ⟨chain, n.db⟩ old fork := by simpa using hpersist
    obtain ⟨payouts, hchain⟩ := persistReorged_chain core ⟨chain, n.db⟩ old fork
    have hblocks := persistReorged_blocks core ⟨chain, n.db⟩ old fork
    obtain ⟨full', hfull, ht'⟩ := ht.reorged hsound hi hpot hfits hre hchain hblocks hrep
    have hm' : (persistReorged core ⟨chain, n.db⟩ old fork).Mirrors full' :=
      (hm.reorged ht ht' hi hre.splice hfull.blocks hblocks).mpr
        (hreach fork ancestor hre.chosenFork)
    obtain ⟨hbelow, hsettled⟩ := ht.settled_rebuilt hsound hi hpot hre hfull
    have hne : chain.blocks ≠ [] := by
      rw [hfull.pruned.blocks, Ne, List.drop_eq_nil_iff, Nat.not_le]
      exact hfull.pruned.offset_lt
    refine ⟨full', ht', hm', ?_⟩
    cases old with
    | nil => exact .rebuilt ht' hm' hi rfl hsettled
    | cons first old =>
      exact hx.displaced ht hm ht' hi hre.splice hfull.blocks hne hbelow hsettled

theorem explored_of_run (hi : genesis.index = 0) (hpot : pot < 2 ^ 64) {ds : List Delivery}
    (run : Runs.Run (DeliversReaching core) (fresh env pot genesis) ds n) :
    Explored core env pot genesis n :=
  run.invariant (fun hstep hn => hn.step hi hpot hstep)
    ⟨sound_fresh hi, _, tracks_fresh hi, mirrors_fresh hi, indexes_fresh hi⟩

end Node

end Lootcoin
