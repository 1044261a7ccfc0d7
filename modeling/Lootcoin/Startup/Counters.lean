import Lootcoin.Node.Confirmed
import Lootcoin.Startup.Reorg

/-! The counters of the metrics.  A start seeds them from the stored blocks and payouts, and every
applied block adds to them what it stores.  A reorganization replays the whole chain, so it counts
everything again: the counters are those of a restart as long as there is none. -/

namespace Lootcoin

namespace Metrics

def new : Metrics := ⟨fun _ => 0, fun _ => 0, 0, 0, 0, 0⟩

/-- Restores the counters of fees and blocks, without the wrap of their 64 bits. -/
def seedFees (m : Metrics) (totalFees minerShare blocks : ℕ) : Metrics :=
  { m with
    feesCollectedTotal := m.feesCollectedTotal + totalFees
    feesToMinersTotal := m.feesToMinersTotal + minerShare
    feesToPotTotal := m.feesToPotTotal + (totalFees - minerShare)
    blocksTotal := m.blocksTotal + blocks }

/-- Restores the counters of one tier. -/
def seedLottery (m : Metrics) (tier : Tier) (wins coins : ℕ) : Metrics :=
  { m with
    lotteryWinsTotal := Function.update m.lotteryWinsTotal tier (m.lotteryWinsTotal tier + wins)
    lotteryPayoutsCoinsTotal := Function.update m.lotteryPayoutsCoinsTotal tier
      (m.lotteryPayoutsCoinsTotal tier + coins) }

end Metrics

namespace Db

/-- The fees of the transfers of a block. -/
def feesOf (b : Block) : List ℕ :=
  (b.transactions.filter fun tx => !tx.isCoinbase).map fun tx => tx.fee

/-- The totals of the fees and of the shares of the miners over all stored blocks. -/
def scanFeeTotals (db : Db) : ℕ × ℕ :=
  db.blocks.values.foldl (fun totals b =>
    let blockFees := (feesOf b).foldl (Word.wrappingAdd 64) 0
    (Word.saturatingAdd 64 totals.1 blockFees, Word.saturatingAdd 64 totals.2 (blockFees / 2)))
    (0, 0)

/-- Adds a payout to the wins and coins of its tier. -/
def addPayout (totals : HashTable Tier (ℕ × ℕ)) (p : Payout) : HashTable Tier (ℕ × ℕ) :=
  let e := HashTable.getD totals p.tier (0, 0)
  totals.insert p.tier (e.1 + 1, Word.saturatingAdd 64 e.2 p.amount)

/-- The wins and the coins of each tier over all stored payouts. -/
def scanLotteryPayoutTotals (db : Db) : HashTable Tier (ℕ × ℕ) :=
  db.lotteryPayouts.values.flatten.foldl addPayout ∅

end Db

namespace Node

/-- The counters that a start of the node would seed. -/
def seededMetrics (n : Node) : Metrics :=
  let (totalFees, minerShare) := n.db.scanFeeTotals
  n.db.scanLotteryPayoutTotals.entries.foldl (fun m e => m.seedLottery e.1 e.2.1 e.2.2)
    (Metrics.new.seedFees totalFees minerShare (n.chain.getHeight - 1))

/-- The node with the counters of its start. -/
def attachMetrics (n : Node) : Node :=
  { n with chain := { n.chain with metrics := some n.seededMetrics } }

/-- The counters are those that a restart would seed. -/
def Counted (n : Node) : Prop := n.chain.metrics = some n.seededMetrics

end Node

/-! ### The totals -/

namespace Db

/-- What has been stored, as it is. -/
def storedFees (db : Db) : ℕ := (db.blocks.values.map fun b => (feesOf b).sum).sum

def storedShares (db : Db) : ℕ := (db.blocks.values.map fun b => (feesOf b).sum / 2).sum

def winsOf (tier : Tier) (ps : List Payout) : ℕ := ps.countP fun p => p.tier = tier

def coinsOf (tier : Tier) (ps : List Payout) : ℕ :=
  ((ps.filter fun p => p.tier = tier).map fun p => p.amount).sum

def storedPayouts (db : Db) : List Payout := db.lotteryPayouts.values.flatten

variable {db : Db}

theorem foldl_wrappingAdd {l : List ℕ} {a : ℕ} (h : a + l.sum < 2 ^ 64) :
    l.foldl (Word.wrappingAdd 64) a = a + l.sum := by
  induction l generalizing a with
  | nil => rfl
  | cons x l ih =>
    rw [List.sum_cons] at h
    rw [List.foldl_cons, Word.wrappingAdd_of_lt (by omega), ih (by omega), List.sum_cons,
      Nat.add_assoc]

theorem storedShares_le (db : Db) : db.storedShares ≤ db.storedFees :=
  List.sum_le_sum fun _ _ => Nat.div_le_self _ _

/-- While the fees fit in 64 bits, the scan finds their totals. -/
theorem scanFeeTotals_eq (h : db.storedFees < 2 ^ 64) :
    db.scanFeeTotals = (db.storedFees, db.storedShares) := by
  have hfold : ∀ (bs : List Block) (fees shares : ℕ), shares ≤ fees →
      fees + (bs.map fun b => (feesOf b).sum).sum < 2 ^ 64 →
      bs.foldl (fun totals b =>
        let blockFees := (feesOf b).foldl (Word.wrappingAdd 64) 0
        (Word.saturatingAdd 64 totals.1 blockFees, Word.saturatingAdd 64 totals.2 (blockFees / 2)))
        (fees, shares) = (fees + (bs.map fun b => (feesOf b).sum).sum,
          shares + (bs.map fun b => (feesOf b).sum / 2).sum) := by
    intro bs
    induction bs with
    | nil => exact fun _ _ _ _ => rfl
    | cons b bs ih =>
      intro fees shares hle hfits
      rw [List.map_cons, List.sum_cons] at hfits
      have hblock : (feesOf b).foldl (Word.wrappingAdd 64) 0 = (feesOf b).sum := by
        rw [foldl_wrappingAdd (by omega), Nat.zero_add]
      have hhalf := Nat.div_le_self (feesOf b).sum 2
      rw [List.foldl_cons]
      simp only [hblock]
      rw [Word.saturatingAdd_of_lt (by omega), Word.saturatingAdd_of_lt (by omega),
        ih _ _ (by omega) (by omega)]
      simp only [List.map_cons, List.sum_cons, Nat.add_assoc]
  have hall := hfold db.blocks.values 0 0 (Nat.le_refl _) (by simpa [storedFees] using h)
  rwa [Nat.zero_add, Nat.zero_add] at hall

theorem winsOf_cons (tier : Tier) (p : Payout) (ps : List Payout) :
    winsOf tier (p :: ps) = (if p.tier = tier then 1 else 0) + winsOf tier ps := by
  simp [winsOf, List.countP_cons, Nat.add_comm]

theorem coinsOf_cons (tier : Tier) (p : Payout) (ps : List Payout) :
    coinsOf tier (p :: ps) = (if p.tier = tier then p.amount else 0) + coinsOf tier ps := by
  by_cases hp : p.tier = tier <;> simp [coinsOf, hp]

/-- The scan finds the wins of a tier, and its coins as far as they fit. -/
theorem getD_foldl_addPayout (ps : List Payout) (totals : HashTable Tier (ℕ × ℕ)) (tier : Tier)
    (h : (HashTable.getD totals tier (0, 0)).2 ≤ Word.maxValue 64) :
    HashTable.getD (ps.foldl addPayout totals) tier (0, 0) =
      ((HashTable.getD totals tier (0, 0)).1 + winsOf tier ps,
        min ((HashTable.getD totals tier (0, 0)).2 + coinsOf tier ps) (Word.maxValue 64)) := by
  induction ps generalizing totals with
  | nil => simp [winsOf, coinsOf, Nat.min_eq_left h]
  | cons p ps ih =>
    rw [List.foldl_cons, winsOf_cons, coinsOf_cons]
    by_cases hp : p.tier = tier
    · have hself : HashTable.getD (addPayout totals p) tier (0, 0) =
          ((HashTable.getD totals tier (0, 0)).1 + 1,
            Word.saturatingAdd 64 (HashTable.getD totals tier (0, 0)).2 p.amount) := by
        rw [addPayout, hp, HashTable.getD_insert]
      rw [ih _ (by rw [hself]; exact Nat.min_le_right _ _), hself, if_pos hp, if_pos hp]
      unfold Word.saturatingAdd
      simp only [Prod.mk.injEq]
      omega
    · have hother : HashTable.getD (addPayout totals p) tier (0, 0) =
          HashTable.getD totals tier (0, 0) := HashTable.getD_insert_ne (Ne.symm hp) _ _
      rw [ih _ (by rwa [hother]), hother, if_neg hp, if_neg hp, Nat.zero_add, Nat.zero_add]

theorem getD_scanLotteryPayoutTotals (db : Db) (tier : Tier) :
    HashTable.getD db.scanLotteryPayoutTotals tier (0, 0) =
      (winsOf tier db.storedPayouts, min (coinsOf tier db.storedPayouts) (Word.maxValue 64)) := by
  have hscan := getD_foldl_addPayout db.storedPayouts ∅ tier (Nat.zero_le _)
  have hempty : HashTable.getD (∅ : HashTable Tier (ℕ × ℕ)) tier (0, 0) = (0, 0) := rfl
  rwa [hempty, Nat.zero_add, Nat.zero_add] at hscan

end Db

/-! ### The counters of a start -/

namespace Metrics

theorem update_add (counter : Tier → ℕ) (tier : Tier) (v : ℕ) :
    Function.update counter tier (counter tier + v) =
      fun tier' => counter tier' + if tier = tier' then v else 0 := by
  funext tier'
  by_cases h : tier = tier'
  · simp [h]
  · simp [h, Ne.symm h]

/-- What the counters of the lottery are seeded with adds up over the entries. -/
theorem foldl_seedLottery (l : List (Σ _ : Tier, ℕ × ℕ)) (m : Metrics) :
    l.foldl (fun m e => m.seedLottery e.1 e.2.1 e.2.2) m = { m with
      lotteryWinsTotal := fun tier => m.lotteryWinsTotal tier +
        (l.map fun e => if e.1 = tier then e.2.1 else 0).sum
      lotteryPayoutsCoinsTotal := fun tier => m.lotteryPayoutsCoinsTotal tier +
        (l.map fun e => if e.1 = tier then e.2.2 else 0).sum } := by
  induction l generalizing m with
  | nil => rfl
  | cons e l ih =>
    rw [List.foldl_cons, ih]
    simp only [seedLottery, update_add, List.map_cons, List.sum_cons, Nat.add_assoc]

/-- What the payouts of a block add to the counters adds up. -/
theorem foldl_recordLotteryWin (ps : List Payout) (m : Metrics) :
    ps.foldl recordLotteryWin m = { m with
      lotteryWinsTotal := fun tier => m.lotteryWinsTotal tier + Db.winsOf tier ps
      lotteryPayoutsCoinsTotal := fun tier =>
        m.lotteryPayoutsCoinsTotal tier + Db.coinsOf tier ps } := by
  induction ps generalizing m with
  | nil => rfl
  | cons p ps ih =>
    rw [List.foldl_cons, ih]
    simp only [recordLotteryWin, update_add, Db.winsOf_cons, Db.coinsOf_cons, Nat.add_assoc]

end Metrics

namespace Node

variable {core : Core} {ambient : Ambient} {n n' : Node} {b : Block}

/-- While the totals fit in 64 bits, a start seeds the counters with them. -/
theorem seededMetrics_eq (hfees : n.db.storedFees < 2 ^ 64)
    (hcoins : ∀ tier, Db.coinsOf tier n.db.storedPayouts < 2 ^ 64) : n.seededMetrics =
      { lotteryWinsTotal := fun tier => Db.winsOf tier n.db.storedPayouts
        lotteryPayoutsCoinsTotal := fun tier => Db.coinsOf tier n.db.storedPayouts
        feesCollectedTotal := n.db.storedFees
        feesToMinersTotal := n.db.storedShares
        feesToPotTotal := n.db.storedFees - n.db.storedShares
        blocksTotal := n.chain.getHeight - 1 } := by
  have hlottery : ∀ (f : ℕ × ℕ → ℕ), f (0, 0) = 0 → ∀ tier,
      (n.db.scanLotteryPayoutTotals.entries.map fun e => if e.1 = tier then f e.2 else 0).sum =
        f (Db.winsOf tier n.db.storedPayouts, Db.coinsOf tier n.db.storedPayouts) := by
    intro f hf tier
    have hscan := n.db.getD_scanLotteryPayoutTotals tier
    have hfits : Db.coinsOf tier n.db.storedPayouts ≤ Word.maxValue 64 :=
      Nat.le_sub_one_of_lt (hcoins tier)
    rw [Nat.min_eq_left hfits] at hscan
    rw [← hscan, HashTable.getD]
    refine (HashTable.weigh_single f n.db.scanLotteryPayoutTotals tier).trans ?_
    cases n.db.scanLotteryPayoutTotals.lookup tier with
    | none => exact hf.symm
    | some v => rfl
  rw [seededMetrics, Db.scanFeeTotals_eq hfees]
  simp only [Metrics.foldl_seedLottery, hlottery Prod.fst rfl, hlottery Prod.snd rfl]
  simp [Metrics.new, Metrics.seedFees]

/-! ### An append -/

/-- The chain has a block, and nothing is stored for one that it does not have yet. -/
structure StoresBelow (n : Node) : Prop where
  start : 0 < n.chain.getHeight
  blocks : ∀ i, n.chain.getHeight ≤ i → n.db.blocks.get i = none
  payouts : ∀ i, n.chain.getHeight ≤ i → n.db.lotteryPayouts.get i = none
  settled : ∀ i, n.chain.getHeight ≤ i → n.chain.settledPayoutsByBlock.lookup i = none

/-- What a block that follows the tip may add to the totals fits in 64 bits. -/
def TotalsFit (n : Node) (d : Delivery) : Prop :=
  n.chain.linksToTip d.block = true →
    n.db.storedFees + (Db.feesOf d.block).sum < 2 ^ 64 ∧
    ∀ tier, Db.coinsOf tier n.db.storedPayouts + n.chain.pot < 2 ^ 64

/-- What a node stores of an appended block that settles payouts. -/
structure Stores (n : Node) (b : Block) (payouts : List Payout) (n' : Node) : Prop where
  getHeight : n'.chain.getHeight = n.chain.getHeight + 1
  metrics : n'.chain.metrics = n.chain.metrics.map fun m =>
    (payouts.foldl Metrics.recordLotteryWin m).recordFees (totalBlockFees b.transactions)
      (minerFeeShare b)
  blocks : n'.db.blocks = n.db.blocks.insert b.index b
  lotteryPayouts : n'.db.lotteryPayouts =
    if payouts.isEmpty then n.db.lotteryPayouts else n.db.lotteryPayouts.insert b.index payouts
  settled : ∀ i, n.chain.getHeight + 1 ≤ i →
    n.chain.settledPayoutsByBlock.lookup i = none → n'.chain.settledPayoutsByBlock.lookup i = none

theorem pruneToWindow_metrics (c : Blockchain) : c.pruneToWindow.metrics = c.metrics := by
  unfold Blockchain.pruneToWindow
  split <;> rfl

/-- Pruning takes payouts out, and adds none. -/
theorem lookup_settled_pruneToWindow {c : Blockchain} {i : ℕ}
    (h : c.settledPayoutsByBlock.lookup i = none) :
    c.pruneToWindow.settledPayoutsByBlock.lookup i = none := by
  have herase : ∀ (ks : List ℕ) (t : HashTable ℕ (List Payout)), t.lookup i = none →
      (ks.foldl (fun t k => t.erase k) t).lookup i = none := by
    intro ks
    induction ks with
    | nil => exact fun _ ht => ht
    | cons k ks ih =>
      refine fun t ht => ih _ ?_
      by_cases hk : i = k
      · rw [hk, AList.lookup_erase]
      · rw [AList.lookup_erase_ne hk, ht]
  unfold Blockchain.pruneToWindow
  split
  · exact herase _ _ h
  · exact h

/-- An append adds the payouts of its block, if any. -/
theorem lookup_settled_commitBlock (c : Blockchain) (b : Block) (s : DerivedState)
    (payouts : List Payout) (i : ℕ) :
    (c.commitBlock b s payouts).settledPayoutsByBlock.lookup i =
      if i = b.index ∧ payouts ≠ [] then some payouts else c.settledPayoutsByBlock.lookup i := by
  show (if payouts.isEmpty then _ else _ : HashTable ℕ (List Payout)).lookup i = _
  cases payouts with
  | nil => rw [if_pos List.isEmpty_nil, if_neg fun h => h.2 rfl]
  | cons p payouts =>
    by_cases hi : i = b.index
    · rw [if_neg (by simp), if_pos ⟨hi, List.cons_ne_nil _ _⟩, hi, AList.lookup_insert]
    · rw [if_neg (by simp), if_neg fun h => hi h.1, AList.lookup_insert_ne hi]

/-- The node takes out the payouts that the append has added. -/
theorem getD_settled_commitBlock {c : Blockchain}
    (h : c.settledPayoutsByBlock.lookup b.index = none) (s : DerivedState) (payouts : List Payout) :
    HashTable.getD (c.commitBlock b s payouts).settledPayoutsByBlock b.index [] = payouts := by
  rw [HashTable.getD, lookup_settled_commitBlock, h]
  cases payouts with
  | nil => rw [if_neg fun h => h.2 rfl, Option.getD_none]
  | cons p payouts => rw [if_pos ⟨rfl, List.cons_ne_nil _ _⟩, Option.getD_some]

theorem stores_of_applied (hn : n.StoresBelow) {now : ℕ} {chain : Blockchain}
    (hup : n.chain.updateState core now b = .ok (some chain))
    (hstored : n' = persistApplied core ⟨chain, n.db⟩ b) :
    ∃ s payouts, n.chain.advance core n.chain.blockHashAt b = .ok (s, payouts) ∧
      n.Stores b payouts n' := by
  have happended := Blockchain.appended_of_updateState hup
  have hindex := happended.index
  obtain ⟨-, s, payouts, hadv, rfl⟩ := Blockchain.updateState_eq_some.mp hup
  have hdrained := getD_settled_commitBlock (hn.settled _ hindex.ge) s payouts
  refine ⟨s, payouts, hadv, ?_⟩
  subst hstored
  constructor
  case getHeight =>
    have hprune := Blockchain.pruneToWindow_getHeight (c := { n.chain.commitBlock b s payouts with
      settledPayoutsByBlock :=
        (n.chain.commitBlock b s payouts).settledPayoutsByBlock.erase b.index })
      (by simp [happended.blocks])
    exact hprune.trans happended.getHeight
  case metrics => exact pruneToWindow_metrics _
  case blocks => exact persistApplied_blocks core _ b
  case lotteryPayouts =>
    have hdb : (persistApplied core ⟨n.chain.commitBlock b s payouts, n.db⟩ b).db.lotteryPayouts =
        (n.db.saveAppliedBlock core b s.pendingTickets payouts).lotteryPayouts := by
      simp only [persistApplied, Blockchain.drainPayoutsForBlock, hdrained]
      split <;> rfl
    rw [hdb, Db.saveAppliedBlock, Db.savePayouts]
    split <;> rfl
  case settled =>
    intro i hi h
    apply lookup_settled_pruneToWindow
    show ((n.chain.commitBlock b s payouts).settledPayoutsByBlock.erase b.index).lookup i = none
    rw [AList.lookup_erase_ne (by omega), lookup_settled_commitBlock, if_neg (by omega), h]

/-- The payouts of a block come out of the pot. -/
theorem coinsOf_le_pot {s s' : DerivedState} {hashAt : ℕ → Option Bytes} {payouts : List Payout}
    (h : s.advance core hashAt b = .ok (s', payouts)) (tier : Tier) :
    Db.coinsOf tier payouts ≤ s.pot := by
  have hpaid : ∀ (ts : List LootTicket) (acc : DerivedState × List Payout),
      (ts.foldl (DerivedState.settleTicket core hashAt) acc).1.pot +
          ((ts.foldl (DerivedState.settleTicket core hashAt) acc).2.map fun p => p.amount).sum =
        acc.1.pot + (acc.2.map fun p => p.amount).sum := by
    intro ts
    induction ts with
    | nil => exact fun _ => rfl
    | cons t ts ih =>
      intro acc
      rw [List.foldl_cons, ih]
      simp only [DerivedState.settleTicket]
      split
      · rw [List.map_append, List.sum_append]
        simp
        omega
      · rfl
  obtain ⟨-, -, -, -, rfl⟩ := DerivedState.advance_eq_ok.mp h
  have hall := hpaid (s.toSettle b.index) ({ s with pendingTickets := s.stillPending b.index }, [])
  have hpart : Db.coinsOf tier (s.settleTickets core hashAt b.index).2 ≤
      ((s.settleTickets core hashAt b.index).2.map fun p => p.amount).sum :=
    (List.filter_sublist.map _).sum_le_sum fun _ _ => Nat.zero_le _
  rw [DerivedState.settleTickets] at hpart
  simp only [List.map_nil, List.sum_nil, Nat.add_zero] at hall
  rw [DerivedState.settleTickets]
  omega

section Stores

variable {payouts : List Payout}

theorem Stores.storesBelow (hs : n.Stores b payouts n') (hn : n.StoresBelow)
    (hindex : b.index = n.chain.getHeight) : n'.StoresBelow := by
  have hheight := hs.getHeight
  refine ⟨by omega, fun i hi => ?_, fun i hi => ?_, fun i hi => ?_⟩
  · rw [hs.blocks, OrderedTable.get_insert_ne _ _ (by omega), hn.blocks i (by omega)]
  · rw [hs.lotteryPayouts]
    split
    · exact hn.payouts i (by omega)
    · rw [OrderedTable.get_insert_ne _ _ (by omega), hn.payouts i (by omega)]
  · exact hs.settled i (by omega) (hn.settled i (by omega))

theorem Stores.storedFees (hs : n.Stores b payouts n') (hnew : n.db.blocks.get b.index = none) :
    n'.db.storedFees = (Db.feesOf b).sum + n.db.storedFees := by
  rw [Db.storedFees, hs.blocks, ((OrderedTable.perm_values_insert hnew b).map _).sum_eq,
    List.map_cons, List.sum_cons, Db.storedFees]

theorem Stores.storedShares (hs : n.Stores b payouts n') (hnew : n.db.blocks.get b.index = none) :
    n'.db.storedShares = (Db.feesOf b).sum / 2 + n.db.storedShares := by
  rw [Db.storedShares, hs.blocks, ((OrderedTable.perm_values_insert hnew b).map _).sum_eq,
    List.map_cons, List.sum_cons, Db.storedShares]

theorem Stores.storedPayouts (hs : n.Stores b payouts n')
    (hnew : n.db.lotteryPayouts.get b.index = none) :
    n'.db.storedPayouts.Perm (payouts ++ n.db.storedPayouts) := by
  rw [Db.storedPayouts, hs.lotteryPayouts]
  split
  · rename_i hempty
    rw [List.isEmpty_iff.mp hempty]
    exact .refl _
  · exact (OrderedTable.perm_values_insert hnew payouts).flatten

theorem Stores.winsOf (hs : n.Stores b payouts n')
    (hnew : n.db.lotteryPayouts.get b.index = none) (tier : Tier) :
    Db.winsOf tier n'.db.storedPayouts = Db.winsOf tier payouts +
      Db.winsOf tier n.db.storedPayouts := by
  rw [Db.winsOf, (hs.storedPayouts hnew).countP_eq, List.countP_append]
  rfl

theorem Stores.coinsOf (hs : n.Stores b payouts n')
    (hnew : n.db.lotteryPayouts.get b.index = none) (tier : Tier) :
    Db.coinsOf tier n'.db.storedPayouts = Db.coinsOf tier payouts +
      Db.coinsOf tier n.db.storedPayouts := by
  rw [Db.coinsOf, (((hs.storedPayouts hnew).filter _).map _).sum_eq, List.filter_append,
    List.map_append, List.sum_append]
  rfl

/-- An append adds to the counters what it stores. -/
theorem Stores.counted (hs : n.Stores b payouts n') (hn : n.StoresBelow) (hcounted : n.Counted)
    (hindex : b.index = n.chain.getHeight)
    (hfees : n.db.storedFees + (Db.feesOf b).sum < 2 ^ 64)
    (hcoins : ∀ tier, Db.coinsOf tier n.db.storedPayouts + Db.coinsOf tier payouts < 2 ^ 64) :
    n'.Counted := by
  have hblock := hn.blocks b.index hindex.ge
  have hpaid := hn.payouts b.index hindex.ge
  have htotal : totalBlockFees b.transactions = (Db.feesOf b).sum := by
    rw [totalBlockFees, Word.saturatingSum_eq]
    exact Nat.min_eq_left (show (Db.feesOf b).sum ≤ _ from Nat.le_sub_one_of_lt (by omega))
  have hheight := hs.getHeight
  have hstart := hn.start
  have hle := n.db.storedShares_le
  have hhalf := Nat.div_le_self (Db.feesOf b).sum 2
  rw [Counted, hs.metrics, hcounted, Option.map_some, Metrics.foldl_recordLotteryWin,
    seededMetrics_eq (by omega) fun tier => by have := hcoins tier; omega,
    seededMetrics_eq (by rw [hs.storedFees hblock]; omega) fun tier => by
      have := hcoins tier
      rw [hs.coinsOf hpaid]
      omega,
    Metrics.recordFees, minerFeeShare, htotal, hs.storedFees hblock, hs.storedShares hblock]
  simp only [hs.winsOf hpaid, hs.coinsOf hpaid, Option.some.injEq, Metrics.mk.injEq]
  refine ⟨funext fun _ => Nat.add_comm _ _, funext fun _ => Nat.add_comm _ _, ?_, ?_, ?_, ?_⟩
  · omega
  · omega
  · omega
  · omega

end Stores

/-! ### Runs -/

/-- The delivery reorganizes nothing, and what it may add to the totals fits. -/
def KeepsCount (core : Core) (n : Node) (d : Delivery) : Prop :=
  n.chain.chosenFork core d.ambient d.block (some n.db.reader) = none ∧ n.TotalsFit d

theorem attachMetrics_counted (n : Node) : n.attachMetrics.Counted := rfl

theorem StoresBelow.attachMetrics (hn : n.StoresBelow) : n.attachMetrics.StoresBelow :=
  ⟨hn.start, hn.blocks, hn.payouts, hn.settled⟩

/-- A node that has just been created has stored its first block only. -/
theorem storesBelow_fresh (env : Option ℚ) (pot : ℕ) {genesis : Block} (hi : genesis.index = 0) :
    (fresh env pot genesis).StoresBelow where
  start := Nat.one_pos
  blocks := fun i (hpos : 1 ≤ i) => by
    show (OrderedTable.insert _ genesis.index genesis).get i = none
    rw [OrderedTable.get_insert_ne _ _ (by omega)]
    rfl
  payouts := fun _ _ => rfl
  settled := fun _ _ => rfl

theorem step_counted {d : Delivery} (hn : n.StoresBelow) (hcounted : n.Counted)
    (hkeeps : n.KeepsCount core d) (h : n.Delivers core d n') :
    n'.StoresBelow ∧ n'.Counted ∧ n.chain.getHeight ≤ n'.chain.getHeight := by
  obtain ⟨-, outcome, happ⟩ := h
  obtain ⟨chain, hmem, hpersist⟩ := applyBlock_eq_ok.mp happ
  rcases Blockchain.applyInMemory_eq_ok.mp hmem with ⟨rfl, hup⟩ | ⟨rfl, rfl, -, -⟩ |
    ⟨rfl, hadm, -⟩ | ⟨old, fork, ancestor, new, rfl, hre⟩
  · obtain ⟨last, hlast, hn'⟩ : ∃ last, chain.blocks.getLast? = some last ∧
        n' = persistApplied core ⟨chain, n.db⟩ last := by simpa using hpersist
    have happended := Blockchain.appended_of_updateState hup
    obtain rfl : d.block = last := by simpa [happended.blocks] using hlast
    obtain ⟨s, payouts, hadv, hs⟩ := stores_of_applied hn hup hn'
    obtain ⟨hfees, hcoins⟩ := hkeeps.2
      (Blockchain.linksToTip_iff.mpr ⟨happended.index, happended.previousHash⟩)
    have hpaid : ∀ tier, Db.coinsOf tier n.db.storedPayouts + Db.coinsOf tier payouts < 2 ^ 64 :=
      fun tier => Nat.lt_of_le_of_lt
        (Nat.add_le_add_left (coinsOf_le_pot hadv tier) _) (hcoins tier)
    exact ⟨hs.storesBelow hn happended.index,
      hs.counted hn hcounted happended.index hfees hpaid, hs.getHeight.ge.trans' (Nat.le_succ _)⟩
  · obtain rfl : n' = n := by simpa using hpersist
    exact ⟨hn, hcounted, Nat.le_refl _⟩
  · obtain rfl : n' = ⟨chain, n.db⟩ := by simpa using hpersist
    obtain ⟨-, -, -, rfl⟩ := Blockchain.admits_eq_some.mp hadm
    exact ⟨⟨hn.start, hn.blocks, hn.payouts, hn.settled⟩, hcounted, Nat.le_refl _⟩
  · cases hkeeps.1.symm.trans hre.chosenFork

/-- An append counts one block. -/
theorem appends_blocksTotal {c c' : Blockchain} (h : Blockchain.Appends core c b c') {m : Metrics}
    (hm : c.metrics = some m) :
    ∃ m', c'.metrics = some m' ∧ m'.blocksTotal = m.blocksTotal + 1 := by
  obtain ⟨now, hup⟩ := h
  obtain ⟨-, s, payouts, -, rfl⟩ := Blockchain.updateState_eq_some.mp hup
  have hmetrics : (c.commitBlock b s payouts).metrics = some
      ((payouts.foldl Metrics.recordLotteryWin m).recordFees (totalBlockFees b.transactions)
        (minerFeeShare b)) := by
    rw [Blockchain.commitBlock, hm, Option.map_some]
  refine ⟨_, hmetrics, ?_⟩
  rw [Metrics.foldl_recordLotteryWin, Metrics.recordFees]

theorem grows_blocksTotal {c c' : Blockchain} {bs : List Block}
    (h : Blockchain.Grows core c bs c') {m : Metrics} (hm : c.metrics = some m) :
    ∃ m', c'.metrics = some m' ∧ m'.blocksTotal = m.blocksTotal + bs.length := by
  induction h generalizing m with
  | nil => exact ⟨m, hm, rfl⟩
  | cons hs _ ih =>
    obtain ⟨m₁, hm₁, hone⟩ := appends_blocksTotal hs hm
    obtain ⟨m', hm', hrest⟩ := ih hm₁
    exact ⟨m', hm', by rw [hrest, hone, List.length_cons]; omega⟩

theorem seededMetrics_blocksTotal (n : Node) :
    n.seededMetrics.blocksTotal = n.chain.getHeight - 1 := by
  simp only [seededMetrics, Metrics.foldl_seedLottery, Metrics.seedFees, Metrics.new, Nat.zero_add]

theorem withHistory_reader_ne_none (db : Db) (new : List Block) :
    Blockchain.withHistory new (some db.reader) ≠ .ok none := by
  cases new with
  | nil => simp [Blockchain.withHistory]
  | cons first new =>
    rw [Blockchain.withHistory]
    split <;> simp [Db.reader]

/-- After a reorganization the blocks on the chain have been counted again. -/
theorem not_counted_of_reorg {d : Delivery} (hcounted : n.Counted) (hheight : 1 < n.chain.getHeight)
    (hfork : n.chain.chosenFork core d.ambient d.block (some n.db.reader) ≠ none)
    (h : n.Delivers core d n') : ¬ n'.Counted := by
  obtain ⟨-, outcome, happ⟩ := h
  cases effect_of_applyBlock happ with
  | applied hup _ _ => exact absurd (Blockchain.chosenFork_of_applied hup) hfork
  | rejected hup hcause _ => exact absurd (Blockchain.chosenFork_of_rejected hup hcause) hfork
  | orphaned hadm hfind _ => exact absurd (Blockchain.chosenFork_of_orphaned hadm hfind) hfork
  | @reorged old fork new ancestor chain payouts hre hchain _ =>
    intro hcounted'
    rcases Blockchain.reorgTo_eq_ok.mp hre.rebuilt with ⟨hnone, -⟩ | ⟨genesis, rest, -, hreplay⟩
    · exact absurd hnone (withHistory_reader_ne_none n.db new)
    obtain ⟨done, -, hgrow⟩ := Blockchain.replay_grows hreplay
    obtain ⟨m, hm, htotal⟩ := grows_blocksTotal hgrow (m := n.seededMetrics) hcounted
    have hheight' : n'.chain.getHeight = 1 + done.length := by
      have hprune := Blockchain.pruneToWindow_getHeight
        (c := { chain with settledPayoutsByBlock := payouts })
        (by simp [hgrow.blocks, Blockchain.reset])
      rw [hchain, hprune]
      exact hgrow.getHeight
    have hmetrics : n'.chain.metrics = some m := by
      rw [hchain, pruneToWindow_metrics]
      exact hm
    have hseeded := n'.seededMetrics_blocksTotal
    rw [Option.some.inj (hcounted'.symm.trans hmetrics), htotal,
      n.seededMetrics_blocksTotal] at hseeded
    omega

/-- From counters that a restart would seed, a run that reorganizes nothing and whose totals fit
leads to such counters again.  Once there is a block above the first, no other run whose totals fit
does so all along. -/
theorem counted_run (hn : n.StoresBelow) (hcounted : n.Counted) (ds : List Delivery) (n' : Node) :
    (Runs.Run (fun n d n' => n.Delivers core d n' ∧ n.KeepsCount core d) n ds n' → n'.Counted) ∧
    (1 < n.chain.getHeight →
      (Runs.Run (fun n d n' => (n.Delivers core d n' ∧ n.TotalsFit d) ∧ n'.Counted) n ds n' ↔
        Runs.Run (fun n d n' => n.Delivers core d n' ∧ n.KeepsCount core d) n ds n')) := by
  constructor
  · intro run
    refine (run.invariant (P := fun n => n.StoresBelow ∧ n.Counted) (fun h hm => ?_)
      ⟨hn, hcounted⟩).2
    obtain ⟨hbelow, hcounted, -⟩ := step_counted hm.1 hm.2 h.2 h.1
    exact ⟨hbelow, hcounted⟩
  · intro hheight
    refine Runs.Run.iff_of_invariant
      (I := fun n => n.StoresBelow ∧ n.Counted ∧ 1 < n.chain.getHeight) ?_ ?_
      ⟨hn, hcounted, hheight⟩
    · rintro m d m' - ⟨hbelow, hcounted, hheight⟩
      constructor
      · rintro ⟨⟨hstep, hfits⟩, hcounted'⟩
        refine ⟨hstep, ?_, hfits⟩
        by_contra hfork
        exact not_counted_of_reorg hcounted hheight hfork hstep hcounted'
      · rintro ⟨hstep, hkeeps⟩
        exact ⟨⟨hstep, hkeeps.2⟩, (step_counted hbelow hcounted hkeeps hstep).2.1⟩
    · rintro m d m' - ⟨hbelow, hcounted, hheight⟩ ⟨⟨hstep, hfits⟩, hcounted'⟩
      by_cases hfork : m.chain.chosenFork core d.ambient d.block (some m.db.reader) = none
      · obtain ⟨hbelow', -, hle⟩ := step_counted hbelow hcounted ⟨hfork, hfits⟩ hstep
        exact ⟨hbelow', hcounted', by omega⟩
      · exact absurd hcounted' (not_counted_of_reorg hcounted hheight hfork hstep)

theorem seededMetrics_congr (hblocks : n'.db.blocks = n.db.blocks)
    (hpayouts : n'.db.lotteryPayouts = n.db.lotteryPayouts)
    (hheight : n'.chain.getHeight = n.chain.getHeight) : n'.seededMetrics = n.seededMetrics := by
  simp only [seededMetrics, Db.scanFeeTotals, Db.scanLotteryPayoutTotals, hblocks, hpayouts,
    hheight]

/-- A restart that comes back at the height, with the payouts that are stored, seeds these
counters. -/
theorem seededMetrics_of_startNode {trusted : List TrustedCheckpoint} {env : Environment}
    {s : Started} (h : startNode core trusted env n.db = .ok s) (hne : n.db.loadCanonicalChain ≠ [])
    (hheight : s.chain.getHeight = n.chain.getHeight)
    (hpayouts : s.db.lotteryPayouts = n.db.lotteryPayouts) :
    s.node.seededMetrics = n.seededMetrics := by
  obtain ⟨s₀, hstart, h⟩ := Fallible.bind_eq_ok.mp h
  cases Fallible.pure_eq_ok.mp h
  have hblocks : (s₀.finish core).db.blocks = n.db.blocks := by
    obtain ⟨tickets, txIndex, lotteryPayouts, hfinish⟩ := Started.finish_eq core s₀
    rw [hfinish]
    cases Started.restores_of_startChain hne hstart with
    | replay _ hdb => rcases hdb with rfl | rfl <;> rfl
    | checkpoint => rfl
  exact seededMetrics_congr hblocks hpayouts hheight

end Node

namespace Sample

instance {p : Tier → Prop} [DecidablePred p] : Decidable (∀ tier, p tier) :=
  decidable_of_iff (p .none ∧ p .small ∧ p .medium ∧ p .large ∧ p .jackpot)
    ⟨fun h tier => by cases tier <;> simp [h], fun h => ⟨h _, h _, h _, h _, h _⟩⟩

instance (n : Node) (d : Node.Delivery) : Decidable (n.TotalsFit d) :=
  inferInstanceAs (Decidable (_ → _))

instance (n : Node) (d : Node.Delivery) : Decidable (n.KeepsCount plainCore d) :=
  inferInstanceAs (Decidable (_ ∧ _))

/-- A block on the one that confirms the payment. -/
def afterPayment : Node.Delivery :=
  ⟨block 2 paymentBlock.hash 1748000120 32, around 1748000160⟩

/-- The counters of a node that confirms the payment, and then gets a block on top. -/
theorem payment_counted : ∃ n n',
    Runs.Run (fun n d n' => n.Delivers plainCore d n' ∧ n.KeepsCount plainCore d)
      node.attachMetrics [paymentDelivery] n ∧ n.Counted ∧
    Runs.Run (fun n d n' => (n.Delivers plainCore d n' ∧ n.TotalsFit d) ∧ n'.Counted) n
      [afterPayment] n' ∧
    (n'.chain.metrics.map fun m => (m.feesCollectedTotal, m.blocksTotal)) = some (10, 2) := by
  have hrun : ((runChecked plainCore (Node.KeepsCount plainCore) node.attachMetrics
      [paymentDelivery]).bind fun n =>
        (runChecked plainCore (Node.KeepsCount plainCore) n [afterPayment]).map fun n' =>
          (n.chain.getHeight,
            n'.chain.metrics.map fun m => (m.feesCollectedTotal, m.blocksTotal))) =
      some (2, some (10, 2)) := by
    decide +kernel
  obtain ⟨n, hn, hrun⟩ := Option.bind_eq_some_iff.mp hrun
  obtain ⟨n', hn', hobs⟩ := Option.map_eq_some_iff.mp hrun
  obtain ⟨hheight, hmetrics⟩ := Prod.mk.inj hobs
  replace hn := run_of_runChecked hn
  have hfresh : node.StoresBelow := Node.storesBelow_fresh none Node.genesisPotAmount rfl
  have hstart := hfresh.attachMetrics
  have hbelow : n.StoresBelow ∧ n.Counted := by
    cases hn with
    | cons h hnil =>
      cases hnil
      obtain ⟨hbelow, hcounted, -⟩ :=
        Node.step_counted hstart (Node.attachMetrics_counted node) h.2 h.1
      exact ⟨hbelow, hcounted⟩
  exact ⟨n, n', hn, (Node.counted_run hstart (Node.attachMetrics_counted node) _ n).1 hn,
    ((Node.counted_run hbelow.1 hbelow.2 _ n').2 (by omega)).mpr (run_of_runChecked hn'), hmetrics⟩

/-- The rival block displaces the only block above the first, and both have been counted. -/
theorem rival_counted_twice : ∃ n,
    Runs.Run (Node.DeliversCompletely plainCore) node.attachMetrics
      [⟨mainBlock, around 1748000160⟩, ⟨rivalBlock, around 1748000160⟩] n ∧
    n.canonicalChain = [genesis, rivalBlock] ∧
    (n.chain.metrics.map fun m => m.blocksTotal) = some 2 ∧ n.seededMetrics.blocksTotal = 1 ∧
    ¬ n.Counted := by
  have hrun : (runCompletely node.attachMetrics [⟨mainBlock, around 1748000160⟩,
      ⟨rivalBlock, around 1748000160⟩]).map (fun n => (n.canonicalChain,
        n.chain.metrics.map fun m => m.blocksTotal, n.seededMetrics.blocksTotal)) =
      some ([genesis, rivalBlock], some 2, 1) := by
    decide +kernel
  obtain ⟨n, hn, hobs⟩ := Option.map_eq_some_iff.mp hrun
  simp only [Prod.mk.injEq] at hobs
  obtain ⟨hchain, hlive, hseeded⟩ := hobs
  refine ⟨n, run_of_runCompletely hn, hchain, hlive, hseeded, fun hcounted => ?_⟩
  rw [hcounted, Option.map_some, hseeded] at hlive
  cases hlive

end Sample

end Lootcoin
