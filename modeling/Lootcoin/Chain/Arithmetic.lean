import Lootcoin.Chain.Supply
import Lootcoin.Chain.Window

/-! The unsigned additions, subtractions, and multiplications that the node evaluates when it
applies a block to its chain, in order: those of `updateState` and, where that refuses the block,
those of the checks on an orphan.  The evictions from the orphan pool compare and count, and
evaluate none.  Operations that saturate or check for themselves are left out, and the operands are
the words that the node has at that point. -/

namespace Lootcoin

open Word (Op)

namespace DerivedState

variable {core : Core} {s : DerivedState} {b : Block}

/-! ### The operations -/

def prevalidateOps (core : Core) (s : DerivedState) : Prevalidation → List Transaction → List Op
  | _, [] => []
  | acc, tx :: txs =>
    match s.prevalidateTransaction core acc tx with
    | none => []
    | some acc' =>
      (if tx.isCoinbase then []
        else [.add 64 (HashTable.getD acc.pendingDebits tx.sender 0) (tx.amount + tx.fee)]) ++
      prevalidateOps core s acc' txs

/-- The supply is summed in 128 bits. -/
def totalSupplyOps (s : DerivedState) : List Op :=
  Word.sumOps 128 0 (HashTable.values s.balances) ++ [.add 128 (HashTable.total s.balances) s.pot]

/-- The draw of a ticket reads the hashes of a reveal from a window that begins at `offset`. -/
def computeTicketRewardOps (offset revealStart : ℕ) : List Op :=
  (List.range revealBlocks).flatMap fun i =>
    .add 64 revealStart i ::
      if revealStart + i < offset then [] else [.sub 64 (revealStart + i) offset]

def settleTicketOps (core : Core) (hashAt : ℕ → Option Bytes) (offset : ℕ) (s : DerivedState)
    (t : LootTicket) : List Op :=
  let payout := min (s.computeTicketReward core hashAt t.createdHeight t).1 s.pot
  computeTicketRewardOps offset t.createdHeight ++
    if 0 < payout then [.sub 64 s.pot payout, .add 64 (s.getBalance t.miner) payout] else []

def settleTicketsOps (core : Core) (hashAt : ℕ → Option Bytes) (offset : ℕ) :
    DerivedState × List Payout → List LootTicket → List Op
  | _, [] => []
  | acc, t :: ts =>
    settleTicketOps core hashAt offset acc.1 t ++
      settleTicketsOps core hashAt offset (settleTicket core hashAt acc t) ts

def applyTransactionOps (s : DerivedState) (tx : Transaction) : List Op :=
  if tx.isCoinbase then [.add 64 (s.getBalance tx.receiver) tx.amount]
  else
    match Word.checkedAdd 64 tx.amount tx.fee with
    | none => []
    | some total =>
      if s.getBalance tx.sender < total then []
      else
        [.sub 64 (s.getBalance tx.sender) total,
          .add 64 (HashTable.getD (s.balances.insert tx.sender (s.getBalance tx.sender - total))
            tx.receiver 0) tx.amount]

def applyTransactionsOps : DerivedState → List Transaction → List Op
  | _, [] => []
  | s, tx :: txs =>
    let s' := s.applyTransaction tx
    applyTransactionOps s tx ++
      if !tx.isCoinbase ∧ tx.signature ∉ s'.confirmedSignatures then []
      else applyTransactionsOps s' txs

def payMinerOps (s : DerivedState) (b : Block) : List Op :=
  match if 0 < minerFeeShare b then extractMinerAddress b else none with
  | none => []
  | some miner => [.add 64 (s.getBalance miner) (minerFeeShare b)]

/-- The ideal time of a block above an anchor. -/
def asertOps (anchor : AsertAnchor) (index : ℕ) : List Op :=
  [.sub 64 index anchor.height,
    .mul 64 (Word.wrappingSub 64 index anchor.height) targetBlockTimeSecs]

def adjustDifficultyOps (s : DerivedState) (b : Block) : List Op :=
  if b.index = 1 then []
  else
    match s.asertAnchor with
    | none => []
    | some anchor =>
      if anchor.difficulty < minDifficulty then [] else asertOps anchor b.index

/-- The supply before, the maturing tickets, the transactions, the miner's fees, the supply after,
and the difficulty. An abort ends the operations. -/
def advanceOps (core : Core) (hashAt : ℕ → Option Bytes) (offset : ℕ) (s : DerivedState)
    (b : Block) : List Op :=
  let settled := (s.settleTickets core hashAt b.index).1
  totalSupplyOps s ++ s.pendingTickets.map (fun t => .add 64 t.createdHeight revealBlocks) ++
    settleTicketsOps core hashAt offset ({ s with pendingTickets := s.stillPending b.index }, [])
      (s.toSettle b.index) ++
    applyTransactionsOps settled b.transactions ++
    match settled.applyTransactions b.transactions with
    | .error _ => []
    | .ok applied =>
      let paid := applied.payMiner b
      payMinerOps applied b ++ totalSupplyOps paid ++ [.add 128 s.totalSupply (minted b)] ++
        if paid.totalSupply ≠ s.totalSupply + minted b then []
        else adjustDifficultyOps ((paid.issueTicket b).accumulateWork) b

/-- The rules on a block that are checked before its transactions. -/
def validFrame (core : Core) (s : DerivedState) (b : Block) : Bool :=
  core.calculateHash b.toHeader == some b.hash &&
  core.meetsDifficulty b.hash s.currentDifficulty &&
  decide (nonCoinbaseCount b ≤ maxBlockTxs) &&
  !(b.transactions.drop 1).any (fun tx => tx.isCoinbase) &&
  validCoinbase core b &&
  core.computeTxRoot b.transactions == some b.txRoot

theorem validBody_eq (core : Core) (s : DerivedState) (b : Block) :
    s.validBody core b = (s.validFrame core b && (s.prevalidate core b.transactions).isSome) := rfl

/-! ### What fits -/

variable {hashAt : ℕ → Option Bytes} {offset : ℕ}

/-- Pre-validation never debits a sender more than it has. -/
theorem prevalidateOps_fit (hs : s.totalSupply < 2 ^ 64) (acc : Prevalidation)
    (txs : List Transaction) : ∀ op ∈ prevalidateOps core s acc txs, op.Fits := by
  induction txs generalizing acc with
  | nil => simp [prevalidateOps]
  | cons tx txs ih =>
    rw [prevalidateOps]
    cases hpre : s.prevalidateTransaction core acc tx with
    | none => simp
    | some acc' =>
      rw [List.forall_mem_append]
      refine ⟨?_, ih acc'⟩
      cases hc : tx.isCoinbase with
      | true => simp
      | false =>
        obtain ⟨-, hfee, -, -, -, -, hcover, -⟩ := (prevalidateTransaction_transfer hc).mp hpre
        have hbound := s.getBalance_add_pot_le tx.sender
        have hmin : minTxFee = 2 := rfl
        simp only [Bool.false_eq_true, if_false, List.forall_mem_singleton, Word.fits_add]
        omega

theorem totalSupplyOps_fit (hs : s.totalSupply < 2 ^ 128) : ∀ op ∈ totalSupplyOps s, op.Fits := by
  rw [totalSupplyOps, List.forall_mem_append]
  constructor
  · apply Word.sumOps_fit
    rw [Nat.zero_add]
    exact Nat.lt_of_le_of_lt (Nat.le_add_right _ s.pot) hs
  · simpa [totalSupply] using hs

theorem computeTicketRewardOps_fit {start : ℕ} (h : start + revealBlocks ≤ 2 ^ 64) :
    ∀ op ∈ computeTicketRewardOps offset start, op.Fits := by
  intro op hop
  obtain ⟨i, hi, hop⟩ := List.mem_flatMap.mp hop
  have hlt := List.mem_range.mp hi
  rcases List.mem_cons.mp hop with rfl | hop
  · rw [Word.fits_add]
    omega
  · split at hop
    · simp at hop
    · obtain rfl := List.mem_singleton.mp hop
      rw [Word.fits_sub]
      omega

/-- A payout is no more than the pot, and pot and balance together no more than the supply. -/
theorem settleTicketOps_fit {t : LootTicket} (hs : s.totalSupply < 2 ^ 64)
    (ht : t.createdHeight + revealBlocks ≤ 2 ^ 64) :
    ∀ op ∈ settleTicketOps core hashAt offset s t, op.Fits := by
  rw [settleTicketOps, List.forall_mem_append]
  refine ⟨computeTicketRewardOps_fit ht, ?_⟩
  have hbound := s.getBalance_add_pot_le t.miner
  split
  · have hle := Nat.min_le_right (s.computeTicketReward core hashAt t.createdHeight t).1 s.pot
    simp only [List.forall_mem_cons, Word.fits_sub, Word.fits_add]
    exact ⟨hle, by omega, by simp⟩
  · simp

theorem settleTicketsOps_fit {ts : List LootTicket} {acc : DerivedState × List Payout}
    (hs : acc.1.totalSupply < 2 ^ 64) (ht : ∀ t ∈ ts, t.createdHeight + revealBlocks ≤ 2 ^ 64) :
    ∀ op ∈ settleTicketsOps core hashAt offset acc ts, op.Fits := by
  induction ts generalizing acc with
  | nil => simp [settleTicketsOps]
  | cons t ts ih =>
    rw [settleTicketsOps, List.forall_mem_append]
    refine ⟨settleTicketOps_fit hs (ht t List.mem_cons_self), ?_⟩
    obtain ⟨ps, -, hledger⟩ := settleTicket_ledger core hashAt acc t hs
    have hsupply := totalSupply_of_ledger hledger
    rw [net_payoutEntries, add_zero, Nat.cast_inj] at hsupply
    exact ih (hsupply ▸ hs) fun u hu => ht u (List.mem_cons_of_mem _ hu)

theorem net_transactions_nonneg (txs : List Transaction) :
    0 ≤ Ledger.net (txs.flatMap transactionEntry) := by
  induction txs with
  | nil => simp
  | cons tx txs ih =>
    rw [List.flatMap_cons, Ledger.net_append]
    cases hc : tx.isCoinbase with
    | true =>
      rw [net_transactionEntry_coinbase hc]
      omega
    | false =>
      rw [net_transactionEntry_transfer hc]
      omega

/-- What a transaction credits, its receiver can hold while the supply fits. -/
theorem applyTransactionOps_fit {tx : Transaction}
    (hs : (s.totalSupply : ℤ) + Ledger.net (transactionEntry tx) < 2 ^ 64) :
    ∀ op ∈ applyTransactionOps s tx, op.Fits := by
  rw [applyTransactionOps]
  cases hc : tx.isCoinbase with
  | true =>
    rw [net_transactionEntry_coinbase hc] at hs
    have hbound := s.getBalance_add_pot_le tx.receiver
    simp only [if_true, List.forall_mem_singleton, Word.fits_add]
    omega
  | false =>
    rw [net_transactionEntry_transfer hc] at hs
    simp only [Bool.false_eq_true, if_false]
    split
    · simp
    · rename_i total htotal
      obtain ⟨-, rfl⟩ := Word.checkedAdd_eq_some.mp htotal
      split
      · simp
      · rename_i hcover
        -- after the debit, the supply has room for what the receiver is credited
        have hdebit := ledger_setBalance s tx.sender (s.getBalance tx.sender - (tx.amount + tx.fee))
        have hsupply := totalSupply_of_ledger hdebit
        have hbound := getBalance_add_pot_le { s with
          balances := s.balances.insert tx.sender (s.getBalance tx.sender - (tx.amount + tx.fee)) }
          tx.receiver
        have hbalance := s.getBalance_add_pot_le tx.sender
        simp only [Ledger.net_cons, Ledger.net_nil, add_zero] at hsupply
        simp only [getBalance] at hbound hsupply hcover hbalance ⊢
        simp only [List.forall_mem_cons, Word.fits_sub, Word.fits_add]
        exact ⟨Nat.not_lt.mp hcover, by omega, by simp⟩

theorem applyTransactions_append {txs txs' : List Transaction} {s' : DerivedState} :
    s.applyTransactions (txs ++ txs') = .ok s' ↔
      ∃ mid, s.applyTransactions txs = .ok mid ∧ mid.applyTransactions txs' = .ok s' := by
  induction txs generalizing s with
  | nil => simp [applyTransactions]
  | cons tx txs ih =>
    rw [List.cons_append, applyTransactions, applyTransactions]
    split
    · simp
    · exact ih

/-- The transactions that are left of a valid block credit nobody more than fits. -/
theorem applyTransactionsOps_fit {start : DerivedState} (hv : start.validBody core b = true)
    (hs : start.totalSupply + 1 < 2 ^ 64) {done rest : List Transaction}
    (hsplit : done ++ rest = b.transactions)
    (hdone : (start.settleTickets core hashAt b.index).1.applyTransactions done = .ok s) :
    ∀ op ∈ applyTransactionsOps s rest, op.Fits := by
  have books : ExactBooks core hashAt start b := exactBooks hv hs
  induction rest generalizing done s with
  | nil => simp [applyTransactionsOps]
  | cons tx rest ih =>
    obtain ⟨s₁, hs₁, hledger, -⟩ := books.transactions done ⟨_, hsplit⟩
    cases hdone.symm.trans hs₁
    have hsupply := totalSupply_of_ledger hledger
    have hsettled : (start.settleTickets core hashAt b.index).1.totalSupply = start.totalSupply :=
      settleTickets_totalSupply hashAt b (Nat.lt_of_succ_lt hs)
    have hnet := net_transactions (validBody_iff.mp hv).2.2.2.1
    have hminted := minted_le_one (validBody_iff.mp hv).2.2.2.2.1
    have hrest := net_transactions_nonneg rest
    rw [← hsplit, List.flatMap_append, List.flatMap_cons, Ledger.net_append, Ledger.net_append]
      at hnet
    rw [applyTransactionsOps, List.forall_mem_append]
    refine ⟨applyTransactionOps_fit (by omega), ?_⟩
    split
    · simp
    · rename_i hgo
      have hnext : (start.settleTickets core hashAt b.index).1.applyTransactions (done ++ [tx]) =
          .ok _ :=
        applyTransactions_append.mpr ⟨s, hdone, by
          rw [applyTransactions, if_neg hgo, applyTransactions]⟩
      exact ih (by simpa using hsplit) hnext

theorem payMinerOps_fit (hfees : exactFees b.transactions ≤ s.pot)
    (hs : s.totalSupply < 2 ^ 64) : ∀ op ∈ payMinerOps s b, op.Fits := by
  have hpaid := (payMiner_ledger hfees hs).1
  rw [payMinerOps]
  split
  · simp
  · rename_i miner _
    have hbound := s.getBalance_add_pot_le miner
    have hshare : minerFeeShare b = exactFees b.transactions / 2 := by rw [minerFeeShare, hpaid]
    simp only [List.forall_mem_singleton, Word.fits_add]
    omega

/-- The ideal time above an anchor at block 1 fits while the product does. -/
theorem asertOps_fit_iff {a : AsertAnchor} {index : ℕ} (ha : a.height = 1) (hi : 1 ≤ index)
    (hlt : index < 2 ^ 64) :
    (∀ op ∈ asertOps a index, op.Fits) ↔ (index - 1) * targetBlockTimeSecs < 2 ^ 64 := by
  simp [asertOps, ha, Word.wrappingSub_of_le hlt hi, hi]

/-- All operations of the application of a valid block fit exactly when the ideal time does. -/
theorem advanceOps_fit_iff {a : AsertAnchor} (hv : s.validBody core b = true)
    (hs : s.totalSupply + 1 < 2 ^ 64) (hanchor : s.asertAnchor = some a) (ha : a.height = 1)
    (hmin : minDifficulty ≤ a.difficulty) (hi : 1 ≤ b.index) (hlt : b.index < 2 ^ 64)
    (htickets : ∀ t ∈ s.pendingTickets, t.createdHeight < b.index) :
    (∀ op ∈ advanceOps core hashAt offset s b, op.Fits) ↔
      (b.index - 1) * targetBlockTimeSecs < 2 ^ 64 := by
  have hrate : targetBlockTimeSecs = 60 := rfl
  have hreveal : revealBlocks = 100 := rfl
  have books : ExactBooks core hashAt s b := exactBooks hv hs
  obtain ⟨applied, happly, hledger, -⟩ := books.transactions _ List.prefix_rfl
  have hsupply : (s.settleTickets core hashAt b.index).1.totalSupply = s.totalSupply :=
    settleTickets_totalSupply hashAt b (Nat.lt_of_succ_lt hs)
  have happlied := totalSupply_of_ledger hledger
  rw [net_transactions (validBody_iff.mp hv).2.2.2.1] at happlied
  have hminted := minted_le_one (validBody_iff.mp hv).2.2.2.2.1
  have hpot := congrFun hledger none
  simp only [ledger, Ledger.post, posted_transactions_pot] at hpot
  have hpaid := totalSupply_of_ledger (books.miner applied happly)
  rw [net_minerEntry, add_zero] at hpaid
  have hbalanced : (applied.payMiner b).totalSupply = s.totalSupply + minted b := by omega
  have hanchor' : (((applied.payMiner b).issueTicket b).accumulateWork).asertAnchor = some a := by
    rw [← hanchor, ← (settleTickets_sameButCoins core hashAt s b.index).asertAnchor,
      ← (applyTransactions_sameButBooks happly).asertAnchor,
      ← (applied.payMiner_sameButCoins b).asertAnchor]
    rfl
  have hadjust : (∀ op ∈ adjustDifficultyOps
      (((applied.payMiner b).issueTicket b).accumulateWork) b, op.Fits) ↔
        (b.index - 1) * targetBlockTimeSecs < 2 ^ 64 := by
    rw [adjustDifficultyOps]
    split
    · rename_i hone
      simp [hone]
    · simp only [hanchor', if_neg (not_lt.mpr hmin)]
      exact asertOps_fit_iff ha hi hlt
  simp only [advanceOps, happly, List.forall_mem_append, ne_eq, hbalanced, not_true_eq_false,
    if_false, hadjust]
  constructor
  · rintro ⟨-, -, hfits⟩
    exact hfits
  · intro hfits
    have hold : ∀ t ∈ s.pendingTickets, t.createdHeight + revealBlocks < 2 ^ 64 := by
      intro t ht
      have := htickets t ht
      rw [hrate] at hfits
      omega
    refine ⟨⟨⟨⟨totalSupplyOps_fit (by omega), ?_⟩, ?_⟩, ?_⟩, ⟨⟨?_, ?_⟩, ?_⟩, hfits⟩
    · rintro op hop
      obtain ⟨t, ht, rfl⟩ := List.mem_map.mp hop
      exact hold t ht
    · refine settleTicketsOps_fit (Nat.lt_of_succ_lt hs) fun t ht => ?_
      exact (hold t (List.mem_filter.mp ht).1).le
    · exact applyTransactionsOps_fit hv hs (List.nil_append _) rfl
    · exact payMinerOps_fit (by omega) (by omega)
    · exact totalSupplyOps_fit (by omega)
    · simp only [List.forall_mem_singleton, Word.fits_add]
      omega

end DerivedState

namespace Blockchain

variable {core : Core} {now : ℕ} {c : Blockchain} {b : Block}

def getHeightOps (c : Blockchain) : List Op := [.add 64 c.blocksOffset c.blocks.length]

/-- Each rule that fails ends the operations. -/
def updateStateOps (core : Core) (now : ℕ) (c : Blockchain) (b : Block) : List Op :=
  getHeightOps c ++
    if c.linksToTip b then
      .add 64 now 120 ::
        if decide (b.timestamp ≤ now + 120) && pastMedian c.blocks b.timestamp &&
            c.validFrame core b then
          c.prevalidateOps core DerivedState.Prevalidation.start b.transactions ++
            if (c.prevalidate core b.transactions).isSome then
              c.advanceOps core c.blockHashAt c.blocksOffset b
            else []
        else []
    else []

def findBlockTimestampOps (c : Blockchain) (hash : Bytes) : List Op :=
  match c.blockHashes.lookup hash with
  | none => []
  | some index => if c.blocksOffset ≤ index then [.sub 64 index c.blocksOffset] else []

def expectedDifficultyForOps (c : Blockchain) (b : Block) : List Op :=
  match c.asertAnchor with
  | none => []
  | some anchor =>
    if anchor.difficulty < minDifficulty then []
    else
      c.findBlockTimestampOps b.previousHash ++
        match c.findBlockTimestamp b.previousHash with
        | none => []
        | some _ =>
          if b.index - 1 < anchor.height then [] else DerivedState.asertOps anchor (b.index - 1)

def validateBlockStandaloneOps (core : Core) (c : Blockchain) (b : Block) : List Op :=
  if core.calculateHash b.toHeader = some b.hash then
    c.expectedDifficultyForOps b ++
      if core.meetsDifficulty b.hash (c.expectedDifficultyFor b) then
        getHeightOps c ++ [.add 64 c.getHeight maxOrphanDepth]
      else []
  else []

/-- The operations on a block: to append it, and to admit it as an orphan where it is refused and
does not follow the tip. -/
def applyInMemoryOps (core : Core) (now : ℕ) (c : Blockchain) (b : Block) : List Op :=
  updateStateOps core now c b ++
    match c.updateState core now b with
    | .ok none =>
      getHeightOps c ++ if c.linksToTip b then [] else c.validateBlockStandaloneOps core b
    | _ => []

/-! ### What fits -/

theorem getHeightOps_fit_iff : (∀ op ∈ getHeightOps c, op.Fits) ↔ c.getHeight < 2 ^ 64 := by
  simp [getHeightOps, getHeight]

theorem findBlockTimestampOps_fit (hash : Bytes) :
    ∀ op ∈ c.findBlockTimestampOps hash, op.Fits := by
  rw [findBlockTimestampOps]
  split
  · simp
  · split
    · rename_i ho
      simpa using ho
    · simp

/-- The words that a block makes the node compute stay in range: the height; for a block that is
appended the ideal time of its height; and for another the ideal time of the height below the one
that it claims, where its predecessor is found, and the depth of the orphan pool, where its work is
enough. -/
structure InRange (core : Core) (now : ℕ) (c : Blockchain) (b : Block) : Prop where
  height : c.getHeight < 2 ^ 64
  appended : c.acceptsBlock core now b = true → (b.index - 1) * targetBlockTimeSecs < 2 ^ 64
  claimed : c.linksToTip b = false → (c.findBlockTimestamp b.previousHash).isSome = true →
    (b.index - 1 - 1) * targetBlockTimeSecs < 2 ^ 64
  depth : c.linksToTip b = false →
    core.meetsDifficulty b.hash (c.expectedDifficultyFor b) = true →
    c.getHeight + maxOrphanDepth < 2 ^ 64

variable {a : AsertAnchor}

theorem expectedDifficultyForOps_fit_iff (hanchor : c.asertAnchor = some a) (ha : a.height = 1)
    (hmin : minDifficulty ≤ a.difficulty) (hlt : b.index < 2 ^ 64) :
    (∀ op ∈ c.expectedDifficultyForOps b, op.Fits) ↔
      ((c.findBlockTimestamp b.previousHash).isSome = true →
        (b.index - 1 - 1) * targetBlockTimeSecs < 2 ^ 64) := by
  simp only [expectedDifficultyForOps, hanchor, if_neg (not_lt.mpr hmin), List.forall_mem_append,
    ha]
  rw [and_iff_right (c.findBlockTimestampOps_fit b.previousHash)]
  split
  · rename_i hnone
    simp [hnone]
  · rename_i timestamp hsome
    simp only [hsome, Option.isSome_some, true_imp_iff]
    split
    · rename_i hlow
      simp [show b.index - 1 - 1 = 0 by omega]
    · exact DerivedState.asertOps_fit_iff ha (by omega) (by omega)

/-- An orphan is refused at once, and then checked on its own. -/
theorem applyInMemoryOps_fit_iff_of_orphan (hanchor : c.asertAnchor = some a) (ha : a.height = 1)
    (hmin : minDifficulty ≤ a.difficulty) (hfits : b.Fits)
    (hhash : core.calculateHash b.toHeader = some b.hash) (hlink : c.linksToTip b = false) :
    (∀ op ∈ applyInMemoryOps core now c b, op.Fits) ↔ InRange core now c b := by
  have hrefused : c.acceptsBlock core now b = false := by simp [acceptsBlock, hlink]
  have hdepth : (∀ op ∈ if core.meetsDifficulty b.hash (c.expectedDifficultyFor b) = true then
        c.getHeightOps ++ [Op.add 64 c.getHeight maxOrphanDepth] else [], op.Fits) ↔
      (core.meetsDifficulty b.hash (c.expectedDifficultyFor b) = true → c.getHeight < 2 ^ 64 ∧
        c.getHeight + maxOrphanDepth < 2 ^ 64) := by
    split
    · rename_i hmeets
      rw [List.forall_mem_append, getHeightOps_fit_iff, List.forall_mem_singleton, Word.fits_add]
      exact ⟨fun h _ => h, fun h => h hmeets⟩
    · rename_i hmeets
      simp [hmeets]
  simp only [applyInMemoryOps, updateStateOps, hlink, Bool.false_eq_true, if_false,
    List.append_nil, updateState_eq_none.mpr hrefused, List.forall_mem_append,
    getHeightOps_fit_iff, validateBlockStandaloneOps, hhash, if_true,
    expectedDifficultyForOps_fit_iff hanchor ha hmin hfits.index, hdepth]
  constructor
  · rintro ⟨hheight, -, hclaim, hdeep⟩
    exact ⟨hheight, by simp [hrefused], fun _ => hclaim, fun _ h => (hdeep h).2⟩
  · intro h
    exact ⟨h.height, h.height, h.claimed hlink, fun hm => ⟨h.height, h.depth hlink hm⟩⟩

/-- A block above the tip that is refused is refused before its application. -/
theorem updateStateOps_fit_of_refused (hs : c.totalSupply + 1 < 2 ^ 64)
    (hheight : c.getHeight < 2 ^ 64) (hnow : now + 120 < 2 ^ 64) (hlink : c.linksToTip b = true)
    (hacc : c.acceptsBlock core now b = false) : ∀ op ∈ updateStateOps core now c b, op.Fits := by
  have hpre : ∀ op ∈ c.prevalidateOps core DerivedState.Prevalidation.start b.transactions,
      op.Fits := DerivedState.prevalidateOps_fit (Nat.lt_of_succ_lt hs) _ _
  simp only [updateStateOps, hlink, if_true, List.forall_mem_append, getHeightOps_fit_iff,
    List.forall_mem_cons, Word.fits_add]
  refine ⟨hheight, hnow, ?_⟩
  split
  · rename_i hframe
    have hbad : (c.prevalidate core b.transactions).isSome = false := by
      simpa only [acceptsBlock, hlink, Bool.true_and, DerivedState.validBody_eq,
        ← Bool.and_assoc, hframe] using hacc
    simpa [List.forall_mem_append, hbad] using hpre
  · simp

/-- A block that is accepted is applied and nothing more. -/
theorem applyInMemoryOps_fit_iff_of_accepted (hs : c.totalSupply + 1 < 2 ^ 64)
    (hanchor : c.asertAnchor = some a) (ha : a.height = 1) (hmin : minDifficulty ≤ a.difficulty)
    (hpos : 0 < c.getHeight) (htickets : ∀ t ∈ c.pendingTickets, t.createdHeight < c.getHeight)
    (hnow : now + 120 < 2 ^ 64) (hfits : b.Fits) (hacc : c.acceptsBlock core now b = true) :
    (∀ op ∈ applyInMemoryOps core now c b, op.Fits) ↔
      (b.index - 1) * targetBlockTimeSecs < 2 ^ 64 := by
  have hpre : ∀ op ∈ c.prevalidateOps core DerivedState.Prevalidation.start b.transactions,
      op.Fits := DerivedState.prevalidateOps_fit (Nat.lt_of_succ_lt hs) _ _
  obtain ⟨hlink, -, -, hv⟩ := acceptsBlock_iff.mp hacc
  have hindex := (linksToTip_iff.mp hlink).1
  have hheight : c.getHeight < 2 ^ 64 := hindex ▸ hfits.index
  have hrules := hacc
  simp only [acceptsBlock, hlink, Bool.true_and, DerivedState.validBody_eq, ← Bool.and_assoc,
    Bool.and_eq_true] at hrules
  obtain ⟨s, payouts, hadv, -⟩ : ∃ s payouts,
      c.advance core c.blockHashAt b = .ok (s, payouts) ∧ _ :=
    DerivedState.advance_exact hv hs
  have hup : c.updateState core now b = .ok (some (c.commitBlock b s payouts)) :=
    updateState_eq_some.mpr ⟨hacc, s, payouts, hadv, rfl⟩
  have hadvance : (∀ op ∈ DerivedState.advanceOps core c.blockHashAt c.blocksOffset
      c.toDerivedState b, op.Fits) ↔ (b.index - 1) * targetBlockTimeSecs < 2 ^ 64 :=
    DerivedState.advanceOps_fit_iff hv hs hanchor ha hmin (by omega) hfits.index
      (by rwa [hindex])
  simp only [applyInMemoryOps, hup, List.append_nil, updateStateOps, hlink, if_true,
    List.forall_mem_append, getHeightOps_fit_iff, List.forall_mem_cons, Word.fits_add,
    hrules.1, hrules.2, Bool.and_self, hadvance]
  exact ⟨fun h => h.2.2.2, fun h => ⟨hheight, hnow, hpre, h⟩⟩

/-- No operation on a block with its hash overflows exactly when what the block makes the node
compute stays in range. -/
theorem applyInMemoryOps_fit_iff (hs : c.totalSupply + 1 < 2 ^ 64)
    (hanchor : c.asertAnchor = some a) (ha : a.height = 1) (hmin : minDifficulty ≤ a.difficulty)
    (hpos : 0 < c.getHeight) (htickets : ∀ t ∈ c.pendingTickets, t.createdHeight < c.getHeight)
    (hnow : now + 120 < 2 ^ 64) (hfits : b.Fits)
    (hhash : core.calculateHash b.toHeader = some b.hash) :
    (∀ op ∈ applyInMemoryOps core now c b, op.Fits) ↔ InRange core now c b := by
  cases hlink : c.linksToTip b with
  | false => exact applyInMemoryOps_fit_iff_of_orphan hanchor ha hmin hfits hhash hlink
  | true =>
    have hheight : c.getHeight < 2 ^ 64 := (linksToTip_iff.mp hlink).1 ▸ hfits.index
    have hrange : InRange core now c b ↔ (c.acceptsBlock core now b = true →
        (b.index - 1) * targetBlockTimeSecs < 2 ^ 64) :=
      ⟨fun h => h.appended, fun h => ⟨hheight, h, by simp [hlink], by simp [hlink]⟩⟩
    rw [hrange]
    cases hacc : c.acceptsBlock core now b with
    | false =>
      have hpart := updateStateOps_fit_of_refused hs hheight hnow hlink hacc
      simp only [applyInMemoryOps, updateState_eq_none.mpr hacc, hlink, if_true, List.append_nil,
        List.forall_mem_append, getHeightOps_fit_iff]
      exact ⟨fun _ => by simp, fun _ => ⟨hpart, hheight⟩⟩
    | true =>
      rw [applyInMemoryOps_fit_iff_of_accepted hs hanchor ha hmin hpos htickets hnow hfits hacc]
      exact ⟨fun h _ => h, fun h => h rfl⟩

end Blockchain

end Lootcoin
