import Lootcoin.Db

/-! The recent payouts.  A query runs through the stored payouts from the last block down and ends
when it has as many as it was asked for, which it looks at only after it has added one.  So it gives
the first of the matching payouts as asked, but at least one of them.  A query of blocks joins them
with their payouts. -/

namespace Lootcoin

def Tier.name : Tier → String
  | .none => "none"
  | .small => "small"
  | .medium => "medium"
  | .large => "large"
  | .jackpot => "jackpot"

/-- What a query of the payouts returns about one. -/
structure PayoutRecord where
  blockIndex : ℕ
  blockTimestamp : Option ℕ
  receiver : Address
  amount : ℕ
  tier : String
  deriving DecidableEq

/-- A payout has the tier that is asked for, if one is. -/
def Payout.matches (p : Payout) (tier : Option String) : Bool := tier.all fun t => t = p.tier.name

namespace Db

/-- The record of a payout of a stored block, or of a block that is not stored. -/
def payoutRecord (db : Db) (blockIndex : ℕ) (p : Payout) : PayoutRecord where
  blockIndex := blockIndex
  blockTimestamp := (db.blocks.get blockIndex).map fun b => b.timestamp
  receiver := p.receiver
  amount := p.amount
  tier := p.tier.name

/-- The loop over the payouts of one block: the results, and whether the loop over the blocks
ends. -/
def collectPayouts (db : Db) (tier : Option String) (limit blockIndex : ℕ) :
    List PayoutRecord → List Payout → List PayoutRecord × Bool
  | results, [] => (results, false)
  | results, p :: payouts =>
    if p.matches tier then
      let results := results ++ [db.payoutRecord blockIndex p]
      if limit ≤ results.length then (results, true)
      else collectPayouts db tier limit blockIndex results payouts
    else collectPayouts db tier limit blockIndex results payouts

/-- The loop over the blocks. -/
def collectBlocks (db : Db) (tier : Option String) (limit : ℕ) :
    List PayoutRecord → List (ℕ × List Payout) → List PayoutRecord
  | results, [] => results
  | results, (blockIndex, payouts) :: entries =>
    match collectPayouts db tier limit blockIndex results payouts with
    | (results, true) => results
    | (results, false) => collectBlocks db tier limit results entries

/-- The most recent payouts, the newest first. -/
def getRecentLotteryPayouts (db : Db) (tier : Option String) (limit : ℕ) : List PayoutRecord :=
  collectBlocks db tier limit [] db.lotteryPayouts.entries.reverse

/-- The matching payouts of one block, in the order in which they are stored. -/
def matchingOf (db : Db) (tier : Option String) (e : ℕ × List Payout) : List PayoutRecord :=
  (e.2.filter fun p => p.matches tier).map (db.payoutRecord e.1)

/-- Every matching payout, by descending block index and by position in the block. -/
def matchingPayouts (db : Db) (tier : Option String) : List PayoutRecord :=
  db.lotteryPayouts.entries.reverse.flatMap (db.matchingOf tier)

end Db

/-- The answer to a request for payouts, ten without a limit and no more than a hundred. -/
def getRecentLotteryPayoutsHandler (db : Db) (tier : Option String) (limit : Option ℕ) :
    List PayoutRecord :=
  db.getRecentLotteryPayouts tier (min (limit.getD 10) 100)

/-! ### Blocks with their payouts -/

/-- What a query of blocks returns about a payout. -/
structure LotteryPayoutView where
  receiver : Address
  amount : ℕ
  deriving DecidableEq

def Payout.view (p : Payout) : LotteryPayoutView := ⟨p.receiver, p.amount⟩

/-- What a query of blocks returns about a block. -/
structure BlockView extends Block where
  lotteryPayouts : List LotteryPayoutView
  deriving DecidableEq

/-- A block with the payouts that it has settled. -/
def Block.view (b : Block) (payouts : List Payout) : BlockView where
  toBlock := b
  lotteryPayouts := payouts.map Payout.view

/-- The stored payouts of the blocks with an index from `start` to before `start + limit`. -/
def Db.getLotteryPayoutsRange (db : Db) (start limit : ℕ) : HashTable ℕ (List Payout) :=
  HashTable.collect (db.lotteryPayouts.entriesBetween start (Word.saturatingAdd 64 start limit))

/-- The answer to a request for blocks, with or without a limit no more than five hundred. -/
def getBlocksHandler (db : Db) (start : ℕ) (limit : Option ℕ) : List BlockView :=
  let limit := min (limit.getD 500) 500
  let blocks := db.getBlocksRange start limit
  let payouts := db.getLotteryPayoutsRange start limit
  blocks.map fun block => block.view ((payouts.lookup block.index).getD [])

namespace Db

variable {db : Db} {tier : Option String} {limit : ℕ}

/-- With room for a result, the loop over one block takes as many as there is room for, where a
limit of zero leaves room for one. -/
theorem collectPayouts_eq (blockIndex : ℕ) {results : List PayoutRecord} {payouts : List Payout}
    (hroom : results.length < max limit 1) :
    collectPayouts db tier limit blockIndex results payouts =
      (results ++ (db.matchingOf tier (blockIndex, payouts)).take (max limit 1 - results.length),
        decide (max limit 1 ≤
          results.length + (db.matchingOf tier (blockIndex, payouts)).length)) := by
  induction payouts generalizing results with
  | nil => simp [collectPayouts, matchingOf, Nat.not_le.mpr hroom]
  | cons p payouts ih =>
    cases hp : p.matches tier with
    | false =>
      have hsame : db.matchingOf tier (blockIndex, p :: payouts) =
          db.matchingOf tier (blockIndex, payouts) := by
        simp [matchingOf, hp]
      rw [collectPayouts, hp, if_neg (by decide), ih hroom, hsame]
    | true =>
      have hnext : db.matchingOf tier (blockIndex, p :: payouts) =
          db.payoutRecord blockIndex p :: db.matchingOf tier (blockIndex, payouts) := by
        simp [matchingOf, hp]
      have htake : max limit 1 - results.length = max limit 1 - (results.length + 1) + 1 := by omega
      rw [collectPayouts, hp, if_pos rfl, hnext, htake, List.take_succ_cons]
      simp only [List.length_append, List.length_cons, List.length_nil, Nat.zero_add]
      split
      · rename_i hfull
        have hzero : max limit 1 - (results.length + 1) = 0 := by omega
        rw [hzero, List.take_zero, decide_eq_true (by omega)]
      · rename_i hopen
        rw [ih (by simp only [List.length_append, List.length_singleton]; omega)]
        simp only [List.length_append, List.length_singleton, List.append_assoc,
          List.singleton_append, Nat.add_assoc, Nat.add_comm]

theorem collectBlocks_eq {results : List PayoutRecord} {entries : List (ℕ × List Payout)}
    (hroom : results.length < max limit 1) :
    collectBlocks db tier limit results entries =
      results ++ (entries.flatMap (db.matchingOf tier)).take (max limit 1 - results.length) := by
  induction entries generalizing results with
  | nil => simp [collectBlocks]
  | cons e entries ih =>
    rw [collectBlocks, collectPayouts_eq e.1 hroom, List.flatMap_cons, List.take_append]
    by_cases hfull : max limit 1 ≤ results.length + (db.matchingOf tier e).length
    · have hzero : max limit 1 - results.length - (db.matchingOf tier e).length = 0 := by omega
      rw [decide_eq_true hfull, hzero, List.take_zero, List.append_nil]
    · have hall : (db.matchingOf tier e).take (max limit 1 - results.length) =
          db.matchingOf tier e := List.take_of_length_le (by omega)
      rw [decide_eq_false hfull, hall]
      simp only
      rw [ih (by rw [List.length_append]; omega), List.length_append, List.append_assoc,
        Nat.sub_add_eq]

/-- A query gives the first of the matching payouts, at least one of them. -/
theorem getRecentLotteryPayouts_eq (db : Db) (tier : Option String) (limit : ℕ) :
    db.getRecentLotteryPayouts tier limit = (db.matchingPayouts tier).take (max limit 1) := by
  rw [getRecentLotteryPayouts, collectBlocks_eq (by simp), List.nil_append, List.length_nil,
    Nat.sub_zero]
  rfl

/-- A query gives as many of the matching payouts as it is asked for, the newest first, exactly when
it is asked for one or more, or there is none. -/
theorem getRecentLotteryPayouts_iff (db : Db) (tier : Option String) (limit : ℕ) :
    db.getRecentLotteryPayouts tier limit = (db.matchingPayouts tier).take limit ↔
      0 < limit ∨ db.matchingPayouts tier = [] := by
  rw [getRecentLotteryPayouts_eq]
  rcases Nat.eq_zero_or_pos limit with rfl | hpos
  · cases db.matchingPayouts tier <;> simp
  · simp [Nat.max_eq_left hpos, hpos]

end Db

namespace Sample

/-- The payouts of two blocks. -/
def paidTwice : Db :=
  { Db.empty with
    lotteryPayouts := (OrderedTable.empty.insert 101 [⟨"miner", 7, .small⟩]).insert 102
      [⟨"other", 400, .large⟩, ⟨"miner", 6, .small⟩] }

/-- A request for none of the payouts is answered with the newest one. -/
theorem paidTwice_answers_one :
    getRecentLotteryPayoutsHandler paidTwice (some "small") (some 0) =
      [⟨102, none, "miner", 6, "small"⟩] ∧
    paidTwice.getRecentLotteryPayouts (some "small") 0 ≠
      (paidTwice.matchingPayouts (some "small")).take 0 := by
  decide +kernel

end Sample

end Lootcoin
