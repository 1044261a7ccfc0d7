import Lootcoin.Chain.State

/-! The lottery: a ticket is drawn from the hashes of `revealBlocks` blocks, beginning with the
block that issued it, and pays a fraction of the pot when the block after the last of them is
applied. -/

namespace Lootcoin

/-- The bytes that are hashed for a draw: the entropy, the height, and the miner of the ticket. -/
def drawData (entropy : Bytes) (ticket : LootTicket) : Bytes :=
  encodeBytes entropy ++ littleEndian 8 ticket.createdHeight ++ encodeBytes (utf8 ticket.miner)

/-- The bucket below `ppm` that the first eight bytes of a digest select. -/
def lootBucketFromDigest (digest : Digest) : ℕ := fromLittleEndian (digest.val.take 8) % ppm

/-- The hashes of the reveal that begins at `revealStart`, in order. A hash that `hashAt` does not
know is left out. -/
def revealEntropy (hashAt : ℕ → Option Bytes) (revealStart : ℕ) : Bytes :=
  (List.range revealBlocks).flatMap fun i => (hashAt (revealStart + i)).getD []

namespace DerivedState

/-- The reward of a ticket, before it is limited to the pot, and its tier. -/
def computeTicketReward (core : Core) (hashAt : ℕ → Option Bytes) (s : DerivedState)
    (revealStart : ℕ) (ticket : LootTicket) : ℕ × Tier :=
  let bucket := lootBucketFromDigest (core.digest (drawData (revealEntropy hashAt revealStart)
    ticket))
  if bucket < smallBucketStart then (0, .none)
  else if bucket < mediumBucketStart then (s.pot / smallDivisor, .small)
  else if bucket < largeBucketStart then (s.pot / mediumDivisor, .medium)
  else if bucket < jackpotBucketStart then (s.pot / largeDivisor, .large)
  else (s.pot / jackpotDivisor, .jackpot)

/-- Pays one ticket out of the pot, adding to the payouts of the block. -/
def settleTicket (core : Core) (hashAt : ℕ → Option Bytes) (acc : DerivedState × List Payout)
    (t : LootTicket) : DerivedState × List Payout :=
  let reward := acc.1.computeTicketReward core hashAt t.createdHeight t
  let payout := min reward.1 acc.1.pot
  if 0 < payout then
    ({ acc.1 with
        pot := acc.1.pot - payout
        balances := HashTable.addAt 64 acc.1.balances t.miner payout },
      acc.2 ++ [⟨t.miner, payout, reward.2⟩])
  else acc

/-- The tickets that the block at `index` settles. -/
def toSettle (s : DerivedState) (index : ℕ) : List LootTicket :=
  s.pendingTickets.filter fun t => t.createdHeight + revealBlocks = index

def stillPending (s : DerivedState) (index : ℕ) : List LootTicket :=
  s.pendingTickets.filter fun t => ¬ t.createdHeight + revealBlocks = index

/-- Settles the maturing tickets, oldest first, and returns the payouts. -/
def settleTickets (core : Core) (hashAt : ℕ → Option Bytes) (s : DerivedState) (index : ℕ) :
    DerivedState × List Payout :=
  (s.toSettle index).foldl (settleTicket core hashAt)
    ({ s with pendingTickets := s.stillPending index }, [])

/-! A settlement moves coins from the pot to balances and touches nothing else. -/

/-- `s'` differs from `s` in its balances and pot at most. -/
structure SameButCoins (s s' : DerivedState) : Prop where
  confirmedSignatures : s'.confirmedSignatures = s.confirmedSignatures
  pendingTickets : s'.pendingTickets = s.pendingTickets
  currentDifficulty : s'.currentDifficulty = s.currentDifficulty
  asertAnchor : s'.asertAnchor = s.asertAnchor
  chainWork : s'.chainWork = s.chainWork

theorem SameButCoins.refl (s : DerivedState) : SameButCoins s s := ⟨rfl, rfl, rfl, rfl, rfl⟩

theorem SameButCoins.trans {s t u : DerivedState} (h : SameButCoins s t) (h' : SameButCoins t u) :
    SameButCoins s u :=
  ⟨h'.1.trans h.1, h'.2.trans h.2, h'.3.trans h.3, h'.4.trans h.4, h'.5.trans h.5⟩

theorem settleTicket_sameButCoins (core : Core) (hashAt : ℕ → Option Bytes)
    (acc : DerivedState × List Payout) (t : LootTicket) :
    SameButCoins acc.1 (settleTicket core hashAt acc t).1 := by
  simp only [settleTicket]
  split
  · exact ⟨rfl, rfl, rfl, rfl, rfl⟩
  · exact .refl _

theorem foldl_settleTicket_sameButCoins (core : Core) (hashAt : ℕ → Option Bytes)
    (ts : List LootTicket) (acc : DerivedState × List Payout) :
    SameButCoins acc.1 (ts.foldl (settleTicket core hashAt) acc).1 := by
  induction ts generalizing acc with
  | nil => exact .refl _
  | cons t ts ih => exact (settleTicket_sameButCoins core hashAt acc t).trans (ih _)

theorem settleTickets_sameButCoins (core : Core) (hashAt : ℕ → Option Bytes) (s : DerivedState)
    (index : ℕ) : SameButCoins { s with pendingTickets := s.stillPending index }
      (s.settleTickets core hashAt index).1 :=
  foldl_settleTicket_sameButCoins core hashAt _
    ({ s with pendingTickets := s.stillPending index }, [])

/-! A settlement reads the window only through the draws of the maturing tickets. -/

/-- Two windows give the tickets in `ts` the same draws, whatever the pot. -/
def SameDraws (core : Core) (hashAt hashAt' : ℕ → Option Bytes) (ts : List LootTicket) : Prop :=
  ∀ t ∈ ts, ∀ s : DerivedState, s.computeTicketReward core hashAt t.createdHeight t =
    s.computeTicketReward core hashAt' t.createdHeight t

theorem sameDraws_of_revealEntropy {core : Core} {hashAt hashAt' : ℕ → Option Bytes}
    {ts : List LootTicket}
    (h : ∀ t ∈ ts, revealEntropy hashAt t.createdHeight = revealEntropy hashAt' t.createdHeight) :
    SameDraws core hashAt hashAt' ts := by
  intro t ht s
  unfold computeTicketReward
  rw [h t ht]

theorem foldl_settleTicket_congr {core : Core} {hashAt hashAt' : ℕ → Option Bytes}
    {ts : List LootTicket} (h : SameDraws core hashAt hashAt' ts)
    (acc : DerivedState × List Payout) :
    ts.foldl (settleTicket core hashAt) acc = ts.foldl (settleTicket core hashAt') acc := by
  induction ts generalizing acc with
  | nil => rfl
  | cons t ts ih =>
    have hstep : settleTicket core hashAt acc t = settleTicket core hashAt' acc t := by
      unfold settleTicket
      rw [h t List.mem_cons_self acc.1]
    rw [List.foldl_cons, List.foldl_cons, hstep]
    exact ih (fun u hu => h u (List.mem_cons_of_mem _ hu)) _

theorem settleTickets_congr {core : Core} {hashAt hashAt' : ℕ → Option Bytes} {s : DerivedState}
    {index : ℕ} (h : SameDraws core hashAt hashAt' (s.toSettle index)) :
    s.settleTickets core hashAt index = s.settleTickets core hashAt' index :=
  foldl_settleTicket_congr h _

end DerivedState

end Lootcoin
