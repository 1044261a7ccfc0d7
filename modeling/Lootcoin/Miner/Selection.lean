import Lootcoin.Library.Double
import Lootcoin.Library.Greedy
import Lootcoin.Miner

/-! What the miner leaves behind.  It takes the highest fees of all that it may take, so that no
other choice earns more, and what it leaves waits for a full block of fees as high.  The wallet
tells its user for how many blocks a fee is not eligible, by a division of doubles that agrees with
the miner's. -/

namespace Lootcoin

namespace Miner

variable {entries entries' : List MempoolEntry} {entry : MempoolEntry} {height : ℕ}
  {txs : List Transaction} {tx : Transaction}

/-- What the miner may take: everything if it fits into one block, or else what is eligible. -/
def candidates (entries : List MempoolEntry) (height : ℕ) : List Transaction :=
  if entries.length ≤ maxBlockTxs then entries.map fun e => e.tx
  else (entries.filter fun e => isEligible e height).map fun e => e.tx

theorem pairwise_sortByFee (txs : List Transaction) :
    (sortByFee txs).Pairwise fun a b => b.fee ≤ a.fee :=
  haveI : Std.Total fun a b : Transaction => b.fee ≤ a.fee := ⟨fun a b => Nat.le_total b.fee a.fee⟩
  haveI : IsTrans Transaction fun a b => b.fee ≤ a.fee := ⟨fun _ _ _ hab hbc => hbc.trans hab⟩
  List.pairwise_insertionSort _ txs

theorem selectTransactions_eq (entries : List MempoolEntry) (height : ℕ) :
    selectTransactions entries height =
      (sortByFee (candidates entries height)).take maxBlockTxs := by
  unfold selectTransactions candidates
  split
  · rename_i hfits
    rw [List.take_of_length_le]
    rwa [(sortByFee_perm _).length_eq, List.length_map]
  · rfl

def feesOf (txs : List Transaction) : ℕ := (txs.map fun tx => tx.fee).sum

/-- No choice of candidates that fits into a block earns more. -/
theorem feesOf_le_selected (hsub : txs.Subperm (candidates entries height))
    (hlength : txs.length ≤ maxBlockTxs) :
    feesOf txs ≤ feesOf (selectTransactions entries height) := by
  rw [selectTransactions_eq]
  exact Greedy.sum_le_sum_take (pairwise_sortByFee _)
    (hsub.trans (sortByFee_perm _).symm.subperm) hlength

/-- A candidate that is left is left for a full block of fees as high. -/
theorem left_behind (htx : tx ∈ candidates entries height)
    (hleft : tx ∉ selectTransactions entries height) :
    (selectTransactions entries height).length = maxBlockTxs ∧
      ∀ other ∈ selectTransactions entries height, tx.fee ≤ other.fee := by
  rw [selectTransactions_eq] at hleft ⊢
  have hmem := (sortByFee_perm _).mem_iff.mpr htx
  exact ⟨Greedy.length_take_of_notMem hmem hleft, fun other hother =>
    Greedy.le_of_notMem_take (pairwise_sortByFee _) hmem hleft hother⟩

theorem mem_candidates (hmem : entry ∈ entries) (heligible : isEligible entry height = true) :
    entry.tx ∈ candidates entries height := by
  unfold candidates
  split
  · exact List.mem_map_of_mem hmem
  · exact List.mem_map_of_mem (List.mem_filter.mpr ⟨hmem, heligible⟩)

theorem candidates_perm (h : entries.Perm entries') (height : ℕ) :
    (candidates entries height).Perm (candidates entries' height) := by
  unfold candidates
  rw [h.length_eq]
  split
  · exact h.map _
  · exact (h.filter _).map _

/-- The miner's selection earns the most of all choices of candidates that fit into a block, and as
much in whatever order the pool is reported. What it leaves of the candidates has a fee no higher
than that of any of a full block. -/
theorem selection_best (entries : List MempoolEntry) (height : ℕ) :
    (selectTransactions entries height).Subperm (candidates entries height) ∧
    (∀ txs, txs.Subperm (candidates entries height) → txs.length ≤ maxBlockTxs →
      feesOf txs ≤ feesOf (selectTransactions entries height)) ∧
    (∀ entries', entries.Perm entries' → feesOf (selectTransactions entries' height) =
      feesOf (selectTransactions entries height)) ∧
    ∀ tx ∈ candidates entries height, tx ∉ selectTransactions entries height →
      (selectTransactions entries height).length = maxBlockTxs ∧
        ∀ other ∈ selectTransactions entries height, tx.fee ≤ other.fee := by
  have hsub : ∀ es : List MempoolEntry,
      (selectTransactions es height).Subperm (candidates es height) := fun es => by
    rw [selectTransactions_eq]
    exact (List.take_sublist _ _).subperm.trans (sortByFee_perm _).subperm
  have hle : ∀ {es es' : List MempoolEntry}, es.Perm es' →
      feesOf (selectTransactions es height) ≤ feesOf (selectTransactions es' height) := fun h =>
    feesOf_le_selected ((hsub _).trans (candidates_perm h height).subperm)
      length_selectTransactions
  exact ⟨hsub entries, fun txs hsub hlength => feesOf_le_selected hsub hlength,
    fun entries' h => Nat.le_antisymm (hle h.symm) (hle h), fun tx htx hleft =>
      left_behind htx hleft⟩

end Miner

/-! ### The wallet's estimate -/

namespace Wallet

/-- For how many blocks a fee is not eligible, or none where it never is. The fee is a double, and
so is the quotient. -/
def feeWaitBlocks (fee : ℚ) : Option ℤ :=
  if fee ≤ 0 then none
  else some (max 0 (⌊Double.nearest ((guaranteeAfter : ℚ) / fee)⌋ - 1))

theorem floor_guaranteeAfter_div {fee : ℕ} (hpos : 0 < fee) :
    ⌊Double.nearest ((guaranteeAfter : ℚ) / Double.nearest fee)⌋ = (guaranteeAfter / fee : ℕ) := by
  rcases le_or_gt fee (2 ^ 53) with hexact | hlarge
  · rw [Double.nearest_natCast hexact, Double.floor_nearest_div (by decide) hpos]
  · -- a fee that is no double any more is far above the bound
    have hfee : (2 : ℚ) ^ 53 < fee := by exact_mod_cast hlarge
    have hhalf := Double.half_le_nearest (q := fee) (by linarith)
    have hdouble : (2 : ℚ) ^ 52 ≤ Double.nearest fee := by linarith
    have hquotient : (guaranteeAfter : ℚ) / Double.nearest fee ≤ 1 / 2 := by
      rw [div_le_div_iff₀ (by linarith) (by norm_num)]
      norm_num [guaranteeAfter]
      linarith
    rw [Double.floor_nearest_of_le_half (div_pos (by norm_num [guaranteeAfter]) (by linarith))
      hquotient, Nat.div_eq_of_lt ((by decide : guaranteeAfter < 2 ^ 53).trans hlarge),
      Nat.cast_zero]

/-- The wallet's estimate is the miner's rule: from the age on that it gives, and not before, a
transaction is eligible. -/
theorem feeWaitBlocks_exact (entry : MempoolEntry) (height : ℕ) :
    Miner.isEligible entry height = true ↔
      ∃ wait, feeWaitBlocks (Double.nearest entry.tx.fee) = some wait ∧
        wait ≤ (height - entry.addedHeight : ℕ) := by
  unfold Miner.isEligible feeWaitBlocks
  rcases Nat.eq_zero_or_pos entry.tx.fee with hzero | hpos
  · rw [hzero, Double.nearest_natCast (Nat.zero_le _)]
    simp
  have hfee : ¬ Double.nearest (entry.tx.fee : ℚ) ≤ 0 := by
    have hfee : (0 : ℚ) < entry.tx.fee := by exact_mod_cast hpos
    have := Double.half_le_nearest hfee
    linarith
  rw [if_neg hpos.ne', if_neg hfee, floor_guaranteeAfter_div hpos, decide_eq_true_eq]
  simp only [Option.some.injEq, exists_eq_left']
  generalize guaranteeAfter / entry.tx.fee = after
  omega

end Wallet

end Lootcoin
