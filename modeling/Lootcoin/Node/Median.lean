import Lootcoin.Library.OrderStatistic
import Lootcoin.Chain.Pruned
import Lootcoin.Sample

/-! The median time past along a chain.  A block that is accepted lies past the median and so takes
the place of no element below it, however many blocks there are and whichever one leaves the
window, so the median of the next block is no less. -/

namespace Lootcoin

/-- The timestamps that the median is taken of, the latest block's first. -/
def recentTimestamps (blocks : List Block) : List ℕ :=
  (blocks.reverse.take mtpWindow).map fun b => b.timestamp

theorem length_recentTimestamps (blocks : List Block) :
    (recentTimestamps blocks).length = min mtpWindow blocks.length := by
  rw [recentTimestamps, List.length_map, List.length_take, List.length_reverse]

theorem medianTimePast_eq_ranked (blocks : List Block) : medianTimePast blocks =
    OrderStatistic.ranked (recentTimestamps blocks) ((recentTimestamps blocks).length / 2) := by
  unfold medianTimePast OrderStatistic.ranked recentTimestamps
  simp only [List.length_insertionSort]

theorem exists_medianTimePast {blocks : List Block} (h : blocks ≠ []) :
    ∃ m, medianTimePast blocks = some m := by
  rw [medianTimePast_eq_ranked]
  apply OrderStatistic.exists_ranked
  have hwindow : mtpWindow = 11 := rfl
  have := List.length_pos_of_ne_nil h
  rw [length_recentTimestamps]
  omega

/-- A new block comes first, and the eleventh timestamp before it, if there is one, is dropped. -/
theorem recentTimestamps_append (blocks : List Block) (b : Block) :
    recentTimestamps (blocks ++ [b]) =
      b.timestamp :: (recentTimestamps blocks).take (mtpWindow - 1) := by
  have htake : ∀ l : List Block, (b :: l).take mtpWindow = b :: l.take (mtpWindow - 1) :=
    fun _ => rfl
  rw [recentTimestamps, List.reverse_append, List.reverse_singleton, List.singleton_append, htake,
    List.map_cons, recentTimestamps, ← List.map_take, List.take_take,
    Nat.min_eq_left (Nat.sub_le _ _)]

/-- A block past the median leaves a median that is no less. -/
theorem medianTimePast_append_le {blocks : List Block} {b : Block} {m m' : ℕ}
    (hm : medianTimePast blocks = some m) (hpast : pastMedian blocks b.timestamp = true)
    (hm' : medianTimePast (blocks ++ [b]) = some m') : m ≤ m' := by
  have hlt : m < b.timestamp := by
    rw [pastMedian, hm] at hpast
    exact of_decide_eq_true hpast
  rw [medianTimePast_eq_ranked] at hm hm'
  have hwindow : mtpWindow = 11 := rfl
  have hlen := length_recentTimestamps blocks
  apply OrderStatistic.ranked_mono hm hm'
  · rw [recentTimestamps_append, List.length_cons, List.length_take]
    omega
  · rw [recentTimestamps_append, List.countP_cons_of_neg (by simpa using hlt.le)]
    exact (List.take_sublist _ _).countP_le

namespace Blockchain

variable {core : Core} {c c' : Blockchain}

/-- A chain appends a block, or drops the blocks that have left its window. -/
inductive AppendsOrPrunes (core : Core) : Blockchain → Option Block → Blockchain → Prop
  | append {c c' : Blockchain} {b : Block} :
      Appends core c b c' → AppendsOrPrunes core c (some b) c'
  | prune (c : Blockchain) : AppendsOrPrunes core c none c.pruneToWindow

theorem medianTimePast_prune (c : Blockchain) :
    medianTimePast c.pruneToWindow.blocks = medianTimePast c.blocks := by
  rw [pruneToWindow_blocks]
  apply medianTimePast_drop
  have hmtp : mtpWindow ≤ reorgWindow := by decide
  rw [List.length_drop]
  unfold excess
  omega

/-- The chain has a median, and it is at least `m`. -/
def MedianAtLeast (m : ℕ) (c : Blockchain) : Prop :=
  c.blocks ≠ [] ∧ ∃ m', medianTimePast c.blocks = some m' ∧ m ≤ m'

theorem MedianAtLeast.step {m : ℕ} {b : Option Block} (hc : c.MedianAtLeast m)
    (h : AppendsOrPrunes core c b c') : c'.MedianAtLeast m := by
  obtain ⟨hne, k, hk, hle⟩ := hc
  cases h with
  | append h =>
    have hblocks := h.appended.blocks
    have hne' : c'.blocks ≠ [] := by simp [hblocks]
    obtain ⟨k', hk'⟩ := exists_medianTimePast hne'
    refine ⟨hne', k', hk', hle.trans ?_⟩
    rw [hblocks] at hk'
    exact medianTimePast_append_le hk h.appended.pastMedian hk'
  | prune =>
    refine ⟨?_, k, (medianTimePast_prune c).trans hk, hle⟩
    rw [pruneToWindow_blocks, Ne, List.drop_eq_nil_iff, Nat.not_le]
    exact excess_lt hne

/-- Along a chain that grows from its genesis block, the median never goes back. -/
theorem medianTimePast_monotone {env : Option ℚ} {pot : ℕ} {genesis : Block}
    {steps later : List (Option Block)}
    (run : Runs.Run (AppendsOrPrunes core) (Node.freshChain env pot genesis) steps c)
    (run' : Runs.Run (AppendsOrPrunes core) c later c') :
    ∃ m m', medianTimePast c.blocks = some m ∧ medianTimePast c'.blocks = some m' ∧ m ≤ m' := by
  have hfresh : (Node.freshChain env pot genesis).blocks ≠ [] := List.cons_ne_nil _ _
  have hzero : (Node.freshChain env pot genesis).MedianAtLeast 0 := by
    obtain ⟨m, hm⟩ := exists_medianTimePast hfresh
    exact ⟨hfresh, m, hm, Nat.zero_le m⟩
  obtain ⟨hne, m, hm, -⟩ := run.invariant (fun hs hd => MedianAtLeast.step hd hs) hzero
  obtain ⟨-, m', hm', hle⟩ := run'.invariant (fun hs hd => MedianAtLeast.step hd hs)
    (⟨hne, m, hm, le_rfl⟩ : c.MedianAtLeast m)
  exact ⟨m, m', hm, hm', hle⟩

end Blockchain

namespace Sample

/-- A chain with a block appended, or pruned where there is none. -/
def appendOrPrune (c : Blockchain) : Option Block → Option Blockchain
  | none => some c.pruneToWindow
  | some b => (c.updateState plainCore 1748000160 b).toOption.bind id

theorem appendsOrPrunes {c c' : Blockchain} {b : Option Block} (h : appendOrPrune c b = some c') :
    Blockchain.AppendsOrPrunes plainCore c b c' := by
  cases b with
  | none =>
    cases h
    exact .prune c
  | some b =>
    obtain ⟨_, hup, rfl⟩ := Option.bind_eq_some_iff.mp h
    exact .append ⟨_, Fallible.toOption_eq_some.mp hup⟩

/-- The medians of a chain of two blocks, and of three blocks and pruned. -/
theorem median_of_three : ∃ c c' : Blockchain, ∃ m m',
    c.blocks.map (fun b => b.timestamp) = [1748000000, 1748000061] ∧
    c'.blocks.map (fun b => b.timestamp) = [1748000000, 1748000061, 1748000121] ∧
    medianTimePast c.blocks = some m ∧ medianTimePast c'.blocks = some m' ∧ m ≤ m' := by
  have hrun : (([some rivalBlock].foldlM appendOrPrune node.chain).bind fun c =>
      ([some rivalChild, none].foldlM appendOrPrune c).map fun c' =>
        (c.blocks.map (fun b => b.timestamp), c'.blocks.map fun b => b.timestamp)) =
      some ([1748000000, 1748000061], [1748000000, 1748000061, 1748000121]) := by
    decide +kernel
  obtain ⟨c, hc, hrun⟩ := Option.bind_eq_some_iff.mp hrun
  obtain ⟨c', hc', htimes⟩ := Option.map_eq_some_iff.mp hrun
  obtain ⟨htime, htime'⟩ := Prod.mk.inj htimes
  have run : Runs.Run (Blockchain.AppendsOrPrunes plainCore)
      (Node.freshChain none Node.genesisPotAmount genesis) [some rivalBlock] c :=
    Runs.run_of_foldlM appendsOrPrunes hc
  obtain ⟨m, m', h⟩ := Blockchain.medianTimePast_monotone run
    (Runs.run_of_foldlM appendsOrPrunes hc')
  exact ⟨c, c', m, m', htime, htime', h⟩

end Sample

end Lootcoin
