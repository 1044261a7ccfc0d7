import Mathlib.Data.List.ReduceOption
import Lootcoin.Chain.Supply
import Lootcoin.Head
import Lootcoin.Node.Median

/-! The gauges of the metrics.  The total that they publish is the genesis supply plus one coin for
each block of the height.  The genesis block counts for the height and creates no coin beyond that
supply, and a coinbase may be zero or missing, so the total is ahead of the supply. -/

namespace Lootcoin

/-- The values that a request of the metrics sets, doubles all of them. -/
structure Gauges where
  chainHeight : ℚ
  chainDifficulty : ℚ
  avgBlockTimeSecs : ℚ
  secsSinceLastBlock : ℚ
  potCoins : ℚ
  totalSupply : ℚ
  circulatingCoins : ℚ
  mempoolSize : ℚ
  peerCount : ℚ

/-- The gauges after a request at a time. Without an average, the one before stays. -/
def metricsHandler (c : Blockchain) (p : Mempool) (peerUrls : List String) (nowSecs : ℕ)
    (m : Gauges) : Gauges :=
  let height := c.getHeight
  let pot := c.pot
  let total := Word.saturatingAdd 64 100000000 height
  { chainHeight := Double.nearest height
    chainDifficulty := c.currentDifficulty
    avgBlockTimeSecs := c.getAvgBlockTimeSecs.getD m.avgBlockTimeSecs
    secsSinceLastBlock := Double.nearest (nowSecs - c.getLastBlockTimestamp : ℕ)
    potCoins := Double.nearest pot
    totalSupply := Double.nearest total
    circulatingCoins := Double.nearest (total - pot : ℕ)
    mempoolSize := Double.nearest p.len
    peerCount := Double.nearest peerUrls.length }

/-- The gauges show the supply of a chain, and what of it is not in the pot. -/
structure Gauges.ShowSupply (g : Gauges) (c : Blockchain) : Prop where
  total : g.totalSupply = c.totalSupply
  circulating : g.circulatingCoins = HashTable.total c.balances

namespace Blockchain

variable {core : Core} {c c' : Blockchain} {steps : List (Option Block)}

/-- What the blocks create. -/
def mintedAlong (steps : List (Option Block)) : ℕ := (steps.reduceOption.map minted).sum

/-- An append creates what the coinbase says, which is at most one coin. -/
theorem Appends.totalSupply {b : Block} (h : Appends core c b c') :
    c'.totalSupply = c.totalSupply + minted b ∧ minted b ≤ 1 := by
  have hcoinbase := (DerivedState.validBody_iff.mp h.appended.validBody).2.2.2.2.1
  obtain ⟨payouts, hadv⟩ := h.appended.advance
  obtain ⟨applied, -, hsupply, hs, -⟩ := DerivedState.advance_eq_ok.mp hadv
  refine ⟨?_, DerivedState.minted_le_one hcoinbase⟩
  rw [← hsupply, hs]
  simp [DerivedState.totalSupply, DerivedState.accumulateWork, DerivedState.issueTicket]

theorem AppendsOrPrunes.supply {step : Option Block} (h : AppendsOrPrunes core c step c')
    (hne : c.blocks ≠ []) : c'.blocks ≠ [] ∧
    c'.totalSupply = c.totalSupply + mintedAlong [step] ∧
    c'.getHeight = c.getHeight + [step].reduceOption.length ∧
    mintedAlong [step] ≤ [step].reduceOption.length := by
  cases h with
  | append h =>
    obtain ⟨hsupply, hone⟩ := h.totalSupply
    exact ⟨by simp [h.appended.blocks], hsupply, h.appended.getHeight, hone⟩
  | prune =>
    refine ⟨pruneToWindow_blocks_ne_nil hne, ?_, pruneToWindow_getHeight hne, Nat.le_refl 0⟩
    rw [pruneToWindow_toDerivedState]
    rfl

/-- A run adds to the supply what its blocks create, and to the height what they are. -/
theorem supply_of_run (run : Runs.Run (AppendsOrPrunes core) c steps c') (hne : c.blocks ≠ []) :
    c'.totalSupply = c.totalSupply + mintedAlong steps ∧
    c'.getHeight = c.getHeight + steps.reduceOption.length ∧
    mintedAlong steps ≤ steps.reduceOption.length := by
  have hcons : ∀ (step : Option Block) (steps : List (Option Block)),
      mintedAlong (step :: steps) = mintedAlong [step] + mintedAlong steps ∧
      (step :: steps).reduceOption.length = [step].reduceOption.length +
        steps.reduceOption.length := by
    intro step steps
    have hsplit : (step :: steps).reduceOption = [step].reduceOption ++ steps.reduceOption :=
      List.reduceOption_append [step] steps
    exact ⟨by rw [mintedAlong, hsplit, List.map_append, List.sum_append]; rfl,
      by rw [hsplit, List.length_append]⟩
  induction run with
  | nil => exact ⟨rfl, rfl, le_rfl⟩
  | cons h _ ih =>
    obtain ⟨hne', hsupply, hheight, hle⟩ := h.supply hne
    obtain ⟨hsupply', hheight', hle'⟩ := ih hne'
    rw [(hcons _ _).1, (hcons _ _).2]
    omega

end Blockchain

section Mainnet

open Blockchain

variable {core : Core} {env : Option ℚ} {txRoot : Bytes} {c : Blockchain}
  {steps : List (Option Block)}

/-- The supply of a chain on the genesis block of the main network. -/
theorem mainnet_supply
    (run : Runs.Run (AppendsOrPrunes core)
      (Node.freshChain env Node.genesisPotAmount (Node.mainnetGenesis txRoot)) steps c) :
    c.totalSupply = 100000000 + mintedAlong steps ∧
    c.getHeight = steps.reduceOption.length + 1 ∧
    mintedAlong steps ≤ steps.reduceOption.length := by
  have hfresh : (Node.freshChain env Node.genesisPotAmount
    (Node.mainnetGenesis txRoot)).totalSupply = 100000000 := by
    have hbalances : HashTable.total (genesisBalances Node.genesisTxs) = 1000000 := by
      decide +kernel
    show HashTable.total (genesisBalances Node.genesisTxs) + Word.saturatingAdd 64 0 99000000 = _
    rw [hbalances]
    rfl
  obtain ⟨hsupply, hheight, hle⟩ := supply_of_run run (List.cons_ne_nil _ _)
  refine ⟨hfresh ▸ hsupply, hheight.trans (Nat.add_comm 1 _), hle⟩

/-- While the total has 53 bits, the gauges are ahead by the genesis block and by each block that
creates nothing. -/
theorem gauges_ahead
    (run : Runs.Run (AppendsOrPrunes core)
      (Node.freshChain env Node.genesisPotAmount (Node.mainnetGenesis txRoot)) steps c)
    (h : 100000000 + (steps.reduceOption.length + 1) ≤ 2 ^ 53) (p : Mempool)
    (peerUrls : List String) (nowSecs : ℕ) (m : Gauges) :
    let g := metricsHandler c p peerUrls nowSecs m
    let ahead := steps.reduceOption.length + 1 - mintedAlong steps
    g.totalSupply = (c.totalSupply + ahead : ℕ) ∧
    g.circulatingCoins = (HashTable.total c.balances + ahead : ℕ) := by
  obtain ⟨hsupply, hheight, hle⟩ := mainnet_supply run
  have hpot : c.totalSupply = HashTable.total c.balances + c.pot := rfl
  simp only [metricsHandler]
  rw [hheight, Word.saturatingAdd_of_lt (by omega), Double.nearest_natCast h,
    Double.nearest_natCast (by omega), Nat.cast_inj, Nat.cast_inj]
  omega

/-- The gauges show the supply exactly when rounding to doubles takes off what they are ahead, which
it never does to a total of 53 bits. -/
theorem showSupply_iff
    (run : Runs.Run (AppendsOrPrunes core)
      (Node.freshChain env Node.genesisPotAmount (Node.mainnetGenesis txRoot)) steps c)
    (p : Mempool) (peerUrls : List String) (nowSecs : ℕ) (m : Gauges) :
    let g := metricsHandler c p peerUrls nowSecs m
    let total := Word.saturatingAdd 64 100000000 (steps.reduceOption.length + 1)
    let supply := 100000000 + mintedAlong steps
    (g.ShowSupply c ↔ Double.nearest total = (supply : ℕ) ∧
      Double.nearest (total - c.pot : ℕ) = (supply - c.pot : ℕ)) ∧
    (100000000 + (steps.reduceOption.length + 1) ≤ 2 ^ 53 →
      g.totalSupply ≠ c.totalSupply ∧ g.circulatingCoins ≠ HashTable.total c.balances) := by
  obtain ⟨hsupply, hheight, hle⟩ := mainnet_supply run
  have hpot : HashTable.total c.balances = c.totalSupply - c.pot := by
    rw [DerivedState.totalSupply, Nat.add_sub_cancel]
  constructor
  · constructor
    · rintro ⟨htotal, hcirculating⟩
      rw [hpot, hsupply] at hcirculating
      rw [hsupply] at htotal
      simp only [metricsHandler, hheight] at htotal hcirculating
      exact ⟨htotal, hcirculating⟩
    · rintro ⟨htotal, hcirculating⟩
      constructor
      · rw [hsupply, ← htotal]
        simp only [metricsHandler, hheight]
      · rw [hpot, hsupply, ← hcirculating]
        simp only [metricsHandler, hheight]
  · intro h
    obtain ⟨htotal, hcirculating⟩ := gauges_ahead run h p peerUrls nowSecs m
    rw [htotal, hcirculating, Ne, Nat.cast_inj, Ne, Nat.cast_inj]
    omega

end Mainnet

namespace Sample

/-- A block on the genesis block that creates a coin. -/
def mintBlock : Block := blockOf [Miner.coinbaseTo "miner"] 1 [] 1748000060 32

def zeroGauges : Gauges := ⟨0, 0, 0, 0, 0, 0, 0, 0, 0⟩

/-- A coin has been created, and the gauges are ahead all the same. -/
theorem mintBlock_not_showSupply : ∃ c,
    Runs.Run (Blockchain.AppendsOrPrunes plainCore)
      (Node.freshChain none Node.genesisPotAmount genesis) [some mintBlock, none] c ∧
    c.totalSupply = 100000001 ∧
    (metricsHandler c (Mempool.new none) [] 1748000160 zeroGauges).totalSupply ≠ c.totalSupply ∧
    (metricsHandler c (Mempool.new none) [] 1748000160 zeroGauges).circulatingCoins ≠
      HashTable.total c.balances := by
  have hrun : ([some mintBlock, none].foldlM appendOrPrune node.chain).map (fun c =>
      c.totalSupply) = some 100000001 := by
    decide +kernel
  obtain ⟨c, hc, hsupply⟩ := Option.map_eq_some_iff.mp hrun
  have run : Runs.Run (Blockchain.AppendsOrPrunes plainCore)
      (Node.freshChain none Node.genesisPotAmount genesis) [some mintBlock, none] c :=
    Runs.run_of_foldlM appendsOrPrunes hc
  obtain ⟨htotal, hcirculating⟩ :=
    (showSupply_iff run (Mempool.new none) [] 1748000160 zeroGauges).2 (by decide)
  exact ⟨c, run, hsupply, htotal, hcirculating⟩

/-- The gauges of a fresh node. -/
theorem fresh_not_showSupply :
    (metricsHandler node.chain (Mempool.new none) [] 1748000160 zeroGauges).totalSupply =
      100000001 ∧
    (metricsHandler node.chain (Mempool.new none) [] 1748000160 zeroGauges).circulatingCoins =
      1000001 ∧
    node.chain.totalSupply = 100000000 ∧ HashTable.total node.chain.balances = 1000000 ∧
    ¬ (metricsHandler node.chain (Mempool.new none) [] 1748000160 zeroGauges).ShowSupply
      node.chain := by
  have hsupply : node.chain.totalSupply = 100000000 := by decide +kernel
  have hbalances : HashTable.total node.chain.balances = 1000000 := by decide +kernel
  have run : Runs.Run (Blockchain.AppendsOrPrunes plainCore)
      (Node.freshChain none Node.genesisPotAmount genesis) [] node.chain := .nil _
  obtain ⟨htotal, hcirculating⟩ :=
    gauges_ahead run (by decide) (Mempool.new none) [] 1748000160 zeroGauges
  replace htotal : (metricsHandler node.chain (Mempool.new none) [] 1748000160
      zeroGauges).totalSupply = (node.chain.totalSupply + 1 : ℕ) := htotal
  replace hcirculating : (metricsHandler node.chain (Mempool.new none) [] 1748000160
      zeroGauges).circulatingCoins = (HashTable.total node.chain.balances + 1 : ℕ) := hcirculating
  rw [hsupply] at htotal
  rw [hbalances] at hcirculating
  refine ⟨htotal.trans (by norm_num), hcirculating.trans (by norm_num), hsupply, hbalances, ?_⟩
  rintro ⟨h, -⟩
  rw [htotal, hsupply] at h
  norm_num at h

end Sample

end Lootcoin
