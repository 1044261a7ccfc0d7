import Lootcoin.Startup.Tickets

/-! Reorganizations of a node that began with a snapshot.  A rebuild replays what is stored from
index zero on and takes the first block of it for the genesis block.  Such a node has stored nothing
below the snapshot, so the rebuild begins with the block of the snapshot at height zero, and stops
at the block above it. -/

namespace Lootcoin

namespace Blockchain

variable {core : Core} {c c' : Blockchain} {b : Block}

/-- A replay stops at a block that does not follow the tip. -/
theorem replay_eq_of_index {clock : ℕ → ℕ} {bs : List Block}
    (h : ∀ b ∈ bs.head?, b.index ≠ c.getHeight) (hreplay : replay core clock c bs = .ok c') :
    c' = c := by
  cases bs with
  | nil =>
    cases hreplay
    rfl
  | cons b bs =>
    have hlink : ¬ c.linksToTip b = true := fun hlink =>
      h b rfl (linksToTip_iff.mp hlink).1
    have hno : c.updateState core (clock 0) b = .ok none := by
      rw [updateState_eq_none]
      by_contra hacc
      exact hlink (acceptsBlock_iff.mp (by simpa using hacc)).1
    rw [replay, hno] at hreplay
    cases hreplay
    rfl

/-- The blocks by which a chain grows lie above it. -/
theorem Grows.getHeight_le {bs : List Block} (h : Grows core c bs c') :
    ∀ b ∈ bs, c.getHeight ≤ b.index := by
  induction h with
  | nil => simp
  | cons hs _ ih =>
    intro b hb
    rcases List.mem_cons.mp hb with rfl | hb
    · exact hs.appended.index.ge
    · have habove := ih b hb
      rw [hs.appended.getHeight] at habove
      exact Nat.le_of_succ_le habove

end Blockchain

namespace Node

variable {core : Core} {n n' : Node} {height : ℕ} {cpBlock : Block}

/-- A node that knows the chain from the block of a snapshot on: nothing is stored below that block,
and the window is numbered from its offset and begins with that block unless it lies above. -/
structure KnowsFrom (height : ℕ) (cpBlock : Block) (n : Node) : Prop where
  below : ∀ i < height, n.db.blocks.get i = none
  stored : n.db.blocks.get height = some cpBlock
  keys : ∀ i b, n.db.blocks.get i = some b → b.index = i
  contiguous : n.chain.Contiguous
  offset : height ≤ n.chain.blocksOffset
  first : n.chain.blocksOffset = height → n.chain.blocks.head? = some cpBlock
  fits : ∀ b ∈ n.chain.blocks, b.index < 2 ^ 64

/-- A delivery that is not a reorganization. -/
def Extends (core : Core) (n : Node) (d : Delivery) (n' : Node) : Prop :=
  d.block.Fits ∧ ∃ outcome, n.applyBlock core d.ambient d.block = .ok (outcome, n') ∧
    ∀ old new, outcome ≠ .reorged old new

theorem KnowsFrom.applied (hk : n.KnowsFrom height cpBlock) {b : Block} {chain : Blockchain}
    {payouts : HashTable ℕ (List Payout)} (hfits : b.Fits)
    (hup : Blockchain.Appended core n.chain b chain)
    (hchain : n'.chain = Blockchain.pruneToWindow { chain with settledPayoutsByBlock := payouts })
    (hblocks : n'.db.blocks = n.db.blocks.insert b.index b) : n'.KnowsFrom height cpBlock := by
  have hcontiguous := (hk.contiguous.append hup).withPayouts payouts
  have habove : height < b.index := by
    have := List.length_pos_of_ne_nil hk.contiguous.nonempty
    have := hk.offset
    rw [hup.index, Blockchain.getHeight]
    omega
  have hwindow : n'.chain.blocks = (n.chain.blocks ++ [b]).drop chain.excess := by
    rw [hchain, Blockchain.pruneToWindow_blocks, ← hup.blocks]
    rfl
  have hoffset : n'.chain.blocksOffset = n.chain.blocksOffset + chain.excess := by
    rw [hchain, Blockchain.pruneToWindow_blocksOffset, ← hup.blocksOffset]
    rfl
  constructor
  case below =>
    intro i hi
    rw [hblocks, OrderedTable.get_insert_ne _ _ (by omega), hk.below i hi]
  case stored => rw [hblocks, OrderedTable.get_insert_ne _ _ (by omega), hk.stored]
  case keys => exact fun i x hx => index_of_get_insert hk.keys b (hblocks ▸ hx)
  case contiguous => exact hchain ▸ hcontiguous.prune
  case offset =>
    have := hk.offset
    omega
  case first =>
    intro heq
    have := hk.offset
    have hzero : chain.excess = 0 := by omega
    rw [hwindow, hzero, List.drop_zero, List.head?_append, hk.first (by omega)]
    rfl
  case fits =>
    intro x hx
    rw [hwindow] at hx
    rcases List.mem_append.mp (List.mem_of_mem_drop hx) with hx | hx
    · exact hk.fits x hx
    · exact List.mem_singleton.mp hx ▸ hfits.index

theorem KnowsFrom.step {d : Delivery} (hk : n.KnowsFrom height cpBlock) (h : Extends core n d n') :
    n'.KnowsFrom height cpBlock := by
  obtain ⟨hfits, outcome, happ, hno⟩ := h
  cases effect_of_applyBlock happ with
  | applied hup hchain hblocks =>
    exact hk.applied hfits (Blockchain.appended_of_updateState hup) hchain hblocks
  | rejected _ _ heq => exact heq ▸ hk
  | orphaned _ _ heq =>
    rw [heq]
    exact ⟨hk.below, hk.stored, hk.keys, ⟨hk.contiguous.nonempty, hk.contiguous.index⟩, hk.offset,
      hk.first, hk.fits⟩
  | reorged => exact absurd rfl (hno _ _)

/-- What is stored from index zero to below the window begins with the block of the snapshot, and
goes on above it. -/
theorem KnowsFrom.getBlocksRange (hk : n.KnowsFrom height cpBlock)
    (hlt : height < n.chain.blocksOffset) : ∃ stored,
      n.db.getBlocksRange 0 n.chain.blocksOffset = cpBlock :: stored ∧
      ∀ x ∈ stored, height < x.index := by
  -- the offset is the index of a block
  obtain ⟨x, l, hx⟩ := List.exists_cons_of_ne_nil hk.contiguous.nonempty
  have hoffset : n.chain.blocksOffset < 2 ^ 64 := by
    have := hk.contiguous.index 0 x (by simp [hx])
    have := hk.fits x (by simp [hx])
    omega
  have hsplit := calc List.range' 0 n.chain.blocksOffset
      _ = List.range' 0 (height + (n.chain.blocksOffset - height - 1 + 1)) := by
        congr 1
        omega
      _ = List.range' 0 height ++
          List.range' height (n.chain.blocksOffset - height - 1 + 1) := by
        rw [← List.range'_append_1, Nat.zero_add]
      _ = List.range' 0 height ++
          height :: List.range' (height + 1) (n.chain.blocksOffset - height - 1) := by
        rw [List.range'_succ]
  refine ⟨(List.range' (height + 1) (n.chain.blocksOffset - height - 1)).filterMap n.db.blocks.get,
    ?_, fun x hx => ?_⟩
  · have hnone : (List.range' 0 height).filterMap n.db.blocks.get = [] := by
      rw [List.filterMap_eq_nil_iff]
      intro i hi
      exact hk.below i (by simpa using hi)
    rw [Db.getBlocksRange, Word.saturatingAdd_of_lt (by omega), Nat.zero_add,
      OrderedTable.range_of_le _ (Nat.zero_le _), Nat.sub_zero, hsplit, List.filterMap_append,
      hnone, List.nil_append, List.filterMap_cons, hk.stored]
  · obtain ⟨i, hi, hget⟩ := List.mem_filterMap.mp hx
    rw [hk.keys i x hget]
    exact (List.mem_range'_1.mp hi).1

/-- What a reorganization in the window replays begins with the block of the snapshot, and goes on
with a block above it. -/
theorem KnowsFrom.withHistory (hk : n.KnowsFrom height cpBlock) (hpos : 0 < height)
    (ancestor : ℕ) {fork : List Block} (hfork : ∀ x ∈ fork.head?, height < x.index) :
    ∃ rest, Blockchain.withHistory
        (n.chain.blocks.take (ancestor - n.chain.blocksOffset + 1) ++ fork) (some n.db.reader) =
        .ok (some (cpBlock :: rest)) ∧
      ∀ x ∈ rest.head?, height < x.index := by
  obtain ⟨x, l, hx⟩ := List.exists_cons_of_ne_nil hk.contiguous.nonempty
  have hxi : x.index = n.chain.blocksOffset := hk.contiguous.index 0 x (by simp [hx])
  have hle := hk.offset
  simp only [hx, List.take_succ_cons, List.cons_append, Blockchain.withHistory, hxi,
    if_pos (Nat.lt_of_lt_of_le hpos hle), Db.reader, Option.map_some]
  rcases Nat.lt_or_eq_of_le hle with hlt | heq
  · -- the window lies above the block of the snapshot, which is stored
    obtain ⟨stored, hstored, habove⟩ := hk.getBlocksRange hlt
    refine ⟨_, by rw [hstored, List.cons_append], fun y hy => ?_⟩
    cases stored with
    | nil =>
      cases hy
      omega
    | cons z stored =>
      cases hy
      exact habove _ List.mem_cons_self
  · -- the window begins with it, and nothing is stored below
    have hnone : n.db.getBlocksRange 0 n.chain.blocksOffset = [] := by
      rw [List.eq_nil_iff_forall_not_mem]
      intro y hy
      obtain ⟨i, -, hi, hget⟩ := Db.mem_getBlocksRange hy
      cases (hk.below i (by omega)).symm.trans hget
    have hcp := hk.first heq.symm
    rw [hx, List.head?_cons, Option.some.injEq] at hcp
    subst hcp
    refine ⟨_, by rw [hnone, List.nil_append], fun y hy => ?_⟩
    rw [List.head?_append, List.head?_take] at hy
    split at hy
    · exact hfork y hy
    · cases l with
      | nil => exact hfork y hy
      | cons z l =>
        cases hy
        have := hk.contiguous.index 1 y (by simp [hx])
        omega

/-- A delivery that switches to a fork above the snapshot leaves the block of the snapshot alone on
the chain. -/
theorem KnowsFrom.reorged (hk : n.KnowsFrom height cpBlock) (hpos : 0 < height) {d : Delivery}
    {fork : List Block} {ancestor : ℕ} {outcome : BlockOutcome}
    (hchosen : n.chain.chosenFork core d.ambient d.block (some n.db.reader) = some (fork, ancestor))
    (hwindow : n.chain.blocksOffset ≤ ancestor) (hfork : ∀ x ∈ fork.head?, height < x.index)
    (h : n.applyBlock core d.ambient d.block = .ok (outcome, n')) :
    n'.chain.blocks = [cpBlock] ∧ n'.chain.getHeight = 1 := by
  obtain ⟨hadm, hfound⟩ := Blockchain.chosenFork_eq_some.mp hchosen
  have hno := (Blockchain.admits_eq_some.mp hadm).1
  cases effect_of_applyBlock h with
  | applied hup _ _ => cases hno.symm.trans hup
  | rejected hup hcause _ =>
    cases hchosen.symm.trans (Blockchain.chosenFork_of_rejected hup hcause)
  | orphaned hadm hfind _ =>
    cases hchosen.symm.trans (Blockchain.chosenFork_of_orphaned hadm hfind)
  | @reorged old fork' new ancestor' chain payouts hre hchain _ =>
    cases hchosen.symm.trans hre.chosenFork
    rcases Blockchain.splice_eq_ok.mp hre.splice with ⟨-, -, rfl, -⟩ | ⟨hbelow, -, -⟩
    · obtain ⟨rest, hhistory, hhead⟩ := hk.withHistory hpos ancestor hfork
      rcases Blockchain.reorgTo_eq_ok.mp hre.rebuilt with ⟨hnone, -⟩ | ⟨g, rest', hsome, hreplay⟩
      · cases hhistory.symm.trans hnone
      cases hhistory.symm.trans hsome
      -- the block of the snapshot has height zero now, and the next one does not follow it
      have hstop := Blockchain.replay_eq_of_index (fun x hx => ?_) hreplay
      · rw [hchain, hstop]
        exact ⟨rfl, rfl⟩
      · have := hhead x hx
        show x.index ≠ 0 + 1
        omega
    · omega

end Node

namespace Startup

open Started
open Blockchain (Grows)

variable {core : Core} {trusted : List TrustedCheckpoint} {env : Environment} {db : Db}
  {s : Started} {n n' : Node}

/-- A fork that attaches in the window of a node, whose chain has grown from `start`: all of its
blocks are accepted on the chain up to its ancestor, which leads to `final`. -/
structure ValidFork (core : Core) (start : Blockchain) (n : Node) (fork : List Block) (ancestor : ℕ)
    (final : Blockchain) : Prop where
  window : n.chain.blocksOffset ≤ ancestor
  grown : ∃ path base, Grows core start path base ∧ base.getHeight = ancestor + 1 ∧
    base.blocks.getLast? = n.chain.blocks[ancestor - n.chain.blocksOffset]? ∧
    Grows core base fork final

/-- The chain ends with the fork, in the state to which the fork leads. -/
def Adopts (fork : List Block) (final : Blockchain) (n' : Node) : Prop :=
  n'.chain.blocks.getLast? = fork.getLast? ∧ n'.chain.toDerivedState = final.toDerivedState

/-- A node that has started with a snapshot knows the chain from there on. -/
theorem knowsFrom_of_startNode (hs : startNode core trusted env db = .ok s)
    (hempty : db.loadCanonicalChain = []) (hused : s.usedCheckpoint = true)
    (hlt : s.historyStart < 2 ^ 64) (hindex : ∀ b ∈ s.chain.blocks, b.index = s.historyStart) :
    ∃ cpBlock, s.chain.blocks = [cpBlock] ∧ s.chain.blocksOffset = s.historyStart ∧
      s.node.KnowsFrom s.historyStart cpBlock := by
  obtain ⟨s₀, hstart, h⟩ := Fallible.bind_eq_ok.mp hs
  cases Fallible.pure_eq_ok.mp h
  rw [startChain_of_empty hempty] at hstart
  rcases startEmpty_cases hstart with ⟨height, k, p, cpBlock, -, -, rfl⟩ | ⟨root, -, rfl⟩
  · have hdb : db.blocks = .empty := by
      have hentries := List.map_eq_nil_iff.mp hempty
      cases h : db.blocks with
      | mk entries sorted =>
        obtain rfl : entries = [] := by rw [h] at hentries; exact hentries
        rfl
    have hblocks : ((fromSnapshot env ((db.saveBlockIndexed cpBlock).saveCheckpoint height
        (p.state cpBlock)) height (p.state cpBlock) cpBlock).finish core).chain.blocks =
        [cpBlock] := rfl
    obtain rfl : cpBlock.index = height := hindex cpBlock (hblocks ▸ List.mem_singleton_self _)
    have hstored : ∀ i x, (db.blocks.insert cpBlock.index cpBlock).get i = some x →
        i = cpBlock.index ∧ x = cpBlock := fun i x hx =>
      OrderedTable.get_insert_empty.mp (hdb ▸ hx)
    refine ⟨cpBlock, hblocks, rfl, ?_, OrderedTable.get_insert _ _ _, ?_,
      ⟨List.cons_ne_nil _ _, ?_⟩, Nat.le_refl _, fun _ => rfl, ?_⟩
    · intro i hi
      exact (OrderedTable.get_insert_ne _ _ hi.ne).trans (by rw [hdb]; rfl)
    · intro i x hx
      obtain ⟨rfl, rfl⟩ := hstored i x hx
      rfl
    · intro i x hx
      replace hx : [cpBlock][i]? = some x := hx
      rw [List.getElem?_singleton] at hx
      split at hx
      · rename_i hi
        cases hx
        rw [hi]
        rfl
      · cases hx
    · intro x hx
      exact List.mem_singleton.mp hx ▸ hlt
  · cases hused

/-- A node that has started with a snapshot above height zero and has made no reorganization adopts
no fork that attaches in its window, however valid.  Where the code finds the fork, the block of the
snapshot is left alone on the chain, and where it finds none, the chain stays. -/
theorem not_adopts_of_snapshot (hs : startNode core trusted env db = .ok s)
    (hempty : db.loadCanonicalChain = []) (hused : s.usedCheckpoint = true)
    (hpos : 0 < s.historyStart) (hlt : s.historyStart < 2 ^ 64)
    (hindex : ∀ b ∈ s.chain.blocks, b.index = s.historyStart) {ds : List Node.Delivery}
    (run : Runs.Run (Node.Extends core) s.node ds n) {d : Node.Delivery} {fork : List Block}
    {ancestor : ℕ} {final : Blockchain} (hvalid : ValidFork core s.chain n fork ancestor final)
    (hnew : fork.getLast? ≠ n.chain.blocks.getLast?)
    (hfound : ∀ found ∈ n.chain.chosenFork core d.ambient d.block (some n.db.reader),
      found = (fork, ancestor)) :
    ∀ outcome n', n.applyBlock core d.ambient d.block = .ok (outcome, n') → outcome ≠ .applied →
      ¬ Adopts fork final n' ∧
      (n.chain.chosenFork core d.ambient d.block (some n.db.reader) = some (fork, ancestor) →
        n'.chain.blocks = s.chain.blocks ∧ n'.chain.getHeight = 1) := by
  obtain ⟨cpBlock, hblocks, -, hstart⟩ := knowsFrom_of_startNode hs hempty hused hlt hindex
  have hk : n.KnowsFrom s.historyStart cpBlock :=
    run.invariant (P := fun n => n.KnowsFrom s.historyStart cpBlock) (fun h hk => hk.step h) hstart
  -- the blocks of the fork lie above its ancestor, and so above the snapshot
  obtain ⟨path, base, -, hheight, -, hgrow⟩ := hvalid.grown
  have habove : ∀ x ∈ fork, s.historyStart < x.index := by
    intro x hx
    have := hgrow.getHeight_le x hx
    have := hk.offset.trans hvalid.window
    omega
  intro outcome n' h happlied
  have hafter : n.chain.chosenFork core d.ambient d.block (some n.db.reader) =
      some (fork, ancestor) → n'.chain.blocks = s.chain.blocks ∧ n'.chain.getHeight = 1 :=
    fun hchosen => hblocks ▸ hk.reorged hpos hchosen hvalid.window
      (fun x hx => habove x (List.mem_of_mem_head? hx)) h
  refine ⟨fun hadopts => ?_, hafter⟩
  have htip := hadopts.1
  cases Node.effect_of_applyBlock h with
  | applied => exact happlied rfl
  | rejected _ _ heq => exact hnew (heq ▸ htip.symm)
  | orphaned _ _ heq => exact hnew (by rw [← htip, heq]; rfl)
  | reorged hre =>
    have hchosen := hre.chosenFork.trans (congrArg some (hfound _ hre.chosenFork))
    rw [(hafter hchosen).1, hblocks] at htip
    have hcp := habove cpBlock (List.mem_of_getLast? htip.symm)
    rw [hindex cpBlock (hblocks ▸ List.mem_singleton_self _)] at hcp
    exact Nat.lt_irrefl _ hcp

end Startup

namespace Sample

open Startup Started

/-- The node that starts with a snapshot at height 1000. -/
def startedAt1000 : Started :=
  (fromSnapshot (offeredSnapshot (payloadWithPot 1))
    ((Db.empty.saveBlockIndexed claimedBlock).saveCheckpoint 1000
      ((payloadWithPot 1).state claimedBlock)) 1000 ((payloadWithPot 1).state claimedBlock)
    claimedBlock).finish plainCore

theorem startNode_startedAt1000 : startNode plainCore trustedAt1000
    (offeredSnapshot (payloadWithPot 1)) Db.empty = .ok startedAt1000 := by
  have hstart : startChain plainCore trustedAt1000 (offeredSnapshot (payloadWithPot 1)) Db.empty =
      _ := (startChain_of_empty rfl).trans
    (startEmpty_of_offersFirst rfl (offersFirst_offeredSnapshot (payloadWithPot 1)))
  rw [startNode, hstart]
  rfl

/-- Two blocks on the snapshot, and a fork from the first of them of two blocks. -/
def firstAbove : Block := block 1001 trustedHash 1748060060 32
def secondAbove : Block := block 1002 firstAbove.hash 1748060120 32
def forkAbove : Block := block 1002 firstAbove.hash 1748060121 31
def forkTip : Block := block 1003 forkAbove.hash 1748060181 32

def deliveryAbove (b : Block) : Node.Delivery := ⟨b, around 1748060200⟩

/-- The outcome of a delivery is not a reorganization. -/
def KeepsChain (n : Node) (d : Node.Delivery) : Prop :=
  ((n.applyBlock plainCore d.ambient d.block).toOption.map fun r => r.1) ∈
    [some .applied, some .orphaned]

instance : ∀ n d, Decidable (KeepsChain n d) := fun _ _ => List.instDecidableMemOfLawfulBEq _ _

theorem extends_of_keepsChain {n n' : Node} {d : Node.Delivery}
    (h : Node.Delivers plainCore n d n' ∧ KeepsChain n d) : Node.Extends plainCore n d n' := by
  obtain ⟨⟨hfits, outcome, happ⟩, hkeeps⟩ := h
  refine ⟨hfits, outcome, happ, ?_⟩
  rintro old new rfl
  rw [KeepsChain, happ] at hkeeps
  simp [Except.toOption] at hkeeps

/-- The fork is valid and shows more work, and the node finds it when its tip arrives. -/
theorem forkTip_forks : ∃ n final outcome n',
    Runs.Run (Node.Extends plainCore) startedAt1000.node
      [deliveryAbove firstAbove, deliveryAbove secondAbove, deliveryAbove forkAbove] n ∧
    n.chain.blocks = [claimedBlock, firstAbove, secondAbove] ∧
    ValidFork plainCore startedAt1000.chain n [forkAbove, forkTip] 1001 final ∧
    n.chain.chainWork < final.chainWork ∧
    n.chain.chosenFork plainCore (around 1748060200) forkTip (some n.db.reader) =
      some ([forkAbove, forkTip], 1001) ∧
    n.applyBlock plainCore (around 1748060200) forkTip = .ok (outcome, n') ∧
    outcome ≠ .applied ∧ n'.chain.blocks = [claimedBlock] := by
  have hrun : (runChecked plainCore KeepsChain startedAt1000.node [deliveryAbove firstAbove,
      deliveryAbove secondAbove, deliveryAbove forkAbove]).map (fun n =>
        (n.chain.blocks, n.chain.blocksOffset)) =
      some ([claimedBlock, firstAbove, secondAbove], 1000) := by
    decide +kernel
  obtain ⟨n, hn, hwindow⟩ := Option.map_eq_some_iff.mp hrun
  rw [Prod.mk.injEq] at hwindow
  have hcall : (runChecked plainCore KeepsChain startedAt1000.node [deliveryAbove firstAbove,
      deliveryAbove secondAbove, deliveryAbove forkAbove]).map (fun n => (n.chain.chainWork,
        n.chain.chosenFork plainCore (around 1748060200) forkTip (some n.db.reader),
        (n.applyBlock plainCore (around 1748060200) forkTip).toOption.map fun r =>
          r.2.chain.blocks)) =
      some (2 ^ 26, some ([forkAbove, forkTip], 1001), some [claimedBlock]) := by
    decide +kernel
  rw [hn, Option.map_some, Option.some.injEq, Prod.mk.injEq, Prod.mk.injEq] at hcall
  obtain ⟨hwork, hchosen, happ⟩ := hcall
  obtain ⟨⟨outcome, n'⟩, happ, hafter⟩ := Fallible.exists_of_toOption_map happ
  have hgrow : ((Blockchain.applyAll plainCore (fun _ => 1748060200) startedAt1000.chain
      [firstAbove]).toOption.bind fun base => base.bind fun base =>
        (Blockchain.applyAll plainCore (fun _ => 1748060200) base
          [forkAbove, forkTip]).toOption.bind fun final => final.map fun final =>
            (base.getHeight, base.blocks, final.chainWork)) =
      some (1002, [claimedBlock, firstAbove], 3 * 2 ^ 25) := by
    decide +kernel
  simp only [Option.bind_eq_some_iff, Option.map_eq_some_iff, Prod.mk.injEq] at hgrow
  obtain ⟨_, hbase, base, rfl, _, hfinal, final, rfl, hobs⟩ := hgrow
  have hpath := Blockchain.applyAll_grows (Fallible.toOption_eq_some.mp hbase)
  have hfork := Blockchain.applyAll_grows (Fallible.toOption_eq_some.mp hfinal)
  have hvalid : ValidFork plainCore startedAt1000.chain n [forkAbove, forkTip] 1001 final := by
    refine ⟨by rw [hwindow.2]; decide, [firstAbove], base, hpath, hobs.1, ?_, hfork⟩
    rw [hobs.2.1, hwindow.1, hwindow.2]
    rfl
  refine ⟨n, final, outcome, n', (run_of_runChecked hn).mono extends_of_keepsChain, hwindow.1,
    hvalid, by rw [hwork, hobs.2.2]; decide, hchosen, happ, ?_, hafter⟩
  rintro rfl
  have hnone := (Blockchain.admits_eq_some.mp (Blockchain.chosenFork_eq_some.mp hchosen).1).1
  cases Node.effect_of_applyBlock happ with
  | applied hup => cases hnone.symm.trans hup

theorem forkTip_not_adopted : ∃ n final outcome n',
    Runs.Run (Node.Extends plainCore) startedAt1000.node
      [deliveryAbove firstAbove, deliveryAbove secondAbove, deliveryAbove forkAbove] n ∧
    n.applyBlock plainCore (around 1748060200) forkTip = .ok (outcome, n') ∧
    ¬ Adopts [forkAbove, forkTip] final n' := by
  obtain ⟨n, final, outcome, n', hrun, hblocks, hvalid, -, hchosen, happ, hno, -⟩ := forkTip_forks
  have hnew : [forkAbove, forkTip].getLast? ≠ n.chain.blocks.getLast? := by
    rw [hblocks]
    decide +kernel
  exact ⟨n, final, outcome, n', hrun, happ, (not_adopts_of_snapshot startNode_startedAt1000 rfl rfl
    (by decide) (by decide) (by decide +kernel) hrun (d := deliveryAbove forkTip) hvalid hnew
    (fun found hfound => Option.some.inj (hfound.symm.trans hchosen)) outcome n' happ hno).1⟩

/-- The fork is valid and has more work. After the call the chain is the block of the snapshot. -/
theorem forkTip_drops_chain : ∃ s n final outcome n',
    startNode plainCore trustedAt1000 (offeredSnapshot (payloadWithPot 1)) Db.empty = .ok s ∧
    Runs.Run (Node.Extends plainCore) s.node
      [deliveryAbove firstAbove, deliveryAbove secondAbove, deliveryAbove forkAbove] n ∧
    n.chain.blocks = [claimedBlock, firstAbove, secondAbove] ∧
    ValidFork plainCore s.chain n [forkAbove, forkTip] 1001 final ∧
    n.chain.chainWork < final.chainWork ∧
    n.applyBlock plainCore (around 1748060200) forkTip = .ok (outcome, n') ∧
    n'.chain.blocks = [claimedBlock] ∧ ¬ Adopts [forkAbove, forkTip] final n' := by
  obtain ⟨n, final, outcome, n', hrun, hblocks, hvalid, hwork, -, happ, -, hafter⟩ := forkTip_forks
  refine ⟨startedAt1000, n, final, outcome, n', startNode_startedAt1000, hrun, hblocks, hvalid,
    hwork, happ, hafter, fun h => ?_⟩
  have htip := h.1
  rw [hafter] at htip
  exact absurd htip (by decide +kernel)

end Sample

end Lootcoin
