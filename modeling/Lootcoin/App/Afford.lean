import Lootcoin.Chain.Accounts
import Lootcoin.App.Steps

/-! What is pending against the balances.  A transaction is admitted where its sender can pay for it
beside all that is pending, and what is put back is too.  Nothing does the same when a block spends
the balance: what stays pending is covered after a block exactly when the block leaves enough. -/

namespace Lootcoin

namespace AppState

open Blockchain

variable {core : Core} {ambient : Ambient} {s s' : AppState} {b : Block} {env : Option ℚ} {pot : ℕ}
  {genesis : Block} {base full full' : Blockchain} {p : Mempool} {new : List Block}
  {outcome : BlockOutcome} {tx : Transaction}

/-- Every address can pay for what it has pending. -/
def Affordable (s : AppState) : Prop :=
  ∀ a, s.mempool.pendingDebit a ≤ s.node.chain.getBalance a

/-- Blocks on a chain leave each sender of a pool enough to pay for what it has pending. -/
def Leaves (core : Core) (base : Blockchain) (new : List Block) (p : Mempool) : Prop :=
  ∀ e ∈ p.entries.values, p.pendingDebit e.tx.sender + spentAlong new e.tx.sender ≤
    base.getBalance e.tx.sender + gainsAlong core base new e.tx.sender

instance (core : Core) (base : Blockchain) (new : List Block) (p : Mempool) :
    Decidable (Leaves core base new p) := by
  unfold Leaves
  infer_instance

/-- The chain on which the new blocks of a delivery grow: that of the blocks that are kept. -/
def baseOf (core : Core) (env : Option ℚ) (pot : ℕ) (genesis : Block) (n : Node)
    (d : Node.Delivery) : Blockchain :=
  (n.keptBlocks core d).tail.foldl (after core) (Node.freshChain env pot genesis)

/-- What is pending, without what the new blocks of a delivery include or what has expired then. -/
def stillPending (core : Core) (s : AppState) (d : Node.Delivery) : Mempool :=
  s.mempool.leftBy core (s.node.newBlocks core d)
    ((s.node.keptBlocks core d).length + (s.node.newBlocks core d).length)

/-- The coins fit in 64 bits when the blocks of a step have been added. -/
def Event.SupplyFits (core : Core) (env : Option ℚ) (pot : ℕ) (genesis : Block) (s : AppState) :
    Event → Prop
  | .incoming d | .sync d => (baseOf core env pot genesis s.node d).totalSupply +
      (s.node.newBlocks core d).length < 2 ^ 64
  | .submit _ | .relay _ => True

instance (core : Core) (env : Option ℚ) (pot : ℕ) (genesis : Block) (s : AppState) :
    (e : Event) → Decidable (e.SupplyFits core env pot genesis s)
  | .incoming d | .sync d => inferInstanceAs (Decidable
      ((baseOf core env pot genesis s.node d).totalSupply +
        (s.node.newBlocks core d).length < 2 ^ 64))
  | .submit _ | .relay _ => isTrue trivial

/-- If the step brings a block that passes the checks of its way in, the new blocks leave each
sender enough to pay for what is pending after it. -/
def Event.LeavesEnough (core : Core) (env : Option ℚ) (pot : ℕ) (genesis : Block) (s : AppState) :
    Event → Prop
  | .incoming d => incomingBlockError core d.block = none →
      Leaves core (baseOf core env pot genesis s.node d) (s.node.newBlocks core d)
        (s.stillPending core d)
  | .sync d =>
    Leaves core (baseOf core env pot genesis s.node d) (s.node.newBlocks core d) s.mempool
  | .submit _ | .relay _ => True

instance (core : Core) (env : Option ℚ) (pot : ℕ) (genesis : Block) (s : AppState) :
    (e : Event) → Decidable (e.LeavesEnough core env pot genesis s)
  | .incoming d => inferInstanceAs (Decidable (incomingBlockError core d.block = none →
      Leaves core (baseOf core env pot genesis s.node d) (s.node.newBlocks core d)
        (s.stillPending core d)))
  | .sync d => inferInstanceAs (Decidable (Leaves core (baseOf core env pot genesis s.node d)
      (s.node.newBlocks core d) s.mempool))
  | .submit _ | .relay _ => isTrue trivial

/-! ### Coverage after a branch -/

/-- After a branch, every address can pay for what it has pending exactly when the branch leaves
enough for the senders of the pool. -/
theorem pendingDebit_le_iff (hs : base.totalSupply + new.length < 2 ^ 64)
    (hnew : Grows core base new full') :
    (∀ a, p.pendingDebit a ≤ full'.getBalance a) ↔ Leaves core base new p := by
  constructor
  · intro h e _
    have hle := h e.tx.sender
    have hbooks := hnew.balances hs e.tx.sender
    omega
  · intro h a
    by_cases ha : ∃ e ∈ p.entries.values, e.tx.sender = a
    · obtain ⟨e, he, rfl⟩ := ha
      have hle := h e he
      have hbooks := hnew.balances hs e.tx.sender
      omega
    · have hnone : p.entriesOf a = [] := by
        rw [Mempool.entriesOf, List.filter_eq_nil_iff]
        intro e he hsender
        exact ha ⟨e, he, of_decide_eq_true hsender⟩
      rw [Mempool.pendingDebit, hnone]
      exact Nat.zero_le _

theorem baseOf_eq {n : Node} {d : Node.Delivery} {stem displaced : List Block}
    (hkept : n.keptBlocks core d = genesis :: stem)
    (h : Node.Branches core env pot genesis stem displaced new base full full') :
    baseOf core env pot genesis n d = base := by
  rw [baseOf, hkept, List.tail_cons, h.stem.foldl_after]

/-! ### One step -/

theorem Admits.affordable_pool (h : Admits core s tx s') (hs : s.Affordable) : s'.Affordable := by
  intro a
  obtain ⟨hc, hpool⟩ := h.mempool
  have hroom := h.affordable
  have ha := hs a
  rw [h.node, hpool, Mempool.pendingDebit_put hc h.fresh, Word.saturatingAdd]
  split
  · rename_i hsender
    subst hsender
    omega
  · omega

/-- Where the outcome of a block adds nothing to the chain, the pool stays as it is; otherwise the
pool is affordable exactly when what stays pending of the pool before is. -/
theorem poolAfter_affordable_iff {node : Node} (hs : s.Affordable)
    (hsame : outcome = .orphaned ∨ outcome = .rejected →
      node.chain.toDerivedState = s.node.chain.toDerivedState) :
    (∀ a, (s.poolAfter core b node outcome).pendingDebit a ≤ node.chain.getBalance a) ↔
      ∀ a, (s.mempool.leftBy core (Node.writtenBlocks b outcome)
        node.chain.getHeight).pendingDebit a ≤ node.chain.getBalance a := by
  have hunchanged : outcome = .orphaned ∨ outcome = .rejected →
      ∀ a, s.mempool.pendingDebit a ≤ node.chain.getBalance a := by
    intro hnone a
    rw [hsame hnone]
    exact hs a
  cases outcome with
  | applied => rfl
  | reorged old fork => exact forall_congr' fun a => Mempool.settled_affordable_iff old a
  | orphaned =>
    have hle := hunchanged (.inl rfl)
    exact iff_of_true hle fun a => (Mempool.pendingDebit_leftBy_le a).trans (hle a)
  | rejected =>
    have hle := hunchanged (.inr rfl)
    exact iff_of_true hle fun a => (Mempool.pendingDebit_leftBy_le a).trans (hle a)

/-- A block that its handler has asked the chain about keeps the pool affordable exactly when the
new blocks leave enough. -/
theorem affordable_iff_of_incoming {d : Node.Delivery}
    (ht : Node.Tracks core env pot genesis s.node full) (hn : Node.Sound core s.node)
    (hi : genesis.index = 0) (hpot : pot < 2 ^ 64) (hfits : d.block.Fits)
    (happ : s.node.applyBlock core d.ambient d.block = .ok (outcome, s'.node))
    (hrep : s.node.chain.ForkReplays core d.ambient d.block (some s.node.db.reader))
    (hsupply : (baseOf core env pot genesis s.node d).totalSupply +
      (s.node.newBlocks core d).length < 2 ^ 64)
    (hpool : s'.mempool = s.poolAfter core d.block s'.node outcome) (hs : s.Affordable) :
    s'.Affordable ↔ Leaves core (baseOf core env pot genesis s.node d) (s.node.newBlocks core d)
      (s.stillPending core d) := by
  have heff := Node.effect_of_applyBlock happ
  obtain ⟨full', stem, displaced, base, ht', hkept, hnew, hbranch, -⟩ :=
    ht.branches hn hi hpot hfits heff hrep
  have hheight : s'.node.chain.getHeight =
      (s.node.keptBlocks core d).length + (s.node.newBlocks core d).length := by
    rw [ht'.pruned.sameTip.getHeight, getHeight, ht'.pruned.whole, hbranch.new.blocks,
      hbranch.stem.blocks, hkept, hnew]
    simp only [show (Node.freshChain env pot genesis).blocks = [genesis] from rfl,
      List.length_append, List.length_cons, List.length_nil]
    omega
  rw [baseOf_eq hkept hbranch, hnew] at hsupply ⊢
  rw [Affordable, hpool, poolAfter_affordable_iff hs, hheight, ht'.pruned.derived, stillPending,
    hnew, pendingDebit_le_iff hsupply hbranch.new]
  rintro (rfl | rfl)
  · cases heff with
    | orphaned _ _ heq => rw [heq]; rfl
  · cases heff with
    | rejected _ _ heq => rw [heq]

/-- A block of a synchronization keeps the pool affordable exactly when the new blocks leave enough
for all that is pending. -/
theorem affordable_iff_of_sync {d : Node.Delivery}
    (ht : Node.Tracks core env pot genesis s.node full) (hn : Node.Sound core s.node)
    (hi : genesis.index = 0) (hpot : pot < 2 ^ 64) (hfits : d.block.Fits)
    (happ : s.node.applyBlock core d.ambient d.block = .ok (outcome, s'.node))
    (hrep : s.node.chain.ForkReplays core d.ambient d.block (some s.node.db.reader))
    (hsupply : (baseOf core env pot genesis s.node d).totalSupply +
      (s.node.newBlocks core d).length < 2 ^ 64)
    (hpool : s'.mempool = s.mempool) :
    s'.Affordable ↔ Leaves core (baseOf core env pot genesis s.node d) (s.node.newBlocks core d)
      s.mempool := by
  obtain ⟨full', stem, displaced, base, ht', hkept, hnew, hbranch, -⟩ :=
    ht.branches hn hi hpot hfits (Node.effect_of_applyBlock happ) hrep
  rw [baseOf_eq hkept hbranch, hnew] at hsupply ⊢
  rw [Affordable, hpool, ht'.pruned.derived, pendingDebit_le_iff hsupply hbranch.new]

/-- After a step whose fork replays completely, while the coins fit, what is pending is affordable
exactly when the step leaves enough. -/
theorem Steps.affordable_iff {e : Event} (hstep : Steps core s e s')
    (hw : Node.Consistent core env pot genesis s.node) (hi : genesis.index = 0)
    (hpot : pot < 2 ^ 64) (hrep : e.ForkReplays core s)
    (hsupply : e.SupplyFits core env pot genesis s) (hs : s.Affordable) :
    s'.Affordable ↔ e.LeavesEnough core env pot genesis s := by
  obtain ⟨hn, full, ht⟩ := hw
  cases e with
  | submit req =>
    refine iff_of_true ?_ trivial
    rcases hstep.submit with rfl | ⟨tx, hadm⟩
    · exact hs
    · exact hadm.affordable_pool hs
  | relay tx =>
    refine iff_of_true ?_ trivial
    rcases hstep.relay with rfl | hadm
    · exact hs
    · exact hadm.affordable_pool hs
  | incoming d =>
    obtain ⟨hfits, answer, happ⟩ := hstep
    rcases applyIncomingBlock_cases happ with ⟨hshape, rfl⟩ | ⟨hshape, outcome, happ, hpool⟩
    · exact iff_of_true hs fun hnone => absurd hnone hshape
    · rw [affordable_iff_of_incoming ht hn hi hpot hfits happ hrep hsupply hpool hs]
      exact ⟨fun h _ => h, fun h => h hshape⟩
  | sync d =>
    obtain ⟨hfits, happ⟩ := hstep
    obtain ⟨outcome, happ, hpool⟩ := syncBlock_cases happ
    exact affordable_iff_of_sync ht hn hi hpot hfits happ hrep hsupply hpool

/-! ### Runs -/

/-- A step whose fork replays completely, and whose new blocks leave enough, while the coins fit. -/
def StepsLeavingEnough (core : Core) (env : Option ℚ) (pot : ℕ) (genesis : Block) (s : AppState)
    (e : Event) (s' : AppState) : Prop :=
  Steps core s e s' ∧ e.ForkReplays core s ∧ e.SupplyFits core env pot genesis s ∧
    e.LeavesEnough core env pot genesis s

theorem affordable_fresh (env : Option ℚ) (pot : ℕ) (genesis : Block) :
    (fresh env pot genesis).Affordable := by
  intro a
  exact Nat.zero_le _

/-- In every run whose blocks leave the senders of the pool enough, every address can pay for what
it has pending in any state reached, and after the next step that is so exactly when that step
leaves enough too. -/
theorem affordable_of_run (hi : genesis.index = 0) (hpot : pot < 2 ^ 64) {es : List Event}
    (run : Runs.Run (StepsLeavingEnough core env pot genesis) (fresh env pot genesis) es s) :
    (∀ a, s.mempool.pendingDebit a ≤ s.node.chain.getBalance a) ∧
    ∀ e s', Steps core s e s' → e.ForkReplays core s → e.SupplyFits core env pot genesis s →
      (s'.Affordable ↔ e.LeavesEnough core env pot genesis s) := by
  have hinv : Node.Consistent core env pot genesis s.node ∧ s.Affordable := by
    refine run.invariant
      (P := fun s => Node.Consistent core env pot genesis s.node ∧ s.Affordable) ?_
      ⟨Node.consistent_fresh hi, affordable_fresh env pot genesis⟩
    rintro s e s' ⟨hstep, hrep, hsupply, hleaves⟩ ⟨hw, hs⟩
    exact ⟨hstep.consistent hw hi hpot hrep,
      (hstep.affordable_iff hw hi hpot hrep hsupply hs).mpr hleaves⟩
  exact ⟨hinv.2, fun e s' hstep hrep hsupply =>
    hstep.affordable_iff hinv.1 hi hpot hrep hsupply hinv.2⟩

end AppState

namespace Sample

open AppState

/-- A payment of most of the genesis balance, and a block with it on the genesis block. -/
def hugePayment : Transaction := coins Node.genesisAddress "payee" 900000 10 13

def hugeBlock : Block := blockOf [coins "" "miner" 1 0 1, hugePayment] 1 [] 1748000060 32

/-- A block spends what a pending payment leaves of its sender's balance. -/
theorem largeBlock_leaves_enough : ∃ s, 0 < s.mempool.pendingDebit Node.genesisAddress ∧
    s.node.chain.getHeight = 2 ∧ (∀ a, s.mempool.pendingDebit a ≤ s.node.chain.getBalance a) ∧
    ∀ e s', Steps plainCore s e s' → e.ForkReplays plainCore s →
      e.SupplyFits plainCore none Node.genesisPotAmount genesis s →
      (s'.Affordable ↔ e.LeavesEnough plainCore none Node.genesisPotAmount genesis s) := by
  have hrun : (runEvents (fun s e => e.ForkReplays plainCore s ∧
      e.SupplyFits plainCore none Node.genesisPotAmount genesis s ∧
      e.LeavesEnough plainCore none Node.genesisPotAmount genesis s) app
      [.relay smallPayment, .incoming (deliveryOf largeBlock)]).map (fun s =>
        (s.mempool.pendingDebit Node.genesisAddress, s.node.chain.getHeight)) =
      some (390010, 2) := by
    decide +kernel
  obtain ⟨s, hs, hseen⟩ := Option.map_eq_some_iff.mp hrun
  rw [Prod.mk.injEq] at hseen
  have hleaving : Runs.Run (StepsLeavingEnough plainCore none Node.genesisPotAmount genesis)
      (AppState.fresh none Node.genesisPotAmount genesis)
      [.relay smallPayment, .incoming (deliveryOf largeBlock)] s := run_of_runEvents hs
  exact ⟨s, by omega, hseen.2, AppState.affordable_of_run rfl (by decide) hleaving⟩

/-- A block spends, with a payment that the pool never saw, the balance that a pending payment
counts on. -/
theorem hugeBlock_spends_pending : ∃ s, Runs.Run (Steps plainCore) app
      [.relay smallPayment, .incoming (deliveryOf hugeBlock)] s ∧
    s.node.chain.getHeight = 2 ∧
    ¬ ∀ a, s.mempool.pendingDebit a ≤ s.node.chain.getBalance a := by
  have hrun : (runEvents (fun _ _ => True) app
      [.relay smallPayment, .incoming (deliveryOf hugeBlock)]).map (fun s =>
        (s.node.chain.getHeight, decide (s.mempool.pendingDebit Node.genesisAddress ≤
          s.node.chain.getBalance Node.genesisAddress))) = some (2, false) := by
    decide +kernel
  obtain ⟨s, hs, hseen⟩ := Option.map_eq_some_iff.mp hrun
  rw [Prod.mk.injEq, decide_eq_false_iff_not] at hseen
  exact ⟨s, (run_of_runEvents hs).mono And.left, hseen.1, fun h => hseen.2 (h _)⟩

end Sample

end Lootcoin
