import Lootcoin.App.Steps
import Lootcoin.Node.Branch

/-! Pending and confirmed transactions.  The handler of a block removes what the new blocks confirm,
and what it puts back is confirmed nowhere, so no pending transaction is confirmed.  A
synchronization does not look at the pool: where one of its blocks confirms a pending transaction,
the transaction stays pending. -/

namespace Lootcoin

namespace AppState

variable {core : Core} {ambient : Ambient} {s s' : AppState} {b : Block} {env : Option ℚ} {pot : ℕ}
  {genesis : Block} {full full' base : Blockchain} {stem displaced : List Block}
  {outcome : BlockOutcome} {sig : Bytes}

/-- No pending transaction is confirmed. -/
def Unconfirmed (s : AppState) : Prop :=
  ∀ sig, s.mempool.contains sig = true → sig ∉ s.node.chain.confirmedSignatures

/-- If the step is of a synchronization, no block that it makes canonical holds a pending
transaction. -/
def Event.SparesPool (core : Core) (s : AppState) : Event → Prop
  | .sync d => ∀ sig ∈ signaturesOf (s.node.newBlocks core d), s.mempool.contains sig = false
  | .submit _ | .relay _ | .incoming _ => True

instance (core : Core) (s : AppState) : (e : Event) → Decidable (e.SparesPool core s)
  | .sync d => inferInstanceAs (Decidable
      (∀ sig ∈ signaturesOf (s.node.newBlocks core d), s.mempool.contains sig = false))
  | .submit _ | .relay _ | .incoming _ => isTrue trivial

/-! ### The start of the pool -/

/-- What is restored was in the pool or in the list. -/
theorem contains_restore {stored : List (Transaction × ℕ)} {p : Mempool}
    (h : (p.restore stored).contains sig = true) :
    p.contains sig = true ∨ ∃ e ∈ stored, e.1.signature = sig := by
  induction stored generalizing p with
  | nil => exact .inl h
  | cons entry rest ih =>
    have hlater : (p.restore rest).contains sig = true →
        p.contains sig = true ∨ ∃ e ∈ entry :: rest, e.1.signature = sig := by
      intro h
      rcases ih h with hp | ⟨e, he, hsig⟩
      · exact .inl hp
      · exact .inr ⟨e, List.mem_cons_of_mem _ he, hsig⟩
    rw [Mempool.restore] at h
    split at h
    · exact hlater h
    split at h
    · exact .inl h
    split at h
    · exact hlater h
    split at h
    · exact hlater h
    rcases ih h with hp | ⟨e, he, hsig⟩
    · by_cases hsig : sig = entry.1.signature
      · exact .inr ⟨entry, List.mem_cons_self, hsig.symm⟩
      · left
        rwa [Mempool.contains, show (p.hold entry.1 entry.2 _).entries =
          p.entries.insert entry.1.signature ⟨entry.1, entry.2⟩ from rfl,
          AList.lookup_insert_ne hsig] at hp
    · exact .inr ⟨e, List.mem_cons_of_mem _ he, hsig⟩

theorem startMempool_unconfirmed (c : Blockchain) (table : OrderedTable Bytes (Transaction × ℕ))
    (h : (startMempool c table).contains sig = true) : sig ∉ c.confirmedSignatures := by
  rcases contains_restore h with hempty | ⟨e, he, rfl⟩
  · simp [Mempool.contains, Mempool.new] at hempty
  · obtain ⟨-, hkeep⟩ := List.mem_filter.mp he
    simp only [Bool.and_eq_true, Bool.not_eq_true', decide_eq_false_iff_not] at hkeep
    exact hkeep.1

/-! ### One step -/

/-- What is pending after a block was pending before or was displaced, and the new blocks do not
hold it. -/
theorem poolAfter_contains {node : Node}
    (h : (s.poolAfter core b node outcome).contains sig = true) :
    (s.mempool.contains sig = true ∨ sig ∈ signaturesOf (Node.displacedBlocks outcome)) ∧
      sig ∉ signaturesOf (Node.writtenBlocks b outcome) := by
  obtain ⟨e, he⟩ := Option.isSome_iff_exists.mp h
  cases outcome with
  | applied =>
    obtain ⟨hp, hnew, -⟩ := Mempool.lookup_leftBy.mp he
    exact ⟨.inl (by simp [Mempool.contains, hp]), hnew⟩
  | reorged old fork =>
    obtain ⟨hp, hnew, -⟩ := Mempool.lookup_leftBy.mp he
    refine ⟨?_, hnew⟩
    rcases Mempool.cameFrom_readdBlocks hp with hp | ⟨hold, -⟩
    · exact .inl (by simp [Mempool.contains, hp])
    · exact .inr (signaturesIn_transactionsOf old ▸ hold)
  | orphaned => exact ⟨.inl h, by simp [Node.writtenBlocks, signaturesOf]⟩
  | rejected => exact ⟨.inl h, by simp [Node.writtenBlocks, signaturesOf]⟩

end AppState

namespace Node

variable {core : Core} {env : Option ℚ} {pot : ℕ} {genesis : Block} {full full' base : Blockchain}
  {stem displaced new : List Block} {sig : Bytes}

/-- What a branch that is left confirms above the base is not confirmed at the base. -/
theorem Branches.not_mem_base
    (h : Branches core env pot genesis stem displaced new base full full')
    (hsig : sig ∉ full.confirmedSignatures ∨ sig ∈ signaturesOf displaced) :
    sig ∉ base.confirmedSignatures := by
  obtain ⟨-, hfresh, hconfirmed⟩ := h.displaced.signatures
  rcases hsig with hsig | hsig
  · intro hbase
    rw [hconfirmed] at hsig
    exact hsig (Finset.mem_union_left _ hbase)
  · exact hfresh sig hsig

theorem Branches.mem_confirmed
    (h : Branches core env pot genesis stem displaced new base full full') :
    sig ∈ full'.confirmedSignatures ↔ sig ∈ base.confirmedSignatures ∨ sig ∈ signaturesOf new := by
  rw [h.new.signatures.2.2, Finset.mem_union, List.mem_toFinset]

end Node

namespace AppState

variable {core : Core} {ambient : Ambient} {s s' : AppState} {b : Block} {env : Option ℚ} {pot : ℕ}
  {genesis : Block} {full : Blockchain} {outcome : BlockOutcome} {tx : Transaction}

theorem Admits.unconfirmed_pool (h : Admits core s tx s') (hs : s.Unconfirmed) :
    s'.Unconfirmed := by
  intro sig hsig
  rw [h.node]
  obtain ⟨hc, hpool⟩ := h.mempool
  rw [hpool, Mempool.contains, Mempool.lookup_put] at hsig
  split at hsig
  · rename_i heq
    exact heq ▸ h.unconfirmed
  · exact hs sig hsig

/-- A block that the handler takes leaves nothing pending that it confirms. -/
theorem unconfirmed_of_incoming (ht : Node.Tracks core env pot genesis s.node full)
    (hn : Node.Sound core s.node) (hi : genesis.index = 0) (hpot : pot < 2 ^ 64) (hfits : b.Fits)
    (happ : s.node.applyBlock core ambient b = .ok (outcome, s'.node))
    (hrep : s.node.chain.ForkReplays core ambient b (some s.node.db.reader))
    (hpool : s'.mempool = s.poolAfter core b s'.node outcome) (hs : s.Unconfirmed) :
    s'.Unconfirmed := by
  obtain ⟨full', stem, displaced, base, ht', -, -, hbranch, hold⟩ :=
    ht.branches hn hi hpot hfits (Node.effect_of_applyBlock happ) hrep
  intro sig hsig
  rw [hpool] at hsig
  obtain ⟨hcame, hnew⟩ := poolAfter_contains hsig
  rw [ht'.pruned.derived, hbranch.mem_confirmed]
  refine not_or.mpr ⟨hbranch.not_mem_base ?_, hnew⟩
  rcases hcame with hp | hdisplaced
  · exact .inl (ht.pruned.derived ▸ hs sig hp)
  · obtain ⟨x, hx, hsig⟩ := List.mem_flatMap.mp hdisplaced
    exact .inr (List.mem_flatMap.mpr ⟨x, hold hx, hsig⟩)

/-- A block of a synchronization leaves nothing pending that is confirmed exactly when what it makes
canonical holds nothing pending. -/
theorem unconfirmed_iff_of_sync (ht : Node.Tracks core env pot genesis s.node full)
    (hn : Node.Sound core s.node) (hi : genesis.index = 0) (hpot : pot < 2 ^ 64) (hfits : b.Fits)
    (happ : s.node.applyBlock core ambient b = .ok (outcome, s'.node))
    (hrep : s.node.chain.ForkReplays core ambient b (some s.node.db.reader))
    (hpool : s'.mempool = s.mempool) (hs : s.Unconfirmed) :
    s'.Unconfirmed ↔ ∀ sig ∈ signaturesOf (s.node.newBlocks core ⟨b, ambient⟩),
      s.mempool.contains sig = false := by
  obtain ⟨full', stem, displaced, base, ht', -, hnew, hbranch, -⟩ :=
    ht.branches hn hi hpot hfits (Node.effect_of_applyBlock happ) hrep
  rw [hnew, Unconfirmed, hpool, ht'.pruned.derived]
  constructor
  · intro h sig hsig
    by_contra hpending
    exact h sig (Bool.eq_true_of_not_eq_false hpending) (hbranch.mem_confirmed.mpr (.inr hsig))
  · intro h sig hpending hconfirmed
    rcases hbranch.mem_confirmed.mp hconfirmed with hbase | hsig
    · exact hbranch.not_mem_base (.inl (ht.pruned.derived ▸ hs sig hpending)) hbase
    · exact absurd hpending (by simp [h sig hsig])

/-- After a step whose fork replays completely, nothing pending is confirmed exactly when a
synchronization spares the pool. -/
theorem Steps.unconfirmed_iff {e : Event} (hstep : Steps core s e s')
    (hw : Node.Consistent core env pot genesis s.node) (hi : genesis.index = 0)
    (hpot : pot < 2 ^ 64) (hrep : e.ForkReplays core s) (hs : s.Unconfirmed) :
    s'.Unconfirmed ↔ e.SparesPool core s := by
  obtain ⟨hn, full, ht⟩ := hw
  cases e with
  | submit req =>
    refine iff_of_true ?_ trivial
    rcases hstep.submit with rfl | ⟨tx, hadm⟩
    · exact hs
    · exact hadm.unconfirmed_pool hs
  | relay tx =>
    refine iff_of_true ?_ trivial
    rcases hstep.relay with rfl | hadm
    · exact hs
    · exact hadm.unconfirmed_pool hs
  | incoming d =>
    refine iff_of_true ?_ trivial
    obtain ⟨hfits, answer, happ⟩ := hstep
    rcases applyIncomingBlock_cases happ with ⟨-, rfl⟩ | ⟨-, outcome, happ, hpool⟩
    · exact hs
    · exact unconfirmed_of_incoming ht hn hi hpot hfits happ hrep hpool hs
  | sync d =>
    obtain ⟨hfits, happ⟩ := hstep
    obtain ⟨outcome, happ, hpool⟩ := syncBlock_cases happ
    exact unconfirmed_iff_of_sync ht hn hi hpot hfits happ hrep hpool hs

/-! ### Runs -/

/-- A step whose fork replays completely and, if it is of a synchronization, spares the pool. -/
def StepsSparing (core : Core) (s : AppState) (e : Event) (s' : AppState) : Prop :=
  Steps core s e s' ∧ e.ForkReplays core s ∧ e.SparesPool core s

/-- In every run in which synchronizations spare the pool, no pending transaction is confirmed in
any state reached, and after the next step none is exactly when that step spares the pool too. -/
theorem unconfirmed_of_run (hi : genesis.index = 0) (hpot : pot < 2 ^ 64) {es : List Event}
    (run : Runs.Run (StepsSparing core) (fresh env pot genesis) es s) :
    s.Unconfirmed ∧ ∀ e s', Steps core s e s' → e.ForkReplays core s →
      (s'.Unconfirmed ↔ e.SparesPool core s) := by
  have hinv : Node.Consistent core env pot genesis s.node ∧ s.Unconfirmed := by
    refine run.invariant
      (P := fun s => Node.Consistent core env pot genesis s.node ∧ s.Unconfirmed) ?_
      ⟨Node.consistent_fresh hi, fun _ => startMempool_unconfirmed _ _⟩
    rintro s e s' ⟨hstep, hrep, hspares⟩ ⟨hw, hs⟩
    exact ⟨hstep.consistent hw hi hpot hrep, (hstep.unconfirmed_iff hw hi hpot hrep hs).mpr hspares⟩
  exact ⟨hinv.2, fun e s' hstep hrep => hstep.unconfirmed_iff hinv.1 hi hpot hrep hinv.2⟩

end AppState

namespace Sample

open AppState

/-- A synchronization applies a block without payments while a payment is pending. -/
theorem bareBlock_spares_pool : ∃ s, s.mempool.contains smallPayment.signature = true ∧
    s.Unconfirmed ∧ ∀ e s', Steps plainCore s e s' → e.ForkReplays plainCore s →
      (s'.Unconfirmed ↔ e.SparesPool plainCore s) := by
  have hrun : (runEvents (fun s e => e.ForkReplays plainCore s ∧ e.SparesPool plainCore s) app
      [.relay smallPayment, .sync (deliveryOf bareBlock)]).map
        (fun s => s.mempool.contains smallPayment.signature) = some true := by
    decide +kernel
  obtain ⟨s, hs, hpending⟩ := Option.map_eq_some_iff.mp hrun
  have hsparing : Runs.Run (StepsSparing plainCore)
      (AppState.fresh none Node.genesisPotAmount genesis)
      [.relay smallPayment, .sync (deliveryOf bareBlock)] s := run_of_runEvents hs
  exact ⟨s, hpending, AppState.unconfirmed_of_run rfl (by decide) hsparing⟩

/-- A synchronization applies a block with the payment that is pending, which stays so. -/
theorem smallBlock_stays_pending : ∃ s, Runs.Run (Steps plainCore) app
      [.relay smallPayment, .sync (deliveryOf smallBlock)] s ∧
    s.mempool.contains smallPayment.signature = true ∧
    smallPayment.signature ∈ s.node.chain.confirmedSignatures ∧ ¬ s.Unconfirmed := by
  have hrun : (runEvents (fun _ _ => True) app
      [.relay smallPayment, .sync (deliveryOf smallBlock)]).map (fun s =>
        (s.mempool.contains smallPayment.signature,
          decide (smallPayment.signature ∈ s.node.chain.confirmedSignatures))) =
      some (true, true) := by
    decide +kernel
  obtain ⟨s, hs, hseen⟩ := Option.map_eq_some_iff.mp hrun
  rw [Prod.mk.injEq, decide_eq_true_eq] at hseen
  exact ⟨s, (run_of_runEvents hs).mono And.left, hseen.1, hseen.2,
    fun h => h _ hseen.1 hseen.2⟩

end Sample

end Lootcoin
