import Lootcoin.Chain.Arithmetic
import Lootcoin.Node.Heights
import Lootcoin.Node.Tickets

/-! The unsigned arithmetic on a block at the nodes that deliveries lead to.  An index that a block
claims is multiplied before it is compared with the height, so a block can make that product
overflow; nothing else overflows below the heights at which the product for the next block does. -/

namespace Lootcoin

namespace Blockchain

variable {core : Core} {c c' : Blockchain} {b : Block}

/-- Every pending ticket was issued below the height. -/
def TicketsBelow (c : Blockchain) : Prop := ∀ t ∈ c.pendingTickets, t.createdHeight < c.getHeight

theorem TicketsBelow.append (h : TicketsBelow c) (ha : Appended core c b c') :
    TicketsBelow c' := by
  have hheight := ha.getHeight
  intro t ht
  rw [ha.pendingTickets] at ht
  rcases List.mem_append.mp ht with ht | ht
  · have := h t (List.mem_filter.mp ht).1
    omega
  · have hcreated := createdHeight_of_ticketOf (Option.mem_toList.mp ht)
    rw [ha.index] at hcreated
    omega

theorem TicketsBelow.prune (h : TicketsBelow c) (hc : c.blocks ≠ []) :
    TicketsBelow c.pruneToWindow := by
  intro t ht
  rw [pruneToWindow_toDerivedState] at ht
  rw [pruneToWindow_getHeight hc]
  exact h t ht

end Blockchain

namespace Node

variable {core : Core} {ambient : Ambient} {n n' : Node} {b : Block} {outcome : BlockOutcome}
  {env : Option ℚ} {pot : ℕ} {genesis : Block}

theorem Sound.ticketsBelow (hn : Sound core n) (ht : n.chain.TicketsBelow)
    (h : Effect core ambient n b n' outcome) : n'.chain.TicketsBelow := by
  cases h with
  | @applied chain payouts hup hchain _ =>
    have ha := Blockchain.appended_of_updateState hup
    have hbelow : chain.TicketsBelow := ht.append ha
    rw [hchain]
    exact Blockchain.TicketsBelow.prune (c := { chain with settledPayoutsByBlock := payouts })
      hbelow (by simp [ha.blocks])
  | rejected _ _ heq => exact heq ▸ ht
  | orphaned _ _ heq => exact heq ▸ ht
  | @reorged old fork new ancestor chain payouts hre hchain _ =>
    obtain ⟨stem, g, rest, -, -, -, -, hreplay⟩ := hn.reorganizes hre
    obtain ⟨done, -, hgrow⟩ := Blockchain.replay_grows hreplay
    have hstart : ((n.chain.admitOrphan ambient.order b).reset g).TicketsBelow := by
      intro t ht
      cases ht
    have hbelow : chain.TicketsBelow :=
      hgrow.invariant (fun hstep h => Blockchain.TicketsBelow.append h hstep.appended) hstart
    have hblocks : chain.blocks = g :: done := hgrow.blocks
    rw [hchain]
    exact Blockchain.TicketsBelow.prune (c := { chain with settledPayoutsByBlock := payouts })
      hbelow (by simp [hblocks])

theorem ticketsBelow_of_run (hi : genesis.index = 0) {ds : List Delivery}
    (run : Runs.Run (Delivers core) (fresh env pot genesis) ds n) : n.chain.TicketsBelow := by
  refine (run.invariant (P := fun n => Sound core n ∧ n.chain.TicketsBelow) ?_
    ⟨sound_fresh hi, fun t ht => ?_⟩).2
  · rintro n d n' ⟨-, outcome, happ⟩ ⟨hn, ht⟩
    have heff := effect_of_applyBlock happ
    exact ⟨hn.step heff, hn.ticketsBelow ht heff⟩
  · cases ht

/-- At every node that deliveries lead to, with a supply that fits and an anchor that counts, no
operation on a block with its hash overflows exactly when what the block makes the node compute
stays in range. -/
theorem noOverflow_iff_of_run (hi : genesis.index = 0) {ds : List Delivery}
    (run : Runs.Run (Delivers core) (fresh env pot genesis) ds n)
    (hs : n.chain.totalSupply + 1 < 2 ^ 64) {a : AsertAnchor}
    (hanchor : n.chain.asertAnchor = some a) (hmin : minDifficulty ≤ a.difficulty) {now : ℕ}
    (hnow : now < 2 ^ 63) (hfits : b.Fits)
    (hhash : core.calculateHash b.toHeader = some b.hash) :
    (∀ op ∈ Blockchain.applyInMemoryOps core now n.chain b, op.Fits) ↔
      Blockchain.InRange core now n.chain b := by
  have hw := (sound_of_run hi run).window
  have hpos : 0 < n.chain.getHeight := by
    have := List.length_pos_of_ne_nil hw.nonempty
    rw [Blockchain.getHeight]
    omega
  exact Blockchain.applyInMemoryOps_fit_iff hs hanchor (hw.anchor a hanchor) hmin hpos
    (ticketsBelow_of_run hi run) (by omega) hfits hhash

end Node

namespace Sample

/-- A block after the first that claims the last index there is. -/
def farClaim : Block := block (2 ^ 64 - 1) mainBlock.hash 1748000120 32

def firstDelivery : List Node.Delivery := [⟨mainBlock, around 1748000200⟩]

/-- The node after the first block, and whether the operations on the two blocks fit. -/
theorem firstRun : ∃ n, Runs.Run (Node.Delivers plainCore) node firstDelivery n ∧
    n.chain.totalSupply + 1 < 2 ^ 64 ∧ n.chain.asertAnchor = some heightAnchor ∧
    ¬ ∀ op ∈ Blockchain.applyInMemoryOps plainCore 1748000200 n.chain farClaim, op.Fits := by
  have hrun : (node.applyBlocks plainCore firstDelivery).toOption.map
      (fun r : List BlockOutcome × Node =>
        (decide (r.2.chain.totalSupply + 1 < 2 ^ 64), r.2.chain.asertAnchor,
          decide (∀ op ∈ Blockchain.applyInMemoryOps plainCore 1748000200 r.2.chain farClaim,
            op.Fits))) = some (true, some heightAnchor, false) := by
    decide +kernel
  obtain ⟨⟨outcomes, n⟩, happ, hobs⟩ := Fallible.exists_of_toOption_map hrun
  simp only [Prod.mk.injEq, decide_eq_true_eq, decide_eq_false_iff_not] at hobs
  refine ⟨n, Node.run_of_applyBlocks ?_ happ, hobs⟩
  simp only [firstDelivery, List.mem_singleton]
  rintro d rfl
  exact ⟨by decide, by decide, by decide, by decide⟩

/-- The ideal time of the height that the block claims does not fit in 64 bits. -/
theorem farClaim_overflows : ∃ n, Runs.Run (Node.Delivers plainCore) node firstDelivery n ∧
    n.chain.totalSupply + 1 < 2 ^ 64 ∧ n.chain.asertAnchor = some heightAnchor ∧
    minDifficulty ≤ heightAnchor.difficulty ∧ farClaim.Fits ∧
    plainCore.calculateHash farClaim.toHeader = some farClaim.hash ∧
    ¬ ∀ op ∈ Blockchain.applyInMemoryOps plainCore 1748000200 n.chain farClaim, op.Fits := by
  obtain ⟨n, hrun, hsupply, hanchor, hover⟩ := firstRun
  exact ⟨n, hrun, hsupply, hanchor, by decide +kernel, by decide, by decide +kernel, hover⟩

theorem second_noOverflow : ∃ n, Runs.Run (Node.Delivers plainCore) node firstDelivery n ∧
    ((∀ op ∈ Blockchain.applyInMemoryOps plainCore 1748000200 n.chain secondBlock, op.Fits) ↔
      Blockchain.InRange plainCore 1748000200 n.chain secondBlock) := by
  obtain ⟨n, hrun, hsupply, hanchor, -⟩ := firstRun
  exact ⟨n, hrun, Node.noOverflow_iff_of_run rfl hrun hsupply hanchor (by decide +kernel)
    (by decide) (by decide) (by decide +kernel)⟩

end Sample

end Lootcoin
