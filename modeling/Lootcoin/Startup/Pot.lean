import Lootcoin.Startup.Account

/-! The pot over a run.  It holds its seed and the fees of the canonical chain, less what the chain
has paid out of it.  A draw takes a five-hundredth of it at most and no block settles two, so that
it shrinks by no more than that with each block and never runs dry. -/

namespace Lootcoin

namespace DerivedState

variable {core : Core} {hashAt : ℕ → Option Bytes} {s : DerivedState}

/-- The coins of payouts. -/
def paidOut (ps : List Payout) : ℕ := (ps.map fun p => p.amount).sum

/-- No tier pays more than the jackpot does. -/
theorem computeTicketReward_le (i : ℕ) (t : LootTicket) :
    jackpotDivisor * (s.computeTicketReward core hashAt i t).1 ≤ s.pot := by
  have hshare : ∀ divisor, jackpotDivisor ≤ divisor → jackpotDivisor * (s.pot / divisor) ≤ s.pot :=
    fun divisor hle => (Nat.mul_le_mul_right _ hle).trans (Nat.mul_div_le _ _)
  unfold computeTicketReward
  simp only
  split
  · exact Nat.zero_le _
  split
  · exact hshare smallDivisor (by decide)
  split
  · exact hshare mediumDivisor (by decide)
  split
  · exact hshare largeDivisor (by decide)
  · exact hshare jackpotDivisor (Nat.le_refl _)

/-- A single draw leaves all but a jackpot in the pot. -/
theorem paidOut_payoutsFrom_le {ts : List LootTicket} (h : ts.length ≤ 1) (pot : ℕ) :
    jackpotDivisor * paidOut (payoutsFrom core hashAt s pot ts) ≤ pot := by
  match ts with
  | [] => exact Nat.zero_le _
  | [t] =>
    have hreward : jackpotDivisor *
        ({ s with pot := pot }.computeTicketReward core hashAt t.createdHeight t).1 ≤ pot :=
      computeTicketReward_le t.createdHeight t
    rw [payoutsFrom]
    split
    · refine le_trans (Nat.mul_le_mul_left _ ?_) hreward
      exact Nat.min_le_left _ _
    · exact Nat.zero_le _
  | t :: u :: ts =>
    simp only [List.length_cons] at h
    omega

theorem minerShareOfPot_le (b : Block) : minerShareOfPot b ≤ exactFees b.transactions := by
  unfold minerShareOfPot
  split
  · exact Nat.div_le_self _ _
  · exact Nat.zero_le _

end DerivedState

namespace Blockchain

open DerivedState

variable {core : Core} {c c' d : Blockchain} {b : Block} {bs : List Block}

/-- The pot after some blocks. -/
def potAfter (core : Core) (c : Blockchain) (bs : List Block) : ℕ := (bs.foldl (after core) c).pot

theorem Grows.potAfter (h : Grows core c bs c') : Blockchain.potAfter core c bs = c'.pot := by
  rw [Blockchain.potAfter, h.foldl_after]

/-- What a block does to the pot: what it pays out, and what it leaves when it also shares fees. -/
theorem Appends.pot (h : Appends core c b d) (hs : c.totalSupply + 1 < 2 ^ 64)
    (hc : c.TicketsApart) :
    d.pot + (paidOut (c.maturingPayouts core c.blockHashAt b.index) + minerShareOfPot b) =
      c.pot + exactFees b.transactions ∧
    500 * paidOut (c.maturingPayouts core c.blockHashAt b.index) ≤ c.pot ∧
    499 * c.pot ≤ 500 * d.pot ∧ min c.pot 499 ≤ d.pot := by
  obtain ⟨now, hup⟩ := h
  have hpot := pot_of_updateState hs hup
  have hpaid : jackpotDivisor * paidOut (c.maturingPayouts core c.blockHashAt b.index) ≤ c.pot :=
    paidOut_payoutsFrom_le (hc.length_toSettle_le b.index) c.pot
  have hshare := minerShareOfPot_le b
  have hjackpot : jackpotDivisor = 500 := rfl
  rw [hjackpot] at hpaid
  replace hpot : (d.pot : ℤ) = c.pot -
      (paidOut (c.maturingPayouts core c.blockHashAt b.index) : ℕ) + exactFees b.transactions -
        minerShareOfPot b := hpot
  refine ⟨?_, hpaid, ?_, ?_⟩ <;> omega

/-- Every block of a branch pays out a five-hundredth of the pot that it finds at most, and leaves
the rest. -/
theorem Grows.takesShare (h : Grows core c bs c') (hs : c.totalSupply + bs.length < 2 ^ 64)
    (hc : c.TicketsApart) {front : List Block} (hfront : front ++ [b] <+: bs) :
    500 * paidOut (paidAlong core c bs b.index) ≤ Blockchain.potAfter core c front ∧
    499 * Blockchain.potAfter core c front ≤ 500 * Blockchain.potAfter core c (front ++ [b]) := by
  induction h generalizing front with
  | nil => simp at hfront
  | @cons c d c' x bs hstep hrest ih =>
    rw [List.length_cons] at hs
    have hsupply := hstep.totalSupply_le (by omega)
    cases front with
    | nil =>
      obtain ⟨rfl, -⟩ := List.cons_prefix_cons.mp hfront
      obtain ⟨-, hpaid, hdecay, -⟩ := hstep.pot (by omega) hc
      rw [paidAlong, if_pos rfl]
      show _ ≤ c.pot ∧ 499 * c.pot ≤ 500 * (c.after core b).pot
      rw [hstep.after]
      exact ⟨hpaid, hdecay⟩
    | cons y front =>
      obtain ⟨rfl, htail⟩ := List.cons_prefix_cons.mp hfront
      have hb : b ∈ bs := htail.subset (List.mem_append_right _ List.mem_cons_self)
      have hindex := hstep.appended.index
      have hheight := hstep.appended.getHeight
      have hlater := Grows.getHeight_le hrest b hb
      have hshare := ih (by omega) (hc.appended hstep.appended) htail
      rw [paidAlong, if_neg (by omega), hstep.after]
      simp only [Blockchain.potAfter, List.cons_append, List.foldl_cons, hstep.after] at hshare ⊢
      exact hshare

/-- What a branch does to the pot. -/
theorem Grows.pot (h : Grows core c bs c') (hs : c.totalSupply + bs.length < 2 ^ 64)
    (hc : c.TicketsApart) :
    c'.pot + (bs.map fun b => paidOut (paidAlong core c bs b.index) + minerShareOfPot b).sum =
      c.pot + (bs.map fun b => exactFees b.transactions).sum ∧
    499 ^ bs.length * c.pot ≤ 500 ^ bs.length * c'.pot ∧ min c.pot 499 ≤ c'.pot := by
  induction h with
  | nil => simp
  | @cons c d c' b bs hstep hrest ih =>
    rw [List.length_cons] at hs
    obtain ⟨hfirst, -, hdecay, hfloor⟩ := hstep.pot (by omega) hc
    have hsupply := hstep.totalSupply_le (by omega)
    obtain ⟨hlater, hdecay', hfloor'⟩ := ih (by omega) (hc.appended hstep.appended)
    have hpaid := map_paidAlong_cons hstep hrest fun x ps => paidOut ps + minerShareOfPot x
    refine ⟨?_, ?_, by omega⟩
    · rw [hpaid, List.sum_cons, List.map_cons, List.sum_cons]
      omega
    · calc 499 ^ (b :: bs).length * c.pot = 499 ^ bs.length * (499 * c.pot) := by
            rw [List.length_cons, pow_succ, Nat.mul_assoc]
        _ ≤ 499 ^ bs.length * (500 * d.pot) := Nat.mul_le_mul_left _ hdecay
        _ = 500 * (499 ^ bs.length * d.pot) := by ring
        _ ≤ 500 * (500 ^ bs.length * c'.pot) := Nat.mul_le_mul_left _ hdecay'
        _ = 500 ^ (b :: bs).length * c'.pot := by rw [List.length_cons, pow_succ]; ring

end Blockchain

namespace Node

open Blockchain (paidAlong potAfter)
open DerivedState (paidOut minerShareOfPot exactFees)

variable {core : Core} {n : Node} {env : Option ℚ} {pot : ℕ} {genesis : Block}

/-- Over every run in which forks replay completely, the pot holds its seed and the fees of the
canonical chain, less the payouts and the shares of the miners. Every block pays out at most a
five-hundredth of the pot that it finds, and leaves the rest, and the last 499 coins are never
paid. -/
theorem pot_of_run (hi : genesis.index = 0) (hpot : pot < 2 ^ 64) {ds : List Delivery}
    (run : Runs.Run (DeliversCompletely core) (fresh env pot genesis) ds n)
    (hsupply : (freshChain env pot genesis).totalSupply + n.chain.getHeight ≤ 2 ^ 64) :
    n.chain.pot + (n.canonicalChain.tail.map fun b => paidOut (paidAlong core
      (freshChain env pot genesis) n.canonicalChain.tail b.index) + minerShareOfPot b).sum =
        pot + (n.canonicalChain.tail.map fun b => exactFees b.transactions).sum ∧
    (potAfter core (freshChain env pot genesis) [] = pot ∧
      potAfter core (freshChain env pot genesis) n.canonicalChain.tail = n.chain.pot ∧
      ∀ front b, front ++ [b] <+: n.canonicalChain.tail →
        500 * paidOut (paidAlong core (freshChain env pot genesis) n.canonicalChain.tail b.index) ≤
          potAfter core (freshChain env pot genesis) front ∧
        499 * potAfter core (freshChain env pot genesis) front ≤
          500 * potAfter core (freshChain env pot genesis) (front ++ [b])) ∧
    499 ^ n.canonicalChain.tail.length * pot ≤
      500 ^ n.canonicalChain.tail.length * n.chain.pot ∧
    min pot 499 ≤ n.chain.pot := by
  obtain ⟨-, full, ht⟩ := consistent_of_run hi hpot run
  obtain ⟨rest, hrest, hgrow⟩ := ht.blocks
  have hfresh : (freshChain env pot genesis).TicketsApart :=
    ⟨List.nodup_nil, fun _ ht => by cases ht⟩
  have hseed : (freshChain env pot genesis).pot = pot := by
    show Word.saturatingAdd 64 0 pot = pot
    rw [Word.saturatingAdd_of_lt (by omega), Nat.zero_add]
  have hend : n.chain.pot = full.pot := congrArg DerivedState.pot ht.pruned.derived
  have hheight : n.chain.getHeight = rest.length + 1 := by
    rw [ht.getHeight, hrest, List.length_cons]
  obtain ⟨haccount, hdecay, hfloor⟩ := hgrow.pot (by omega) hfresh
  rw [hseed, ← hend] at haccount hdecay hfloor
  rw [ht.canonicalChain, hrest, List.tail_cons]
  exact ⟨haccount, ⟨hseed, hgrow.potAfter.trans hend.symm,
    fun front b hfront => hgrow.takesShare (by omega) hfresh hfront⟩, hdecay, hfloor⟩

end Node

namespace Sample

/-- The pot of a node whose last block settles a winning ticket. -/
theorem winning_pot : ∃ n : Node, n.chain.pot = 98802001 ∧
    n.chain.pot + (n.canonicalChain.tail.map fun b => DerivedState.paidOut
      (Blockchain.paidAlong winningCore (Node.freshChain none Node.genesisPotAmount genesis)
        n.canonicalChain.tail b.index) + DerivedState.minerShareOfPot b).sum =
        Node.genesisPotAmount +
          (n.canonicalChain.tail.map fun b => DerivedState.exactFees b.transactions).sum ∧
    (∀ front b, front ++ [b] <+: n.canonicalChain.tail →
      500 * DerivedState.paidOut (Blockchain.paidAlong winningCore
        (Node.freshChain none Node.genesisPotAmount genesis) n.canonicalChain.tail b.index) ≤
        Blockchain.potAfter winningCore
          (Node.freshChain none Node.genesisPotAmount genesis) front) ∧
    min Node.genesisPotAmount 499 ≤ n.chain.pot := by
  obtain ⟨n, hrun, hheight, hpot, -⟩ := winningRun
  have hsupply : (Node.freshChain none Node.genesisPotAmount genesis).totalSupply +
      n.chain.getHeight ≤ 2 ^ 64 := by
    rw [hheight]
    decide +kernel
  obtain ⟨haccount, ⟨-, -, hshares⟩, -, hfloor⟩ :=
    Node.pot_of_run rfl (by decide) (hrun.mono fun h => h.1) hsupply
  exact ⟨n, hpot, haccount, fun front b hfront => (hshares front b hfront).1, hfloor⟩

end Sample

end Lootcoin
