import Lootcoin.Api
import Lootcoin.Sample
import Lootcoin.Chain.Supply
import Lootcoin.Node.Sound

/-! The two ways for a block into the chain.  The handler checks the shape of a block before it asks
the chain, which a synchronization asks at once.  On a block that follows the tip the two agree but
for one rule, which the chain does not have: the first transaction is a coinbase. -/

namespace Lootcoin

variable {core : Core} {ambient : Ambient} {b : Block}

/-- What a block shows that passes the checks of the handler. -/
structure WellShaped (core : Core) (b : Block) (coinbase : Transaction) (rest : List Transaction) :
    Prop where
  transactions : b.transactions = coinbase :: rest
  count : b.transactions.length ≤ maxBlockTxs + 1
  isCoinbase : coinbase.isCoinbase = true
  amount : coinbase.amount ≤ 1
  fee : coinbase.fee = 0
  receiver : isValidAddress core coinbase.receiver = true
  transfers : ∀ tx ∈ rest, tx.isCoinbase = false
  hash : core.calculateHash b.toHeader = some b.hash

theorem incomingBlockError_eq_none :
    incomingBlockError core b = none ↔ ∃ coinbase rest, WellShaped core b coinbase rest := by
  unfold incomingBlockError
  constructor
  · intro h
    split at h
    · cases h
    rename_i coinbase rest htxs
    split at h
    · cases h
    rename_i hcount
    split at h
    · cases h
    rename_i hcoinbase
    split at h
    · cases h
    rename_i hamount
    split at h
    · cases h
    rename_i hfee
    split at h
    · cases h
    rename_i hreceiver
    split at h
    · cases h
    rename_i hrest
    split at h
    · cases h
    rename_i recomputed hhash
    split at h
    · cases h
    rename_i heq
    exact ⟨coinbase, rest, htxs, Nat.not_lt.mp hcount, by simpa using hcoinbase,
      Nat.not_lt.mp hamount, not_not.mp hfee, by simpa using hreceiver, by simpa using hrest,
      hhash.trans (congrArg some (not_not.mp heq))⟩
  · rintro ⟨coinbase, rest, h⟩
    have hrest : (rest.any fun tx => tx.isCoinbase) = false := by
      simpa using h.transfers
    simp only [h.transactions]
    rw [← h.transactions, if_neg (Nat.not_lt.mpr h.count), if_neg (by simp [h.isCoinbase]),
      if_neg (Nat.not_lt.mpr h.amount), if_neg (not_not.mpr h.fee), if_neg (by simp [h.receiver]),
      if_neg (by simp [hrest])]
    simp [h.hash]

/-- A block that the rules of the chain accept passes the checks of the handler exactly when it
starts with a coinbase. -/
theorem wellShaped_iff_of_validBody {s : DerivedState} (hv : s.validBody core b = true) :
    incomingBlockError core b = none ↔ (extractMinerAddress b).isSome = true := by
  obtain ⟨hhash, -, hcount, hrest, hcoin, -⟩ := DerivedState.validBody_iff.mp hv
  rw [incomingBlockError_eq_none]
  constructor
  · rintro ⟨coinbase, rest, h⟩
    simp [extractMinerAddress, h.transactions, h.isCoinbase]
  · intro hminer
    cases htxs : b.transactions with
    | nil => simp [extractMinerAddress, htxs] at hminer
    | cons coinbase rest =>
      have hc : coinbase.isCoinbase = true := by
        by_contra hc
        simp [extractMinerAddress, htxs, hc] at hminer
      have htransfers : ∀ tx ∈ rest, tx.isCoinbase = false := by
        intro tx htx
        exact hrest tx (by simpa [htxs] using htx)
      have hall : rest.countP (fun tx => !tx.isCoinbase) = rest.length :=
        List.countP_eq_length.mpr fun tx htx => by simp [htransfers tx htx]
      simp only [DerivedState.validCoinbase, htxs, List.head?_cons, hc,
        Bool.not_true, Bool.false_or, Bool.and_eq_true, decide_eq_true_eq, beq_iff_eq] at hcoin
      rw [nonCoinbaseCount, htxs, List.countP_cons_of_neg (by simp [hc]), hall] at hcount
      refine ⟨coinbase, rest, htxs, ?_, hc, hcoin.1.1, hcoin.1.2, hcoin.2, htransfers, hhash⟩
      rw [htxs, List.length_cons]
      omega

namespace Node

/-- The blocks that a node appends: those that the rules accept and that can be applied. -/
theorem applied_iff {n : Node} :
    (∃ n', n.applyBlock core ambient b = .ok (.applied, n')) ↔
      n.chain.acceptsBlock core (ambient.clock 0) b = true ∧
        (n.chain.advance core n.chain.blockHashAt b).toOption.isSome = true := by
  constructor
  · rintro ⟨n', h⟩
    cases effect_of_applyBlock h with
    | applied hup _ _ =>
      obtain ⟨hacc, s, payouts, hadv, -⟩ := Blockchain.updateState_eq_some.mp hup
      rw [hadv]
      exact ⟨hacc, rfl⟩
  · rintro ⟨hacc, hadv⟩
    obtain ⟨⟨s, payouts⟩, hadv⟩ := Option.isSome_iff_exists.mp hadv
    have hup := Blockchain.updateState_eq_some.mpr
      ⟨hacc, s, payouts, Fallible.toOption_eq_some.mp hadv, rfl⟩
    have hlast : (n.chain.commitBlock b s payouts).blocks.getLast? = some b := by
      simp [Blockchain.commitBlock]
    exact ⟨_, applyBlock_eq_ok.mpr ⟨_, Blockchain.applyInMemory_eq_ok.mpr (.inl ⟨rfl, hup⟩),
      .inl ⟨rfl, b, hlast, rfl⟩⟩⟩

theorem outcome_of_linksToTip {n n' : Node} {outcome : BlockOutcome}
    (hlink : n.chain.linksToTip b = true)
    (h : n.applyBlock core ambient b = .ok (outcome, n')) :
    outcome = .applied ∨ outcome = .rejected := by
  have hpool : ∀ {d : Blockchain}, n.chain.admits core ambient b ≠ some d := by
    intro d hadm
    rw [(Blockchain.admits_eq_some.mp hadm).2.1] at hlink
    cases hlink
  cases effect_of_applyBlock h with
  | applied => exact .inl rfl
  | rejected => exact .inr rfl
  | orphaned hadm => exact absurd hadm hpool
  | reorged hre => exact absurd hre.admits hpool

end Node

namespace AppState

variable {s s' : AppState} {answer : Except String Bool}

/-- The handler refuses a block by its shape, or asks the chain and follows the outcome. -/
theorem applyIncomingBlock_eq_ok : s.applyIncomingBlock core ambient b = .ok (answer, s') ↔
    (∃ message, incomingBlockError core b = some message ∧ answer = .error message ∧ s' = s) ∨
    incomingBlockError core b = none ∧ ∃ outcome node,
      s.node.applyBlock core ambient b = .ok (outcome, node) ∧
      s.afterOutcome core b node outcome = (answer, s') := by
  unfold applyIncomingBlock
  cases herr : incomingBlockError core b with
  | some message => simp [eq_comm]
  | none =>
    simp only [Fallible.bind_eq_ok, Fallible.pure_eq_ok, reduceCtorEq, false_and, exists_false,
      false_or, true_and]
    constructor
    · rintro ⟨⟨outcome, node⟩, happ, h⟩
      exact ⟨outcome, node, happ, h⟩
    · rintro ⟨outcome, node, happ, h⟩
      exact ⟨(outcome, node), happ, h⟩

/-- The handler takes a block that follows the tip exactly where its shape is right and the chain
appends it. -/
theorem takes_iff (hlink : s.node.chain.linksToTip b = true) :
    (∃ s', s.applyIncomingBlock core ambient b = .ok (.ok true, s')) ↔
      incomingBlockError core b = none ∧
        ∃ n', s.node.applyBlock core ambient b = .ok (.applied, n') := by
  constructor
  · rintro ⟨s', h⟩
    rcases applyIncomingBlock_eq_ok.mp h with ⟨_, -, hmsg, -⟩ |
      ⟨hshape, outcome, node, happ, hafter⟩
    · cases hmsg
    refine ⟨hshape, node, ?_⟩
    rcases Node.outcome_of_linksToTip hlink happ with rfl | rfl
    · exact happ
    · simp [afterOutcome] at hafter
  · rintro ⟨hshape, n', happ⟩
    exact ⟨_, applyIncomingBlock_eq_ok.mpr (.inr ⟨hshape, .applied, n', happ, rfl⟩)⟩

/-- On a block that follows the tip, the handler and the chain agree exactly where the block starts
with a coinbase, or the rules refuse it, or its application aborts the node on both ways. -/
theorem entries_agree_iff (hlink : s.node.chain.linksToTip b = true) :
    ((∃ s', s.applyIncomingBlock core ambient b = .ok (.ok true, s')) ↔
      ∃ n', s.node.applyBlock core ambient b = .ok (.applied, n')) ↔
    (extractMinerAddress b).isSome = true ∨
      s.node.chain.acceptsBlock core (ambient.clock 0) b = false ∨
      (s.node.chain.advance core s.node.chain.blockHashAt b).toOption = none := by
  rw [takes_iff hlink, Node.applied_iff]
  cases hacc : s.node.chain.acceptsBlock core (ambient.clock 0) b with
  | false => simp
  | true =>
    have hv := (Blockchain.acceptsBlock_iff.mp hacc).2.2.2
    rw [wellShaped_iff_of_validBody hv]
    cases (s.node.chain.advance core s.node.chain.blockHashAt b).toOption with
    | none => simp
    | some r => cases (extractMinerAddress b).isSome <;> simp

end AppState

namespace Sample

/-- The main network's node with an empty pool. -/
def app : AppState := AppState.fresh none Node.genesisPotAmount genesis

/-- A block that pays its miner. -/
def minedBlock : Block := blockOf [coins "" "miner" 1 0 1] 1 [] 1748000060 32

theorem minedBlock_entries_agree :
    (∃ s', app.applyIncomingBlock plainCore (around 1748000160) minedBlock = .ok (.ok true, s')) ↔
      ∃ n', app.node.applyBlock plainCore (around 1748000160) minedBlock = .ok (.applied, n') :=
  (AppState.entries_agree_iff (by decide +kernel)).mpr (.inl (by decide +kernel))

/-- A block without transactions follows the tip: the chain appends it, and the handler refuses
it. -/
theorem mainBlock_entries_differ : app.node.chain.linksToTip mainBlock = true ∧
    app.applyIncomingBlock plainCore (around 1748000160) mainBlock =
      .ok (.error "block has no transactions", app) ∧
    ∃ n', app.node.applyBlock plainCore (around 1748000160) mainBlock = .ok (.applied, n') :=
  ⟨by decide +kernel, rfl, Node.applied_iff.mpr (by decide +kernel)⟩

end Sample

end Lootcoin
