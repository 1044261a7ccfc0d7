import Lootcoin.Chain.Supply
import Lootcoin.Node.Canonical

/-! The replay set.  A chain that blocks grow confirms the signatures of their transfers, each once,
so the set of a node holds the signatures of its canonical chain and no others, also after the
chain has changed. -/

namespace Lootcoin

namespace DerivedState

variable {core : Core} {s s' : DerivedState}

/-! ### One block -/

theorem applyTransaction_signatures (s : DerivedState) (tx : Transaction) :
    (s.applyTransaction tx).confirmedSignatures = s.confirmedSignatures ∨
      tx.isCoinbase = false ∧
      (s.applyTransaction tx).confirmedSignatures = insert tx.signature s.confirmedSignatures := by
  unfold applyTransaction
  split
  · exact .inl rfl
  · rename_i hc
    simp only
    split
    · exact .inl rfl
    · split
      · exact .inl rfl
      · exact .inr ⟨by simpa using hc, rfl⟩

theorem applyTransactions_signatures {txs : List Transaction}
    (h : s.applyTransactions txs = .ok s') :
    s'.confirmedSignatures = s.confirmedSignatures ∪ (signaturesIn txs).toFinset := by
  induction txs generalizing s with
  | nil =>
    cases h
    simp
  | cons tx txs ih =>
    rw [applyTransactions] at h
    split at h
    · cases h
    rename_i hrecorded
    rw [ih h]
    cases hc : tx.isCoinbase with
    | true =>
      rcases s.applyTransaction_signatures tx with hsame | ⟨hc', -⟩
      · rw [hsame, signaturesIn_coinbase hc]
      · rw [hc] at hc'
        cases hc'
    | false =>
      have hmem : tx.signature ∈ (s.applyTransaction tx).confirmedSignatures := by
        by_contra hnot
        exact hrecorded ⟨by simp [hc], hnot⟩
      have hinsert : (s.applyTransaction tx).confirmedSignatures =
          insert tx.signature s.confirmedSignatures := by
        rcases s.applyTransaction_signatures tx with hsame | ⟨-, hnew⟩
        · rw [hsame] at hmem ⊢
          exact (Finset.insert_eq_of_mem hmem).symm
        · exact hnew
      rw [hinsert, signaturesIn_transfer hc, List.toFinset_cons, Finset.insert_union,
        Finset.union_insert]

/-- Pre-validation lets no signature pass that is confirmed or that it has seen. -/
theorem prevalidate_signatures {txs : List Transaction} {acc acc' : Prevalidation}
    (h : txs.foldlM (prevalidateTransaction core s) acc = some acc') :
    (signaturesIn txs).Nodup ∧
      ∀ sig ∈ signaturesIn txs, sig ∉ s.confirmedSignatures ∧ sig ∉ acc.blockSigs := by
  induction txs generalizing acc with
  | nil => simp
  | cons tx txs ih =>
    rw [List.foldlM_cons, Option.bind_eq_bind, Option.bind_eq_some_iff] at h
    obtain ⟨mid, hmid, h⟩ := h
    obtain ⟨hnodup, hfresh⟩ := ih h
    cases hc : tx.isCoinbase with
    | true =>
      rw [prevalidateTransaction_coinbase hc, Option.some.injEq] at hmid
      subst hmid
      rw [signaturesIn_coinbase hc]
      exact ⟨hnodup, hfresh⟩
    | false =>
      obtain ⟨-, -, -, hconfirmed, hseen, -, -, rfl⟩ := (prevalidateTransaction_transfer hc).mp hmid
      rw [signaturesIn_transfer hc]
      refine ⟨List.nodup_cons.mpr ⟨fun hmem => ?_, hnodup⟩, fun sig hsig => ?_⟩
      · exact (hfresh _ hmem).2 (Finset.mem_insert_self _ _)
      · rcases List.mem_cons.mp hsig with rfl | hsig
        · exact ⟨hconfirmed, hseen⟩
        · exact ⟨(hfresh _ hsig).1, fun hm => (hfresh _ hsig).2 (Finset.mem_insert_of_mem hm)⟩

end DerivedState

namespace Blockchain

variable {core : Core} {c c' : Blockchain} {b : Block}

/-- What an append confirms: the transfers of its block, none of them for the second time. -/
theorem Appended.signatures (h : Appended core c b c') :
    (signaturesIn b.transactions).Nodup ∧
      (∀ sig ∈ signaturesIn b.transactions, sig ∉ c.confirmedSignatures) ∧
      c'.confirmedSignatures = c.confirmedSignatures ∪ (signaturesIn b.transactions).toFinset := by
  obtain ⟨-, -, -, -, -, -, acc, hpre⟩ := DerivedState.validBody_iff.mp h.validBody
  obtain ⟨hnodup, hfresh⟩ := DerivedState.prevalidate_signatures hpre
  refine ⟨hnodup, fun sig hsig => (hfresh sig hsig).1, ?_⟩
  obtain ⟨payouts, hadv⟩ := h.advance
  obtain ⟨applied, happly, -, hs', -⟩ := DerivedState.advance_eq_ok.mp hadv
  have hsettled :=
    (DerivedState.settleTickets_sameButCoins core c.blockHashAt c.toDerivedState b.index)
  have hpaid := applied.payMiner_sameButCoins b
  rw [hs', DerivedState.adjustDifficulty_confirmedSignatures]
  show (applied.payMiner b).confirmedSignatures = _
  rw [hpaid.confirmedSignatures, DerivedState.applyTransactions_signatures happly,
    hsettled.confirmedSignatures]

/-- What a chain confirms while it grows: the transfers of the new blocks, none of them twice and
none that was confirmed before. -/
theorem Grows.signatures {bs : List Block} (h : Grows core c bs c') :
    (signaturesOf bs).Nodup ∧ (∀ sig ∈ signaturesOf bs, sig ∉ c.confirmedSignatures) ∧
      c'.confirmedSignatures = c.confirmedSignatures ∪ (signaturesOf bs).toFinset := by
  induction h with
  | nil => simp [signaturesOf]
  | cons hs _ ih =>
    obtain ⟨hblock, hfresh, hconfirmed⟩ := hs.appended.signatures
    obtain ⟨hnodup, hlater, hall⟩ := ih
    rw [hconfirmed] at hlater hall
    simp only [signaturesOf, List.flatMap_cons] at hnodup hlater hall ⊢
    refine ⟨hblock.append hnodup fun sig hsig hsig' => ?_, fun sig hsig => ?_, ?_⟩
    · exact hlater sig hsig' (Finset.mem_union_right _ (List.mem_toFinset.mpr hsig))
    · rcases List.mem_append.mp hsig with hsig | hsig
      · exact hfresh sig hsig
      · exact fun hm => hlater sig hsig (Finset.mem_union_left _ hm)
    · rw [hall, List.toFinset_append, Finset.union_assoc]

end Blockchain

namespace Node

variable {core : Core} {n n' : Node} {env : Option ℚ} {pot : ℕ} {genesis : Block}
  {full : Blockchain}

/-! ### Runs -/

/-- A node confirms the signatures of its canonical chain above the genesis block, each once. -/
theorem Tracks.signatures (ht : Tracks core env pot genesis n full) :
    (signaturesOf n.canonicalChain.tail).Nodup ∧
      n.chain.confirmedSignatures = (signaturesOf n.canonicalChain.tail).toFinset := by
  obtain ⟨rest, hrest, hgrow⟩ := ht.blocks
  obtain ⟨hnodup, -, hconfirmed⟩ := hgrow.signatures
  rw [ht.canonicalChain, hrest, ht.pruned.derived]
  refine ⟨hnodup, hconfirmed.trans ?_⟩
  show ∅ ∪ (signaturesOf rest).toFinset = (signaturesOf rest).toFinset
  rw [Finset.empty_union]

theorem signaturesOf_mainnet {txRoot : Bytes} {l rest : List Block}
    (h : l = mainnetGenesis txRoot :: rest) : signaturesOf l = signaturesOf l.tail := by
  subst h
  rfl

/-- Every node of a run whose forks replay completely holds each signature in one transfer of the
canonical chain at most, and its replay set holds exactly the signatures above the genesis block.
When a further delivery replaces the end of the chain, the signatures that are only on the part
displaced leave the set. -/
theorem confirmed_once {txRoot : Bytes} {ds : List Delivery}
    (run : Runs.Run (DeliversCompletely core)
      (fresh env genesisPotAmount (mainnetGenesis txRoot)) ds n) :
    (signaturesOf n.canonicalChain).Nodup ∧
    n.chain.confirmedSignatures = (signaturesOf n.canonicalChain.tail).toFinset ∧
    ∀ d n', DeliversCompletely core n d n' → ∀ stem displaced branch,
      n.canonicalChain = stem ++ displaced → n'.canonicalChain = stem ++ branch →
      ∀ sig ∈ signaturesOf displaced, sig ∉ signaturesOf branch →
        sig ∉ n'.chain.confirmedSignatures := by
  have hsigs : ∀ {m : Node} {es : List Delivery}, Runs.Run (DeliversCompletely core)
      (fresh env genesisPotAmount (mainnetGenesis txRoot)) es m →
      (signaturesOf m.canonicalChain).Nodup ∧
      signaturesOf m.canonicalChain = signaturesOf m.canonicalChain.tail ∧
      m.chain.confirmedSignatures = (signaturesOf m.canonicalChain.tail).toFinset := by
    intro m es hrun
    obtain ⟨-, full, ht⟩ := consistent_of_run (by rfl) (by decide) hrun
    obtain ⟨rest, hrest, -⟩ := ht.blocks
    have hsame := signaturesOf_mainnet (ht.canonicalChain.trans hrest)
    obtain ⟨hnodup, hconfirmed⟩ := ht.signatures
    exact ⟨hsame ▸ hnodup, hsame, hconfirmed⟩
  obtain ⟨hnodup, -, hconfirmed⟩ := hsigs run
  refine ⟨hnodup, hconfirmed, ?_⟩
  intro d n' hstep stem displaced branch hold hnew sig hdisplaced hbranch hmem
  obtain ⟨-, hsame, hconfirmed'⟩ := hsigs (run.snoc hstep)
  rw [hconfirmed', ← hsame, hnew, signaturesOf_append, List.mem_toFinset, List.mem_append] at hmem
  rw [hold, signaturesOf_append] at hnodup
  rcases hmem with hstem | hbranch'
  · -- a signature of the stem is not on the displaced part, where it would be for the second time
    exact List.disjoint_of_nodup_append hnodup hstem hdisplaced
  · exact hbranch hbranch'

end Node

namespace Sample

/-- A payment out of the genesis balance, and a block that confirms it and nothing else. -/
def payment : Transaction := coins Node.genesisAddress "payee" 600 10 7

def paymentBlock : Block := blockOf [payment] 1 [] 1748000060 32

def paymentDelivery : Node.Delivery := ⟨paymentBlock, around 1748000160⟩

def rivalDelivery : Node.Delivery := ⟨rivalBlock, around 1748000160⟩

/-- The rival block displaces the payment. -/
theorem paymentRun : ∃ n n', Runs.Run (Node.DeliversCompletely plainCore) node [paymentDelivery] n ∧
    Node.DeliversCompletely plainCore n rivalDelivery n' ∧
    n.canonicalChain = [genesis, paymentBlock] ∧ n'.canonicalChain = [genesis, rivalBlock] := by
  have hrun : ((runCompletely node [paymentDelivery]).bind fun n =>
      (runCompletely n [rivalDelivery]).map fun n' => (n.canonicalChain, n'.canonicalChain)) =
      some ([genesis, paymentBlock], [genesis, rivalBlock]) := by
    decide +kernel
  obtain ⟨n, hn, hrun⟩ := Option.bind_eq_some_iff.mp hrun
  obtain ⟨n', hn', hchains⟩ := Option.map_eq_some_iff.mp hrun
  obtain ⟨hchain, hchain'⟩ := Prod.mk.inj hchains
  refine ⟨n, n', run_of_runCompletely hn, ?_, hchain, hchain'⟩
  cases run_of_runCompletely hn' with
  | cons hstep hnil =>
    cases hnil
    exact hstep

theorem payment_confirmed_once : ∃ n n',
    Node.DeliversCompletely plainCore n rivalDelivery n' ∧
    n.chain.confirmedSignatures = (signaturesOf n.canonicalChain.tail).toFinset ∧
    payment.signature ∈ n.chain.confirmedSignatures ∧
    payment.signature ∉ n'.chain.confirmedSignatures := by
  obtain ⟨n, n', hrun, hstep, hchain, hchain'⟩ := paymentRun
  obtain ⟨-, hsigs, hgone⟩ := Node.confirmed_once hrun
  refine ⟨n, n', hstep, hsigs, ?_, ?_⟩
  · rw [hsigs, hchain]
    decide +kernel
  · exact hgone _ n' hstep [genesis] [paymentBlock] [rivalBlock] hchain hchain' _
      (by decide +kernel) (by decide +kernel)

end Sample

end Lootcoin
