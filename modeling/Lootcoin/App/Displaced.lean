import Lootcoin.App.Steps
import Lootcoin.Node.Confirmed
import Lootcoin.Node.Work

/-! Displaced transactions after a reorganization.  They come back one after the other, each if the
balance of its sender leaves room for it beside everything pending.  At that moment the pool still
holds the transactions of the new branch, which the new balances have paid for, so their cost counts
twice and may keep a valid transaction out. -/

namespace Lootcoin

namespace Mempool

/-- A transfer that is not pending. -/
def lacks (p : Mempool) (tx : Transaction) : Bool := !tx.isCoinbase && !p.contains tx.signature

/-- No limit is reached when all transfers of a list that are not pending come. -/
structure HasRoom (p : Mempool) (txs : List Transaction) : Prop where
  pool : p.len + txs.countP p.lacks ≤ maxMempoolSize
  sender : ∀ a, p.pendingCount a + txs.countP (fun tx => p.lacks tx && tx.sender == a) ≤
    maxPendingPerSender

/-- Going through displaced transactions in order, with what each sender owes: a coinbase or what is
pending is passed over, what the balance leaves room for is owed from there on, and all else is on
the new branch. -/
def AllFit (pending : Bytes → Bool) (getBalance : Address → ℕ) (branch : List Bytes) :
    (Address → ℕ) → List Transaction → Prop
  | _, [] => True
  | owed, tx :: txs =>
    if tx.isCoinbase ∨ pending tx.signature then AllFit pending getBalance branch owed txs
    else if costOf tx ≤ getBalance tx.sender - owed tx.sender then
      AllFit pending getBalance branch
        (fun a => Word.saturatingAdd 64 (owed a) (if tx.sender = a then costOf tx else 0)) txs
    else tx.signature ∈ branch ∧ AllFit pending getBalance branch owed txs

/-- Each sender can pay at once for what is pending and what was displaced, each counted once and
without what is on the new branch. -/
def JointlyAffordable (getBalance : Address → ℕ) (branch : List Bytes) (p : Mempool)
    (displaced : List Transaction) : Prop :=
  ∀ a, HashTable.weigh (fun sig e => if sig ∈ branch then 0 else debitWeight a sig e) p.entries +
    ((displaced.filter fun tx => tx.isCoinbase = false ∧ tx.sender = a ∧ tx.signature ∉ branch ∧
      p.contains tx.signature = false).map costOf).sum ≤ getBalance a

/-- What is pending under the signature of a displaced transaction outside the new branch is that
transaction, and has not expired. -/
def PendingOnesStay (branch : List Bytes) (height : ℕ) (p : Mempool)
    (displaced : List Transaction) : Prop :=
  ∀ tx ∈ displaced, tx.isCoinbase = false → tx.signature ∉ branch →
    ∀ e, p.entries.lookup tx.signature = some e → e.tx = tx ∧ e.unexpired height = true

/-- A pool holds every displaced transaction outside the new branch, and none of the branch. -/
structure LosesNone (branch : List Bytes) (displaced : List Transaction) (p : Mempool) : Prop where
  displaced : ∀ tx ∈ displaced, tx.isCoinbase = false → tx.signature ∉ branch →
    ∃ e, p.entries.lookup tx.signature = some e ∧ e.tx = tx
  branch : ∀ sig ∈ branch, p.entries.lookup sig = none

variable {core : Core} {p : Mempool} {tx : Transaction} {txs txs' : List Transaction} {sig : Bytes}
  {e : MempoolEntry} {height : ℕ} {getBalance : Address → ℕ} {branch : List Bytes}

/-! ### Room -/

theorem HasRoom.of_sublist (h : p.HasRoom txs') (hsub : txs.Sublist txs') : p.HasRoom txs :=
  ⟨(Nat.add_le_add_left hsub.countP_le _).trans h.pool,
    fun a => (Nat.add_le_add_left hsub.countP_le _).trans (h.sender a)⟩

theorem HasRoom.put (h : p.HasRoom (tx :: txs)) (hc : tx.isCoinbase = false)
    (hfresh : p.contains tx.signature = false) : (p.put core tx height hc).HasRoom txs := by
  have hlacks : p.lacks tx = true := by simp [lacks, hc, hfresh]
  have hless : ∀ x, (p.put core tx height hc).lacks x = true → p.lacks x = true := by
    intro x hx
    simp only [lacks, Bool.and_eq_true, Bool.not_eq_true', contains_eq_false] at hx ⊢
    refine ⟨hx.1, ?_⟩
    have hnone := hx.2
    rw [lookup_put] at hnone
    split at hnone
    · cases hnone
    · exact hnone
  refine ⟨?_, fun a => ?_⟩
  · have hpool := h.pool
    have hmono := List.countP_mono_left (l := txs) fun x _ => hless x
    rw [List.countP_cons_of_pos hlacks] at hpool
    rw [len_eq, weigh_put hc hfresh, ← len_eq]
    omega
  · have hsender := h.sender a
    have hmono := List.countP_mono_left (l := txs)
      (p := fun x => (p.put core tx height hc).lacks x && x.sender == a)
      (q := fun x => p.lacks x && x.sender == a) fun x _ hx => by
        rw [Bool.and_eq_true] at hx ⊢
        exact ⟨hless x hx.1, hx.2⟩
    rw [List.countP_cons, hlacks, Bool.true_and] at hsender
    rw [pendingCount_eq, weigh_put hc hfresh, ← pendingCount_eq]
    simp only [beq_iff_eq] at hsender ⊢
    omega

/-- A pool and a list that are both small leave room. -/
theorem hasRoom_of_few (h : p.len + txs.length ≤ maxPendingPerSender) : p.HasRoom txs := by
  have hcap : maxPendingPerSender ≤ maxMempoolSize := by decide
  refine ⟨?_, fun a => ?_⟩
  · have hcount := List.countP_le_length (p := p.lacks) (l := txs)
    omega
  · have hcount := List.countP_le_length (p := fun tx => p.lacks tx && tx.sender == a) (l := txs)
    have hpending : p.pendingCount a ≤ p.len := by
      rw [pendingCount, entriesOf, len, HashTable.size, HashTable.values]
      exact (List.length_filter_le _ _).trans (List.length_map _).le
    omega

/-- With room, a transaction comes back unless it is a coinbase, is pending, or costs too much. -/
theorem readdDisplaced_cons (h : p.HasRoom (tx :: txs)) :
    p.readdDisplaced core getBalance height (tx :: txs) =
      if hback : tx.isCoinbase = false ∧ p.contains tx.signature = false ∧
          costOf tx ≤ getBalance tx.sender - p.pendingDebit tx.sender then
        (p.put core tx height hback.1).readdDisplaced core getBalance height txs
      else p.readdDisplaced core getBalance height txs := by
  rw [readdDisplaced]
  split
  · rename_i hc
    rw [dif_neg (by simp [hc])]
  rename_i hc
  split
  · rename_i hpending
    rw [dif_neg (by simp [hpending])]
  rename_i hfresh
  have hlacks : p.lacks tx = true := by
    simp [lacks, Bool.eq_false_of_not_eq_true hc, Bool.eq_false_of_not_eq_true hfresh]
  have hpool := h.pool
  have hsender := h.sender tx.sender
  rw [List.countP_cons_of_pos hlacks] at hpool
  rw [List.countP_cons_of_pos (by simp [hlacks])] at hsender
  rw [if_neg (by omega), if_neg (by omega)]
  split
  · rename_i hcost
    rw [dif_neg fun hback => Nat.not_lt.mpr hback.2.2 hcost]
  · rename_i hcost
    rw [dif_pos ⟨Bool.eq_false_of_not_eq_true hc, Bool.eq_false_of_not_eq_true hfresh,
      Nat.not_lt.mp hcost⟩]

/-- With room for all, transactions come back in two parts as they do in one, and the first part
leaves room for the second. -/
theorem readdDisplaced_append (h : p.HasRoom (txs ++ txs')) :
    (p.readdDisplaced core getBalance height txs).HasRoom txs' ∧
      p.readdDisplaced core getBalance height (txs ++ txs') =
        (p.readdDisplaced core getBalance height txs).readdDisplaced core getBalance height
          txs' := by
  induction txs generalizing p with
  | nil => exact ⟨h, rfl⟩
  | cons tx txs ih =>
    have hfirst : p.HasRoom (tx :: txs) :=
      h.of_sublist (List.sublist_append_left (tx :: txs) txs')
    rw [List.cons_append] at h ⊢
    rw [readdDisplaced_cons h, readdDisplaced_cons hfirst]
    split
    · rename_i hback
      exact ih (h.put hback.1 hback.2.1)
    · exact ih (h.of_sublist (List.sublist_cons_self _ _))

theorem readdBlocks_eq {bs : List Block} (h : p.HasRoom (transactionsOf bs)) :
    p.readdBlocks core getBalance height bs =
      p.readdDisplaced core getBalance height (transactionsOf bs) := by
  induction bs generalizing p with
  | nil => rfl
  | cons b bs ih =>
    have hparts : (p.readdDisplaced core getBalance height b.transactions).HasRoom
          (transactionsOf bs) ∧
        p.readdDisplaced core getBalance height (b.transactions ++ transactionsOf bs) =
          (p.readdDisplaced core getBalance height b.transactions).readdDisplaced core getBalance
            height (transactionsOf bs) := readdDisplaced_append h
    exact (ih hparts.1).trans hparts.2.symm

/-! ### All of them -/

/-- With room, what is not pending and not on the new branch all comes back exactly when it fits. -/
theorem readdDisplaced_all_iff {pending : Bytes → Bool} {owed : Address → ℕ}
    (hroom : p.HasRoom txs) (hnodup : (signaturesIn txs).Nodup)
    (hpending : ∀ sig ∈ signaturesIn txs, p.contains sig = pending sig)
    (howed : ∀ a, owed a = p.pendingDebit a) :
    (∀ tx ∈ txs, tx.isCoinbase = false → tx.signature ∉ branch → pending tx.signature = false →
      (p.readdDisplaced core getBalance height txs).entries.lookup tx.signature =
        some ⟨tx, height⟩) ↔ AllFit pending getBalance branch owed txs := by
  induction txs generalizing p owed with
  | nil => simp [AllFit]
  | cons tx txs ih =>
    have hcons : p.readdDisplaced core getBalance height (tx :: txs) = _ :=
      readdDisplaced_cons hroom
    rw [AllFit, List.forall_mem_cons]
    cases hc : tx.isCoinbase with
    | true =>
      rw [signaturesIn_coinbase hc] at hnodup hpending
      rw [hcons, dif_neg (by simp [hc]), if_pos (.inl rfl),
        ← ih (hroom.of_sublist (List.sublist_cons_self tx txs)) hnodup hpending howed]
      exact and_iff_right fun h => by cases h
    | false =>
      rw [signaturesIn_transfer hc, List.nodup_cons] at hnodup
      rw [signaturesIn_transfer hc, List.forall_mem_cons] at hpending
      cases hp : pending tx.signature with
      | true =>
        rw [hcons, dif_neg (by simp [hpending.1, hp]), if_pos (.inr rfl),
          ← ih (hroom.of_sublist (List.sublist_cons_self tx txs)) hnodup.2 hpending.2 howed]
        exact and_iff_right fun _ _ h => by cases h
      | false =>
        have hfresh : p.contains tx.signature = false := hpending.1.trans hp
        rw [if_neg (by simp), howed]
        by_cases hcost : costOf tx ≤ getBalance tx.sender - p.pendingDebit tx.sender
        · -- it comes back, and is owed from here on
          rw [hcons, dif_pos ⟨hc, hfresh, hcost⟩, if_pos hcost,
            ← ih (hroom.put hc hfresh) hnodup.2 (fun sig hsig => ?_) fun a => ?_]
          · refine and_iff_right fun _ _ _ => ?_
            apply lookup_readdDisplaced_of_lookup
            rw [lookup_put, if_pos rfl]
          · rw [← hpending.2 sig hsig, contains, contains, lookup_put, if_neg]
            rintro rfl
            exact hnodup.1 hsig
          · rw [pendingDebit_put hc hfresh, howed]
        · -- it stays out, since nothing after it has its signature
          rw [hcons, dif_neg fun h => hcost h.2.2, if_neg hcost,
            ← ih (hroom.of_sublist (List.sublist_cons_self tx txs)) hnodup.2 hpending.2 howed]
          refine and_congr_left fun _ => ⟨fun h => ?_, fun h _ hout => absurd h hout⟩
          by_contra hout
          rcases cameFrom_readdDisplaced (h rfl hout rfl) with hbefore | ⟨hlater, -⟩
          · rw [contains_eq_false.mp hfresh] at hbefore
            cases hbefore
          · exact hnodup.1 hlater

/-- With room, after a reorganization the pool holds every displaced transaction outside the new
branch, and none of the branch, exactly when those that were not pending fit and those that were
stay. -/
theorem losesNone_iff_allFit {old new : List Block} (hroom : p.HasRoom (transactionsOf old))
    (hnodup : (signaturesOf old).Nodup) :
    LosesNone (signaturesOf new) (transactionsOf old)
        ((p.readdBlocks core getBalance height old).leftBy core new height) ↔
      AllFit p.contains getBalance (signaturesOf new) p.pendingDebit (transactionsOf old) ∧
        PendingOnesStay (signaturesOf new) height p (transactionsOf old) := by
  rw [← signaturesIn_transactionsOf] at hnodup
  rw [← readdDisplaced_all_iff hroom hnodup (fun _ _ => rfl) (fun _ => rfl), readdBlocks_eq hroom]
  constructor
  · refine fun h => ⟨fun tx htx hc hout hfresh => ?_, fun tx htx hc hout e he => ?_⟩
    · obtain ⟨e, he, rfl⟩ := h.displaced tx htx hc hout
      obtain ⟨hlookup, -, -⟩ := lookup_leftBy.mp he
      rcases cameFrom_readdDisplaced hlookup with hbefore | ⟨-, hheight⟩
      · rw [contains_eq_false.mp hfresh] at hbefore
        cases hbefore
      · rw [hlookup, ← hheight]
    · obtain ⟨e', he', heq⟩ := h.displaced tx htx hc hout
      obtain ⟨hlookup, -, hcurrent⟩ := lookup_leftBy.mp he'
      rw [lookup_readdDisplaced_of_lookup he] at hlookup
      cases hlookup
      exact ⟨heq, hcurrent⟩
  · rintro ⟨hback, hstay⟩
    refine ⟨fun tx htx hc hout => ?_, fun sig hsig => ?_⟩
    · cases hfresh : p.contains tx.signature with
      | true =>
        obtain ⟨e, he⟩ := Option.isSome_iff_exists.mp hfresh
        obtain ⟨heq, hcurrent⟩ := hstay tx htx hc hout e he
        exact ⟨e, lookup_leftBy.mpr ⟨lookup_readdDisplaced_of_lookup he, hout, hcurrent⟩, heq⟩
      | false =>
        refine ⟨⟨tx, height⟩, lookup_leftBy.mpr ⟨hback tx htx hc hout hfresh, hout, ?_⟩, rfl⟩
        simp [MempoolEntry.unexpired]
    · by_contra hne
      obtain ⟨e, he⟩ := Option.ne_none_iff_exists'.mp hne
      exact (lookup_leftBy.mp he).2.1 hsig

end Mempool

namespace Node

theorem nodup_displaced {core : Core} {env : Option ℚ} {pot : ℕ} {genesis : Block}
    {ambient : Ambient} {n n' : Node} {b : Block} {old new : List Block}
    (hi : genesis.index = 0) {ds : List Delivery}
    (run : Runs.Run (Delivers core) (fresh env pot genesis) ds n)
    (h : n.applyBlock core ambient b = .ok (.reorged old new, n')) :
    (signaturesOf old).Nodup := by
  obtain ⟨chain, hgrown⟩ := grownAs_of_run hi run
  have hblocks := hgrown.blocks
  obtain ⟨start, g, rest, full, rfl, -, hgrow, -⟩ := hgrown
  cases effect_of_applyBlock h with
  | @reorged _ _ _ ancestor _ _ hre _ _ =>
    rcases Blockchain.splice_eq_ok.mp hre.splice with ⟨-, -, -, rfl⟩ | ⟨-, -, rfl⟩
    · -- the displaced blocks are the end of the chain, without its first block
      have hend : n.chain.blocks.drop (ancestor - n.chain.blocksOffset + 1) =
          rest.drop (n.chain.blocksOffset + (ancestor - n.chain.blocksOffset)) := by
        rw [hblocks, List.drop_drop, ← Nat.add_assoc, List.drop_succ_cons]
      have hall := hgrow.signatures.1
      rw [← List.take_append_drop (n.chain.blocksOffset + (ancestor - n.chain.blocksOffset)) rest,
        signaturesOf_append] at hall
      show (signaturesOf (n.chain.blocks.drop (ancestor - n.chain.blocksOffset + 1))).Nodup
      rw [hend]
      exact hall.of_append_right
    · exact List.nodup_nil

end Node

namespace AppState

open Mempool

variable {core : Core} {ambient : Ambient} {s s' : AppState} {b : Block} {n' : Node}
  {old new : List Block} {env : Option ℚ} {pot : ℕ} {genesis : Block}

theorem mempool_of_reorged (h : s.applyIncomingBlock core ambient b = .ok (.ok true, s'))
    (happ : s.node.applyBlock core ambient b = .ok (.reorged old new, n')) :
    s'.node = n' ∧ s'.mempool =
      (s.mempool.readdBlocks core n'.chain.getBalance n'.chain.getHeight old).leftBy core new
        n'.chain.getHeight := by
  rcases applyIncomingBlock_eq_ok.mp h with ⟨_, -, hmsg, -⟩ | ⟨-, outcome, node, happ', hafter⟩
  · cases hmsg
  cases happ.symm.trans happ'
  cases hafter
  exact ⟨rfl, rfl⟩

/-- In a reorganization with room in the pool, the displaced transactions that are affordable beside
the pending ones all come back, and none of the new branch stays, exactly when they fit in order
beside all that is pending at that moment, and those among them that were pending stay. -/
theorem losesNone_of_reorged_iff (hi : genesis.index = 0) {ds : List Node.Delivery}
    (run : Runs.Run (Node.Delivers core) (Node.fresh env pot genesis) ds s.node)
    (h : s.applyIncomingBlock core ambient b = .ok (.ok true, s'))
    (happ : s.node.applyBlock core ambient b = .ok (.reorged old new, n'))
    (hroom : s.mempool.HasRoom (transactionsOf old)) :
    (JointlyAffordable n'.chain.getBalance (signaturesOf new) s.mempool (transactionsOf old) →
        LosesNone (signaturesOf new) (transactionsOf old) s'.mempool) ↔
      (JointlyAffordable n'.chain.getBalance (signaturesOf new) s.mempool (transactionsOf old) →
        AllFit s.mempool.contains n'.chain.getBalance (signaturesOf new) s.mempool.pendingDebit
          (transactionsOf old) ∧
        PendingOnesStay (signaturesOf new) n'.chain.getHeight s.mempool (transactionsOf old)) := by
  rw [(mempool_of_reorged h happ).2,
    losesNone_iff_allFit hroom (Node.nodup_displaced hi run happ)]

end AppState

namespace Sample

open Mempool

/-! ### A displaced payment -/

theorem isCoinbase_largePayment : largePayment.isCoinbase = false := by decide

theorem isCoinbase_coins : (coins "" "miner" 1 0 1).isCoinbase = true := by decide

/-- The large payment is confirmed, and then the small one is pending. -/
def payingEvents : List AppState.Event :=
  [.incoming (deliveryOf largeBlock), .relay smallPayment]

/-- Where all transfers are of one sender, that sender alone decides what is affordable. -/
theorem jointlyAffordable_of_sender {getBalance : Address → ℕ} {branch : List Bytes} {p : Mempool}
    {displaced : List Transaction} {a : Address} (hp : ∀ e ∈ p.entries.entries, e.2.tx.sender = a)
    (hd : ∀ tx ∈ displaced, tx.isCoinbase = false → tx.sender = a)
    (h : HashTable.weigh (fun sig e => if sig ∈ branch then 0 else debitWeight a sig e) p.entries +
      ((displaced.filter fun tx => tx.isCoinbase = false ∧ tx.sender = a ∧ tx.signature ∉ branch ∧
        p.contains tx.signature = false).map costOf).sum ≤ getBalance a) :
    JointlyAffordable getBalance branch p displaced := by
  intro a'
  by_cases ha : a' = a
  · exact ha ▸ h
  · rw [List.filter_eq_nil_iff.mpr, List.map_nil, List.sum_nil, Nat.add_zero, HashTable.weigh,
      List.sum_eq_zero]
    · exact Nat.zero_le _
    · intro v hv
      obtain ⟨e, he, rfl⟩ := List.mem_map.mp hv
      simp only [debitWeight, hp e he, if_neg (Ne.symm ha), ite_self]
    · intro tx htx
      simp only [decide_eq_true_eq, not_and]
      intro hc hsender
      exact absurd ((hd tx htx hc).symm.trans hsender) (Ne.symm ha)

/-- What shows when a rival of the large block comes: the outcome, the answer, the payer's balance
after it, and whether the large payment is pending then. -/
def seenOn (s : AppState) (rival : Block) : Option (BlockOutcome × Option Bool × ℕ × Bool) :=
  (s.node.applyBlock plainCore (around 1748000160) rival).toOption.bind fun r =>
    (s.applyIncomingBlock plainCore (around 1748000160) rival).toOption.map fun r' =>
      (r.1, r'.1.toOption, r.2.chain.getBalance Node.genesisAddress,
        r'.2.mempool.contains largePayment.signature)

/-- The node of the run switches to a rival of the large block, with the small payment pending. -/
structure Displaces (rival : Block) (s s' : AppState) (n' : Node) : Prop where
  run : Runs.Run (AppState.Steps plainCore) app payingEvents s
  pending : s.mempool.entries.entries = [⟨smallPayment.signature, ⟨smallPayment, 2⟩⟩]
  reorged : s.node.applyBlock plainCore (around 1748000160) rival =
    .ok (.reorged [largeBlock] [rival], n')
  taken : s.applyIncomingBlock plainCore (around 1748000160) rival = .ok (.ok true, s')

theorem displaces_of_seenOn {rival : Block} {balance : ℕ} {back : Bool}
    (h : (runEvents (fun _ _ => True) app payingEvents).map (fun s =>
        (decide (s.mempool.entries.entries = [⟨smallPayment.signature, ⟨smallPayment, 2⟩⟩]),
          seenOn s rival)) =
      some (true, some (.reorged [largeBlock] [rival], some true, balance, back))) :
    ∃ s s' n', Displaces rival s s' n' ∧ n'.chain.getBalance Node.genesisAddress = balance ∧
      s'.mempool.contains largePayment.signature = back := by
  obtain ⟨s, hs, h⟩ := Option.map_eq_some_iff.mp h
  rw [Prod.mk.injEq, decide_eq_true_eq] at h
  obtain ⟨hentries, hseen⟩ := h
  obtain ⟨⟨outcome, n'⟩, happ, hseen⟩ := Option.bind_eq_some_iff.mp hseen
  obtain ⟨⟨answer, s'⟩, htaken, hseen⟩ := Option.map_eq_some_iff.mp hseen
  simp only [Prod.mk.injEq] at hseen
  obtain ⟨rfl, hanswer, hbalance, hback⟩ := hseen
  obtain rfl := Fallible.toOption_eq_some.mp hanswer
  have h : Displaces rival s s' n' := {
    run := (run_of_runEvents hs).mono And.left
    pending := hentries
    reorged := Fallible.toOption_eq_some.mp happ
    taken := Fallible.toOption_eq_some.mp htaken }
  exact ⟨s, s', n', h, hbalance, hback⟩

variable {rival : Block} {s s' : AppState} {n' : Node}

theorem Displaces.hasRoom (h : Displaces rival s s' n') :
    s.mempool.HasRoom (transactionsOf [largeBlock]) := by
  apply hasRoom_of_few
  rw [len, HashTable.size, h.pending]
  decide

theorem Displaces.transactions : transactionsOf [largeBlock] =
    [coins "" "miner" 1 0 1, largePayment] := rfl

theorem Displaces.fresh (h : Displaces rival s s' n') :
    s.mempool.contains largePayment.signature = false := by
  rw [contains, AList.lookup, h.pending]
  decide +kernel

/-- Both payments together are affordable if the balance covers those that the rival leaves out. -/
theorem Displaces.jointlyAffordable (h : Displaces rival s s' n')
    (hbalance : (if smallPayment.signature ∈ signaturesOf [rival] then 0 else 390010) + 600010 ≤
      n'.chain.getBalance Node.genesisAddress)
    (hout : largePayment.signature ∉ signaturesOf [rival]) :
    JointlyAffordable n'.chain.getBalance (signaturesOf [rival]) s.mempool
      (transactionsOf [largeBlock]) := by
  have hweigh : HashTable.weigh (fun sig e => if sig ∈ signaturesOf [rival] then 0 else
      debitWeight Node.genesisAddress sig e) s.mempool.entries =
      if smallPayment.signature ∈ signaturesOf [rival] then 0 else 390010 := by
    rw [HashTable.weigh, h.pending]
    rfl
  apply jointlyAffordable_of_sender (a := Node.genesisAddress)
  · rw [h.pending]
    decide +kernel
  · decide +kernel
  · rw [hweigh, Displaces.transactions, List.filter_cons_of_neg (by simp [isCoinbase_coins]),
      List.filter_cons_of_pos (by simpa [h.fresh, hout] using ⟨isCoinbase_largePayment, rfl⟩)]
    exact hbalance

/-- The branch confirms the payment that was pending.  While the displaced payment comes back, the
other is counted both in the new balance and in the pool, so the displaced payment is lost. -/
theorem smallBlock_loses_payment : ∃ (s s' : AppState) (n' : Node),
    Runs.Run (AppState.Steps plainCore) app payingEvents s ∧
    s.node.applyBlock plainCore (around 1748000160) smallBlock =
      .ok (.reorged [largeBlock] [smallBlock], n') ∧
    s.applyIncomingBlock plainCore (around 1748000160) smallBlock = .ok (.ok true, s') ∧
    s.mempool.HasRoom (transactionsOf [largeBlock]) ∧
    JointlyAffordable n'.chain.getBalance (signaturesOf [smallBlock]) s.mempool
      (transactionsOf [largeBlock]) ∧
    ¬ LosesNone (signaturesOf [smallBlock]) (transactionsOf [largeBlock]) s'.mempool := by
  obtain ⟨s, s', n', h, hbalance, hback⟩ := @displaces_of_seenOn smallBlock 609990 false
    (by decide +kernel)
  refine ⟨s, s', n', h.run, h.reorged, h.taken, h.hasRoom,
    h.jointlyAffordable (by rw [hbalance]; decide +kernel) (by decide +kernel), fun hnone => ?_⟩
  obtain ⟨e, he, -⟩ := hnone.displaced largePayment (by decide +kernel) (by decide)
    (by decide +kernel)
  rw [contains, he] at hback
  cases hback

/-- Where the branch confirms no payment, both are pending afterwards. -/
theorem bareBlock_loses_none : ∃ s s' n', Displaces bareBlock s s' n' ∧
    LosesNone (signaturesOf [bareBlock]) (transactionsOf [largeBlock]) s'.mempool := by
  obtain ⟨s, s', n', h, hbalance, -⟩ := @displaces_of_seenOn bareBlock 1000000 true
    (by decide +kernel)
  obtain ⟨ds, hrun⟩ := AppState.node_run h.run
  have hpending : s.mempool.pendingDebit Node.genesisAddress = 390010 := by
    rw [pendingDebit_eq, HashTable.weigh, h.pending]
    decide +kernel
  have hjoint := h.jointlyAffordable (by rw [hbalance]; decide +kernel) (by decide +kernel)
  refine ⟨s, s', n', h, (AppState.losesNone_of_reorged_iff rfl hrun h.taken h.reorged h.hasRoom).mpr
    (fun _ => ⟨?_, fun tx htx hc _ e he => ?_⟩) hjoint⟩
  · rw [Displaces.transactions, AllFit, if_pos (.inl isCoinbase_coins), AllFit,
      if_neg (by simp [isCoinbase_largePayment, h.fresh]), if_pos]
    · trivial
    · rw [show largePayment.sender = Node.genesisAddress from rfl, hbalance, hpending]
      decide
  · rw [Displaces.transactions, List.mem_cons, List.mem_singleton] at htx
    rcases htx with rfl | rfl
    · cases isCoinbase_coins.symm.trans hc
    · rw [contains_eq_false.mp h.fresh] at he
      cases he

end Sample

end Lootcoin
