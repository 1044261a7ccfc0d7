import Lootcoin.Node.Agreement

/-! A synchronization with peers that may answer anything.  It asks each peer from ever higher
indices below the height that this peer claims, and so at most as often as that height.  It takes
the node by deliveries of blocks that the peers have offered, and nothing else, and leaves the
canonical chain as it is or with more work. -/

namespace Lootcoin

/-- A peer has a block in some answer. -/
def Peer.Offers (p : Peer) (b : Block) : Prop :=
  ∃ start bs, p.blocks start batchSize = some bs ∧ b ∈ bs

namespace Node

variable {core : Core} {ambients : ℕ → Ambient} {env : Option ℚ} {pot : ℕ} {genesis : Block}
  {n n' : Node} {offered : Block → Prop} {peer : Peer} {peers : List Peer} {bs : List Block}
  {fuel fuel' handled handled' peerHeight : ℕ}

/-- The application of a block faults. -/
def Faults (core : Core) (n : Node) (d : Delivery) (fault : Fault) : Prop :=
  n.applyBlock core d.ambient d.block = .error fault

/-- A computation takes a node by deliveries of offered blocks. -/
abbrev TakesBlocks {α : Type} (core : Core) (offered : Block → Prop) (out : α → Node) (n : Node)
    (x : Except Fault α) : Prop :=
  Runs.Takes (Delivers core) (Faults core) (fun d => offered d.block) out n x

/-! ### A download -/

theorem applyBlock_takes {b : Block} (ambient : Ambient) (hfits : b.Fits) (hb : offered b) :
    TakesBlocks core offered (fun r => r.2) n (n.applyBlock core ambient b) := by
  cases happ : n.applyBlock core ambient b with
  | ok r =>
    refine ⟨[⟨b, ambient⟩], .cons ⟨hfits, r.1, happ⟩ (.nil _), fun d hd => ?_⟩
    rwa [List.mem_singleton.mp hd]
  | error fault => exact ⟨[], n, ⟨b, ambient⟩, .nil _, by simp, hb, happ⟩

theorem applyBatch_takes (hbs : ∀ b ∈ bs, b.Fits ∧ offered b) :
    TakesBlocks core offered (fun r => r.2.1) n (applyBatch core ambients n handled bs) := by
  induction bs generalizing n handled with
  | nil => exact .here (true, n, handled)
  | cons b bs ih =>
    obtain ⟨hb, hbs⟩ := List.forall_mem_cons.mp hbs
    rw [applyBatch]
    apply (applyBlock_takes (ambients handled) hb.1 hb.2).bind
    rintro ⟨outcome, m⟩ -
    simp only
    split
    · exact ih hbs
    · exact .here (false, m, handled + 1)

/-- Blocks that have all been accepted have raised the height one by one. -/
theorem length_le_of_applyBatch
    (h : applyBatch core ambients n handled bs = .ok (true, n', handled')) :
    n.chain.getHeight + bs.length ≤ n'.chain.getHeight := by
  induction bs generalizing n handled with
  | nil =>
    cases h
    exact Nat.le_refl _
  | cons b bs ih =>
    rw [applyBatch] at h
    obtain ⟨⟨outcome, m⟩, -, h⟩ := Fallible.bind_eq_ok.mp h
    simp only at h
    split at h
    · rename_i hlt
      have := ih h
      rw [List.length_cons]
      omega
    · cases h

/-- The fuel is enough for the requests that the height which a peer claims gives rise to. -/
def Enough (peerHeight fuel : ℕ) (n : Node) : Prop :=
  0 < fuel ∧ peerHeight < n.chain.getHeight + fuel

theorem Enough.next {b : Block} (h : Enough peerHeight (fuel + 1) n)
    (hlt : ¬ peerHeight ≤ n.chain.getHeight)
    (hbatch : applyBatch core ambients n handled (b :: bs) = .ok (true, n', handled')) :
    Enough peerHeight fuel n' := by
  have hup := length_le_of_applyBatch hbatch
  rw [List.length_cons] at hup
  obtain ⟨-, hfuel⟩ := h
  constructor <;> omega

theorem syncFromPeer_takes (hfits : ∀ b, peer.Offers b → b.Fits)
    (hfuel : Enough peerHeight fuel n) :
    TakesBlocks core peer.Offers (fun r => r.2.1) n
      (syncFromPeer core ambients peer peerHeight fuel n handled) := by
  induction fuel generalizing n handled with
  | zero => exact absurd hfuel.1 (Nat.lt_irrefl 0)
  | succ fuel ih =>
    rw [syncFromPeer]
    simp only
    split
    · exact .here (true, n, handled)
    rename_i hlt
    split
    · exact .here (false, n, handled)
    · exact .here (true, n, handled)
    rename_i b bs hanswer
    have hoffers : ∀ x ∈ b :: bs, x.Fits ∧ peer.Offers x := fun x hx =>
      ⟨hfits x ⟨_, _, hanswer, hx⟩, _, _, hanswer, hx⟩
    apply (applyBatch_takes hoffers).bind
    rintro ⟨accepted, m, handled'⟩ hbatch
    cases accepted with
    | false => exact .here (false, m, handled')
    | true => exact ih (hfuel.next hlt hbatch)

/-- More fuel makes no difference to a download. -/
theorem syncFromPeer_congr_fuel (hfuel : Enough peerHeight fuel n)
    (hfuel' : Enough peerHeight fuel' n) :
    syncFromPeer core ambients peer peerHeight fuel n handled =
      syncFromPeer core ambients peer peerHeight fuel' n handled := by
  induction fuel generalizing fuel' n handled with
  | zero => exact absurd hfuel.1 (Nat.lt_irrefl 0)
  | succ fuel ih =>
    obtain ⟨fuel', rfl⟩ := Nat.exists_eq_add_one.mpr hfuel'.1
    rw [syncFromPeer, syncFromPeer]
    simp only
    split
    · rfl
    rename_i hlt
    split
    · rfl
    · rfl
    rename_i b bs hanswer
    cases hbatch : applyBatch core ambients n handled (b :: bs) with
    | error fault => rfl
    | ok r =>
      obtain ⟨accepted, m, handled'⟩ := r
      cases accepted with
      | false => rfl
      | true => exact ih (hfuel.next hlt hbatch) (hfuel'.next hlt hbatch)

/-! ### The candidates in turn -/

theorem mem_syncCandidates {ourWork : ℕ} {candidate : Peer × PeerHead}
    (h : candidate ∈ syncCandidates peers ourWork) :
    candidate.1 ∈ peers ∧ candidate.1.head = some candidate.2 := by
  obtain ⟨hmem, -⟩ := List.mem_filter.mp ((List.perm_insertionSort _ _).mem_iff.mp h)
  obtain ⟨p, hp, hcandidate⟩ := List.mem_filterMap.mp hmem
  obtain ⟨head, hhead, rfl⟩ := Option.map_eq_some_iff.mp hcandidate
  exact ⟨hp, hhead⟩

theorem syncFromCandidates_takes {candidates : List (Peer × PeerHead)}
    (hoffers : ∀ candidate ∈ candidates, ∀ b, candidate.1.Offers b → b.Fits ∧ offered b)
    (hfuel : ∀ candidate ∈ candidates, candidate.2.height < fuel) :
    TakesBlocks core offered id n
      (syncFromCandidates core ambients fuel candidates n handled) := by
  induction candidates generalizing n handled with
  | nil => exact .here n
  | cons candidate candidates ih =>
    obtain ⟨peer, head⟩ := candidate
    obtain ⟨hpeer, hoffers⟩ := List.forall_mem_cons.mp hoffers
    obtain ⟨hhead, hfuel⟩ := List.forall_mem_cons.mp hfuel
    replace hhead : head.height < fuel := hhead
    have henough : Enough head.height fuel n := ⟨Nat.zero_lt_of_lt hhead, by omega⟩
    rw [syncFromCandidates]
    apply ((syncFromPeer_takes (fun b hb => (hpeer b hb).1) henough).mono
      fun d hd => (hpeer d.block hd).2).bind
    rintro ⟨complete, m, handled'⟩ -
    cases complete with
    | true => exact .here m
    | false => exact ih hoffers hfuel

theorem syncFromCandidates_congr_fuel {candidates : List (Peer × PeerHead)}
    (hfuel : ∀ candidate ∈ candidates, candidate.2.height < fuel) (hle : fuel ≤ fuel') :
    syncFromCandidates core ambients fuel' candidates n handled =
      syncFromCandidates core ambients fuel candidates n handled := by
  induction candidates generalizing n handled with
  | nil => rfl
  | cons candidate candidates ih =>
    obtain ⟨peer, head⟩ := candidate
    obtain ⟨hhead, hfuel⟩ := List.forall_mem_cons.mp hfuel
    replace hhead : head.height < fuel := hhead
    have henough : ∀ k, fuel ≤ k → Enough head.height k n := fun k hk => ⟨by omega, by omega⟩
    rw [syncFromCandidates, syncFromCandidates,
      syncFromPeer_congr_fuel (henough fuel' hle) (henough fuel (Nat.le_refl _))]
    refine bind_congr fun r => ?_
    obtain ⟨complete, m, handled'⟩ := r
    cases complete with
    | true => rfl
    | false => exact ih hfuel

/-! ### The requests -/

/-- A download from one peer, with the indices from which it asks for blocks. -/
def askPeer (core : Core) (ambients : ℕ → Ambient) (peer : Peer) (peerHeight : ℕ) :
    ℕ → Node → ℕ → List ℕ × Except Fault (Bool × Node × ℕ)
  | 0, _, _ => ([], .error .divergence)
  | fuel + 1, n, handled =>
    let start := n.chain.getHeight
    if peerHeight ≤ start then ([], .ok (true, n, handled))
    else
      match peer.blocks start batchSize with
      | none => ([start], .ok (false, n, handled))
      | some [] => ([start], .ok (true, n, handled))
      | some (b :: bs) =>
        match applyBatch core ambients n handled (b :: bs) with
        | .ok (true, n', handled') =>
          let rest := askPeer core ambients peer peerHeight fuel n' handled'
          (start :: rest.1, rest.2)
        | r => ([start], r)

/-- Downloads from one peer after the other until one completes, with what is asked of each. -/
def askCandidates (core : Core) (ambients : ℕ → Ambient) (fuel : ℕ) :
    List (Peer × PeerHead) → Node → ℕ → List ((Peer × PeerHead) × List ℕ) × Except Fault Node
  | [], n, _ => ([], .ok n)
  | candidate :: candidates, n, handled =>
    let asked := askPeer core ambients candidate.1 candidate.2.height fuel n handled
    match asked.2 with
    | .ok (true, n', _) => ([(candidate, asked.1)], .ok n')
    | .ok (false, n', handled') =>
      let rest := askCandidates core ambients fuel candidates n' handled'
      ((candidate, asked.1) :: rest.1, rest.2)
    | .error fault => ([(candidate, asked.1)], .error fault)

/-- A synchronization with what it asks of each peer. -/
def askPeers (core : Core) (ambients : ℕ → Ambient) (fuel : ℕ) (n : Node) (knownPeers : List Peer) :
    List ((Peer × PeerHead) × List ℕ) × Except Fault Node :=
  askCandidates core ambients fuel (syncCandidates knownPeers n.chain.getChainWork) n 0

theorem askPeer_snd : (askPeer core ambients peer peerHeight fuel n handled).2 =
    syncFromPeer core ambients peer peerHeight fuel n handled := by
  induction fuel generalizing n handled with
  | zero => rfl
  | succ fuel ih =>
    rw [askPeer, syncFromPeer]
    simp only
    by_cases hdone : peerHeight ≤ n.chain.getHeight
    · rw [if_pos hdone, if_pos hdone]
    rw [if_neg hdone, if_neg hdone]
    cases hanswer : peer.blocks n.chain.getHeight batchSize with
    | none => rfl
    | some answer =>
      cases answer with
      | nil => rfl
      | cons b bs =>
        simp only
        cases hbatch : applyBatch core ambients n handled (b :: bs) with
        | error fault => rfl
        | ok r =>
          obtain ⟨accepted, m, handled'⟩ := r
          cases accepted with
          | false => rfl
          | true => exact ih

theorem askCandidates_snd {candidates : List (Peer × PeerHead)} :
    (askCandidates core ambients fuel candidates n handled).2 =
      syncFromCandidates core ambients fuel candidates n handled := by
  induction candidates generalizing n handled with
  | nil => rfl
  | cons candidate candidates ih =>
    obtain ⟨peer, head⟩ := candidate
    rw [askCandidates, syncFromCandidates, askPeer_snd]
    cases syncFromPeer core ambients peer head.height fuel n handled with
    | error fault => rfl
    | ok r =>
      obtain ⟨complete, m, handled'⟩ := r
      cases complete with
      | true => rfl
      | false => exact ih

/-- Each request asks from a higher index than the one before. The first asks from the height of
the node, and none from the height that the peer claims. -/
theorem askPeer_rises : (askPeer core ambients peer peerHeight fuel n handled).1.Pairwise (· < ·) ∧
    ∀ start ∈ (askPeer core ambients peer peerHeight fuel n handled).1,
      n.chain.getHeight ≤ start ∧ start < peerHeight := by
  induction fuel generalizing n handled with
  | zero => exact ⟨.nil, nofun⟩
  | succ fuel ih =>
    rw [askPeer]
    simp only
    split
    · exact ⟨.nil, nofun⟩
    rename_i hlt
    have hone : [n.chain.getHeight].Pairwise (· < ·) ∧ ∀ start ∈ [n.chain.getHeight],
        n.chain.getHeight ≤ start ∧ start < peerHeight := by
      refine ⟨List.pairwise_singleton _ _, fun start hstart => ?_⟩
      rw [List.mem_singleton.mp hstart]
      omega
    split
    · exact hone
    · exact hone
    rename_i b bs hanswer
    split
    · rename_i m handled' hbatch
      have hup := length_le_of_applyBatch hbatch
      rw [List.length_cons] at hup
      obtain ⟨hrises, hbounds⟩ := @ih m handled'
      constructor
      · refine List.pairwise_cons.mpr ⟨fun start hstart => ?_, hrises⟩
        have := hbounds start hstart
        omega
      · intro start hstart
        rcases List.mem_cons.mp hstart with rfl | hstart
        · omega
        · have := hbounds start hstart
          omega
    · exact hone

/-- Each candidate is downloaded from once at most, in turn. -/
theorem askCandidates_rises {candidates : List (Peer × PeerHead)} :
    (askCandidates core ambients fuel candidates n handled).1.map Prod.fst <+: candidates ∧
    ∀ entry ∈ (askCandidates core ambients fuel candidates n handled).1,
      entry.2.Pairwise (· < ·) ∧ ∀ start ∈ entry.2, start < entry.1.2.height := by
  induction candidates generalizing n handled with
  | nil => exact ⟨List.nil_prefix, nofun⟩
  | cons candidate candidates ih =>
    have hfirst : (askPeer core ambients candidate.1 candidate.2.height fuel n handled).1.Pairwise
        (· < ·) ∧ ∀ start ∈ (askPeer core ambients candidate.1 candidate.2.height fuel n handled).1,
          start < candidate.2.height :=
      ⟨askPeer_rises.1, fun start hstart => (askPeer_rises.2 start hstart).2⟩
    have hone : ([candidate] : List (Peer × PeerHead)) <+: candidate :: candidates :=
      List.cons_prefix_cons.mpr ⟨rfl, List.nil_prefix⟩
    rw [askCandidates]
    simp only
    split
    · exact ⟨hone, by simpa using hfirst⟩
    · obtain ⟨hfront, hrest⟩ := ih
      exact ⟨List.cons_prefix_cons.mpr ⟨rfl, hfront⟩, List.forall_mem_cons.mpr ⟨hfirst, hrest⟩⟩
    · exact ⟨hone, by simpa using hfirst⟩

/-- Indices that rise below a height are no more than the height. -/
theorem length_le_of_rises {starts : List ℕ} (hrises : starts.Pairwise (· < ·))
    (hbounds : ∀ start ∈ starts, start < peerHeight) : starts.length ≤ peerHeight := by
  have hnodup : starts.Nodup := hrises.imp fun h => Nat.ne_of_lt h
  have hsub : starts.Subperm (List.range peerHeight) :=
    hnodup.subperm fun start hstart => List.mem_range.mpr (hbounds start hstart)
  simpa using hsub.length_le

/-- Whatever the peers of a node answer, a synchronization asks each for blocks from ever higher
indices below the height that this peer claims, and so at most as often as that height. It takes the
node by deliveries of blocks that the peers offered, to the application of one that faults, or to a
node whose canonical chain is the one before or has more work, if all forks have replayed completely
since the genesis block. -/
theorem synced_of_untrusted (hfits : ∀ p ∈ peers, ∀ b, p.Offers b → b.Fits)
    (hfuel : ∀ p ∈ peers, ∀ head, p.head = some head → head.height < fuel) :
    (∀ fuel', fuel ≤ fuel' → syncFromPeers core ambients fuel' n peers =
      syncFromPeers core ambients fuel n peers) ∧
    ((askPeers core ambients fuel n peers).2 = syncFromPeers core ambients fuel n peers ∧
      (askPeers core ambients fuel n peers).1.map Prod.fst <+:
        syncCandidates peers n.chain.getChainWork ∧
      ∀ entry ∈ (askPeers core ambients fuel n peers).1,
        entry.1.1 ∈ peers ∧ entry.1.1.head = some entry.1.2 ∧
        entry.2.Pairwise (· < ·) ∧ (∀ start ∈ entry.2, start < entry.1.2.height) ∧
        entry.2.length ≤ entry.1.2.height) ∧
    (∀ fault, syncFromPeers core ambients fuel n peers = .error fault →
      ∃ es m d, Runs.Run (Delivers core) n es m ∧
        (∀ e ∈ d :: es, ∃ p ∈ peers, p.Offers e.block) ∧
        m.applyBlock core d.ambient d.block = .error fault) ∧
    (∀ n', syncFromPeers core ambients fuel n peers = .ok n' →
      ∃ es, Runs.Run (Delivers core) n es n' ∧ (∀ e ∈ es, ∃ p ∈ peers, p.Offers e.block) ∧
        ∀ env pot genesis ds, core.CollisionFree → genesis.index = 0 → genesis.hash = [] →
          pot < 2 ^ 64 → Runs.Run (DeliversCompletely core) (fresh env pot genesis) ds n →
          Runs.Run (DeliversCompletely core) n es n' →
            n'.canonicalChain = n.canonicalChain ∨
              hashWork n.canonicalChain < hashWork n'.canonicalChain) := by
  have hclaimed : ∀ candidate ∈ syncCandidates peers n.chain.getChainWork,
      candidate.2.height < fuel := fun candidate hmem =>
    hfuel _ (mem_syncCandidates hmem).1 _ (mem_syncCandidates hmem).2
  have htakes : TakesBlocks core (fun b => ∃ p ∈ peers, p.Offers b) id n
      (syncFromPeers core ambients fuel n peers) := by
    refine syncFromCandidates_takes (fun candidate hmem b hb => ?_) hclaimed
    have hpeer := (mem_syncCandidates hmem).1
    exact ⟨hfits _ hpeer b hb, _, hpeer, hb⟩
  refine ⟨fun fuel' hle => syncFromCandidates_congr_fuel hclaimed hle, ?_, fun fault hfault => ?_,
    fun n' hn' => ?_⟩
  · refine ⟨askCandidates_snd, askCandidates_rises.1, fun entry hentry => ?_⟩
    have hmem := mem_syncCandidates
      (askCandidates_rises.1.subset (List.mem_map_of_mem hentry))
    obtain ⟨hup, hbounds⟩ := askCandidates_rises.2 entry hentry
    exact ⟨hmem.1, hmem.2, hup, hbounds, length_le_of_rises hup hbounds⟩
  · rw [hfault] at htakes
    obtain ⟨es, m, d, hrun, hes, hd, happ⟩ := htakes
    exact ⟨es, m, d, hrun, List.forall_mem_cons.mpr ⟨hd, hes⟩, happ⟩
  · rw [hn'] at htakes
    obtain ⟨es, hrun, hes⟩ := htakes
    exact ⟨es, hrun, hes, fun env pot genesis ds hcore hi hh hpot run hcomplete =>
      advances_of_run hcore hi hh hpot run hcomplete⟩

end Node

namespace Sample

/-! ### A peer that lies -/

/-- A peer that claims the most work and has an orphan for every request. -/
def liar : Peer where
  head := some ⟨9, "0xffff"⟩
  blocks := fun _ _ => some [rivalChild]

theorem fits_of_offers {peer : Blockchain}
    (hpeer : peerChain [lightBlock, lightChild] = some peer) :
    ∀ p ∈ [liar, Peer.honest peer], ∀ b, p.Offers b → b.Fits := by
  have hblocks : peer.blocks = [genesis, lightBlock, lightChild] :=
    (grows_of_peerChain hpeer).blocks
  have hfits : ∀ b ∈ rivalChild :: peer.blocks, b.Fits := by
    rw [hblocks]
    decide +kernel
  intro p hp b ⟨start, bs, hanswer, hb⟩
  apply hfits
  rcases List.mem_pair.mp hp with rfl | rfl
  · cases hanswer
    exact List.mem_singleton.mp hb ▸ List.mem_cons_self
  · cases hanswer
    exact List.mem_cons_of_mem _ (List.drop_subset _ _ (List.take_subset _ _ hb))

/-- The node keeps the orphan of the liar and follows the honest peer. -/
theorem liar_synced : ∃ peer n' es, peerChain [lightBlock, lightChild] = some peer ∧
    syncFromPeers rootedCore (fun _ => around 1748000160) 10 node [liar, Peer.honest peer] =
      .ok n' ∧
    n'.canonicalChain = [genesis, lightBlock, lightChild] ∧
    (∀ entry ∈ (Node.askPeers rootedCore (fun _ => around 1748000160) 10 node
      [liar, Peer.honest peer]).1, entry.2.length ≤ entry.1.2.height) ∧
    Runs.Run (Node.Delivers rootedCore) node es n' ∧
    ∀ e ∈ es, ∃ p ∈ [liar, Peer.honest peer], p.Offers e.block := by
  have hsync : ((peerChain [lightBlock, lightChild]).bind fun peer =>
      (syncFromPeers rootedCore (fun _ => around 1748000160) 10 node
        [liar, Peer.honest peer]).toOption.map fun n' => (n'.canonicalChain, peer.getHeight)) =
      some ([genesis, lightBlock, lightChild], 3) := by
    decide +kernel
  obtain ⟨peer, hpeer, hsync⟩ := Option.bind_eq_some_iff.mp hsync
  obtain ⟨n', hn', hseen⟩ := Fallible.exists_of_toOption_map hsync
  obtain ⟨hchain, hheight⟩ := Prod.mk.inj hseen
  have hfuel : ∀ p ∈ [liar, Peer.honest peer], ∀ head, p.head = some head → head.height < 10 := by
    intro p hp head hhead
    rcases List.mem_pair.mp hp with rfl | rfl
    · cases hhead
      decide
    · cases hhead
      show peer.getHeight < 10
      omega
  obtain ⟨-, ⟨-, -, hasked⟩, -, htaken⟩ := Node.synced_of_untrusted (fits_of_offers hpeer) hfuel
  obtain ⟨es, hrun, hes, -⟩ := htaken n' hn'
  exact ⟨peer, n', es, hpeer, hn', hchain, fun entry hentry => (hasked entry hentry).2.2.2.2, hrun,
    hes⟩

end Sample

end Lootcoin
