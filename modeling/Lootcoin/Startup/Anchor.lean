import Lootcoin.Sample
import Lootcoin.Startup

/-! What a trusted checkpoint fixes of a snapshot.  An attempt compares texts: the hash that the
payload names and the hash that the block carries with the hash that the peer has listed.  It
computes neither the hash of the block nor a commitment to the state, so two runs that succeed at
one height agree exactly where their peers have sent the same. -/

namespace Lootcoin

namespace Startup

variable {core : Core} {trusted : List TrustedCheckpoint} {peers peers' : List String}
  {answers answers' : SnapshotAnswers} {db db' : Db}

/-- States that no read tells apart. -/
structure SameState (s s' : CheckpointState) : Prop where
  balances : ∀ a, s.balances.lookup a = s'.balances.lookup a
  confirmedSignatures : s.confirmedSignatures = s'.confirmedSignatures
  pendingTickets : s.pendingTickets = s'.pendingTickets
  pot : s.pot = s'.pot
  currentDifficulty : s.currentDifficulty = s'.currentDifficulty
  asertAnchor : s.asertAnchor = s'.asertAnchor
  chainWork : s.chainWork = s'.chainWork
  blockHash : s.blockHash = s'.blockHash

/-- A block whose hash is that of its header, and whose header commits to its transactions. -/
structure SelfConsistent (core : Core) (b : Block) : Prop where
  hash : core.calculateHash b.toHeader = some b.hash
  txRoot : core.computeTxRoot b.transactions = some b.txRoot

/-- Two runs that succeed at one height return the same state and the same block, which is
consistent. -/
def Anchored (core : Core) (r r' : Option (ℕ × CheckpointState × Block)) : Prop :=
  ∀ height state cpBlock state' cpBlock', r = some (height, state, cpBlock) →
    r' = some (height, state', cpBlock') →
    SameState state state' ∧ cpBlock = cpBlock' ∧ SelfConsistent core cpBlock

/-- In the attempt `k`, for a candidate at a height, a payload that names the listed hash came, and
a block that carries it. -/
structure Offers (trusted : List TrustedCheckpoint) (peers : List String)
    (answers : SnapshotAnswers) (k height : ℕ) (payload : SnapshotPayload) (cpBlock : Block) :
    Prop where
  candidate : ∃ candidate, (snapshotCandidates trusted peers answers)[k]? = some candidate ∧
    candidate.height = height ∧
    hashDigits payload.blockHashHex = hashDigits candidate.blockHashHex ∧
    (hexEncode cpBlock.hash).toList = hashDigits candidate.blockHashHex
  payload : answers.payload k = some payload
  block : ∃ rest, answers.blocks k = some (cpBlock :: rest)

/-- The first attempt in which such a payload and such a block came. -/
structure OffersFirst (trusted : List TrustedCheckpoint) (peers : List String)
    (answers : SnapshotAnswers) (k height : ℕ) (payload : SnapshotPayload) (cpBlock : Block) :
    Prop where
  offers : Offers trusted peers answers k height payload cpBlock
  first : ∀ j < k, ∀ height payload cpBlock, ¬ Offers trusted peers answers j height payload cpBlock

/-- Payloads that spell the same state: they agree in all that is read of them but the hash. -/
structure SamePayload (p p' : SnapshotPayload) : Prop where
  balances : ∀ a, p.balances.lookup a = p'.balances.lookup a
  confirmedSignatures : ∀ sig, sig ∈ p.confirmedSignatures ↔ sig ∈ p'.confirmedSignatures
  tickets : p.tickets = p'.tickets
  pot : p.pot = p'.pot
  currentDifficulty : p.currentDifficulty = p'.currentDifficulty
  asertAnchor : p.asertAnchor = p'.asertAnchor
  chainWork : (fromStrRadix16 128 (hashDigits p.chainWorkHex)).getD 0 =
    (fromStrRadix16 128 (hashDigits p'.chainWorkHex)).getD 0

/-- The peers of two runs offer one height with the same payload and the same block, which is
consistent. -/
def OfferAlike (core : Core) (trusted : List TrustedCheckpoint) (peers peers' : List String)
    (answers answers' : SnapshotAnswers) : Prop :=
  ∀ height k k' payload payload' cpBlock cpBlock',
    OffersFirst trusted peers answers k height payload cpBlock →
    OffersFirst trusted peers' answers' k' height payload' cpBlock' →
    SamePayload payload payload' ∧ cpBlock = cpBlock' ∧ SelfConsistent core cpBlock

/-! ### What a run returns -/

theorem verifiedSnapshot_eq_some {expected : List Char} {payload : Option SnapshotPayload}
    {cpBlocks : Option (List Block)} {p : SnapshotPayload} {b : Block} :
    verifiedSnapshot expected payload cpBlocks = some (p, b) ↔ payload = some p ∧
      hashDigits p.blockHashHex = expected ∧ (∃ rest, cpBlocks = some (b :: rest)) ∧
      (hexEncode b.hash).toList = expected := by
  unfold verifiedSnapshot
  constructor
  · intro h
    split at h
    · cases h
    split at h
    · cases h
    rename_i hpayload
    split at h
    · cases h
    · cases h
    rename_i cpBlock rest
    split at h
    · cases h
    rename_i hblock
    cases h
    exact ⟨rfl, not_not.mp hpayload, ⟨rest, rfl⟩, not_not.mp hblock⟩
  · rintro ⟨rfl, hpayload, ⟨rest, rfl⟩, hblock⟩
    simp [hpayload, hblock]

/-- The attempts return the first offer. -/
theorem trySnapshots_eq_some {candidates : List SnapshotCandidate} {attempt height : ℕ}
    {p : SnapshotPayload} {b : Block} :
    trySnapshots answers attempt candidates = some (height, p, b) ↔ ∃ k candidate,
      candidates[k]? = some candidate ∧ candidate.height = height ∧
      verifiedSnapshot (hashDigits candidate.blockHashHex) (answers.payload (attempt + k))
        (answers.blocks (attempt + k)) = some (p, b) ∧
      ∀ j < k, ∀ candidate, candidates[j]? = some candidate →
        verifiedSnapshot (hashDigits candidate.blockHashHex) (answers.payload (attempt + j))
          (answers.blocks (attempt + j)) = none := by
  induction candidates generalizing attempt with
  | nil => simp [trySnapshots]
  | cons c candidates ih =>
    have hshift : ∀ j, attempt + 1 + j = attempt + (j + 1) := fun j => by omega
    rw [trySnapshots]
    cases hv : verifiedSnapshot (hashDigits c.blockHashHex) (answers.payload attempt)
        (answers.blocks attempt) with
    | some r =>
      obtain ⟨p', b'⟩ := r
      constructor
      · intro h
        cases h
        exact ⟨0, c, rfl, rfl, hv, fun j hj => absurd hj (Nat.not_lt_zero j)⟩
      · rintro ⟨k, candidate, hk, hheight, hsome, hnone⟩
        cases k with
        | zero =>
          cases hk
          cases hv.symm.trans hsome
          rw [hheight]
        | succ k => cases hv.symm.trans (hnone 0 (Nat.succ_pos k) c rfl)
    | none =>
      simp only [ih, hshift]
      constructor
      · rintro ⟨k, candidate, hk, hheight, hsome, hnone⟩
        refine ⟨k + 1, candidate, hk, hheight, hsome, fun j hj candidate hc => ?_⟩
        cases j with
        | zero =>
          cases hc
          exact hv
        | succ j => exact hnone j (by omega) candidate hc
      · rintro ⟨k, candidate, hk, hheight, hsome, hnone⟩
        cases k with
        | zero =>
          cases hk
          cases hv.symm.trans hsome
        | succ k =>
          exact ⟨k, candidate, hk, hheight, hsome, fun j hj candidate hc =>
            hnone (j + 1) (by omega) candidate hc⟩

/-- A candidate that offers what it should is the candidate of an attempt that passes. -/
theorem offers_iff {k height : ℕ} {p : SnapshotPayload} {b : Block} :
    Offers trusted peers answers k height p b ↔ ∃ candidate,
      (snapshotCandidates trusted peers answers)[k]? = some candidate ∧
      candidate.height = height ∧ verifiedSnapshot (hashDigits candidate.blockHashHex)
        (answers.payload k) (answers.blocks k) = some (p, b) := by
  constructor
  · rintro ⟨⟨candidate, hk, hheight, hpayload, hblock⟩, hp, hb⟩
    exact ⟨candidate, hk, hheight, verifiedSnapshot_eq_some.mpr ⟨hp, hpayload, hb, hblock⟩⟩
  · rintro ⟨candidate, hk, hheight, hv⟩
    obtain ⟨hp, hpayload, hb, hblock⟩ := verifiedSnapshot_eq_some.mp hv
    exact ⟨⟨candidate, hk, hheight, hpayload, hblock⟩, hp, hb⟩

theorem offersFirst_iff {k height : ℕ} {p : SnapshotPayload} {b : Block} :
    OffersFirst trusted peers answers k height p b ↔ ∃ candidate,
      (snapshotCandidates trusted peers answers)[k]? = some candidate ∧
      candidate.height = height ∧
      verifiedSnapshot (hashDigits candidate.blockHashHex) (answers.payload k)
        (answers.blocks k) = some (p, b) ∧
      ∀ j < k, ∀ candidate, (snapshotCandidates trusted peers answers)[j]? = some candidate →
        verifiedSnapshot (hashDigits candidate.blockHashHex) (answers.payload j)
          (answers.blocks j) = none := by
  constructor
  · rintro ⟨hoffers, hfirst⟩
    obtain ⟨candidate, hk, hheight, hv⟩ := offers_iff.mp hoffers
    refine ⟨candidate, hk, hheight, hv, fun j hj candidate hc => ?_⟩
    by_contra hne
    obtain ⟨⟨p', b'⟩, hv'⟩ := Option.ne_none_iff_exists'.mp hne
    exact hfirst j hj _ _ _ (offers_iff.mpr ⟨candidate, hc, rfl, hv'⟩)
  · rintro ⟨candidate, hk, hheight, hv, hnone⟩
    refine ⟨offers_iff.mpr ⟨candidate, hk, hheight, hv⟩, fun j hj _ _ _ hoffers => ?_⟩
    obtain ⟨candidate, hc, -, hv'⟩ := offers_iff.mp hoffers
    cases (hnone j hj candidate hc).symm.trans hv'

/-- Where nothing is trusted or there is no peer, there is no candidate. -/
theorem snapshotCandidates_eq_nil (h : trusted = [] ∨ peers = []) :
    snapshotCandidates trusted peers answers = [] := by
  rcases h with rfl | rfl
  · have hnone : ∀ peer infos, matchingSnapshots [] peer infos = [] := fun peer infos =>
      List.filterMap_eq_nil_iff.mpr fun s _ => rfl
    have hall : peers.zipIdx.flatMap (fun _ => ([] : List SnapshotCandidate)) = [] :=
      List.flatMap_eq_nil_iff.mpr fun _ _ => rfl
    simp [snapshotCandidates, hnone, hall]
  · rfl

/-- A run returns the height, the state and the block of the first offer. -/
theorem fetchPeerSnapshot_eq_some {height : ℕ} {state : CheckpointState} {b : Block} :
    (fetchPeerSnapshot trusted peers answers db).1 = some (height, state, b) ↔
      ∃ k p, OffersFirst trusted peers answers k height p b ∧ state = p.state b := by
  have htry : (∃ k p, OffersFirst trusted peers answers k height p b ∧ state = p.state b) ↔
      ∃ p, trySnapshots answers 0 (snapshotCandidates trusted peers answers) =
        some (height, p, b) ∧ state = p.state b := by
    simp only [trySnapshots_eq_some, offersFirst_iff, Nat.zero_add]
    constructor
    · rintro ⟨k, p, ⟨candidate, h⟩, hstate⟩
      exact ⟨p, ⟨k, candidate, h⟩, hstate⟩
    · rintro ⟨p, ⟨k, candidate, h⟩, hstate⟩
      exact ⟨k, p, ⟨candidate, h⟩, hstate⟩
  rw [htry, fetchPeerSnapshot]
  split
  · rename_i hempty
    rw [Bool.or_eq_true, List.isEmpty_iff, List.isEmpty_iff] at hempty
    simp [snapshotCandidates_eq_nil hempty, trySnapshots]
  · split
    · rename_i hnone
      simp [hnone]
    · rename_i height' p' b' hsome
      rw [hsome]
      constructor
      · intro h
        cases h
        exact ⟨p', rfl, rfl⟩
      · rintro ⟨p, h, rfl⟩
        cases h
        rfl

/-- A run stores the block and the state that it returns, and otherwise nothing. -/
theorem fetchPeerSnapshot_db : (fetchPeerSnapshot trusted peers answers db).2 =
    match (fetchPeerSnapshot trusted peers answers db).1 with
    | none => db
    | some (height, state, cpBlock) =>
      (db.saveBlockIndexed cpBlock).saveCheckpoint height state := by
  unfold fetchPeerSnapshot
  split
  · rfl
  · split <;> rfl

theorem sameState_iff {p p' : SnapshotPayload} {b : Block} :
    SameState (p.state b) (p'.state b) ↔ SamePayload p p' := by
  constructor
  · intro h
    refine ⟨h.balances, fun sig => ?_, h.pendingTickets, h.pot, h.currentDifficulty, h.asertAnchor,
      h.chainWork⟩
    have hsig := Finset.ext_iff.mp h.confirmedSignatures sig
    simpa [SnapshotPayload.state] using hsig
  · intro h
    refine ⟨h.balances, ?_, h.tickets, h.pot, h.currentDifficulty, h.asertAnchor, h.chainWork, rfl⟩
    ext sig
    simpa [SnapshotPayload.state] using h.confirmedSignatures sig

/-- Two runs that succeed at one height return the same state and the same consistent block exactly
when their peers offer the same payload and the same consistent block first. -/
theorem anchored_iff_offerAlike :
    Anchored core (fetchPeerSnapshot trusted peers answers db).1
        (fetchPeerSnapshot trusted peers' answers' db').1 ↔
      OfferAlike core trusted peers peers' answers answers' := by
  constructor
  · intro h height k k' p p' b b' hoffers hoffers'
    obtain ⟨hstate, rfl, hb⟩ := h height _ b _ b'
      (fetchPeerSnapshot_eq_some.mpr ⟨k, p, hoffers, rfl⟩)
      (fetchPeerSnapshot_eq_some.mpr ⟨k', p', hoffers', rfl⟩)
    exact ⟨sameState_iff.mp hstate, rfl, hb⟩
  · intro h height state b state' b' hrun hrun'
    obtain ⟨k, p, hoffers, rfl⟩ := fetchPeerSnapshot_eq_some.mp hrun
    obtain ⟨k', p', hoffers', rfl⟩ := fetchPeerSnapshot_eq_some.mp hrun'
    obtain ⟨hpayload, rfl, hb⟩ := h height k k' p p' b b' hoffers hoffers'
    exact ⟨sameState_iff.mpr hpayload, rfl, hb⟩

/-! ### The start with an empty database -/

section

open Started

variable {env : Environment}

/-- A start with an empty database restores the snapshot that is offered first. -/
theorem startEmpty_of_offersFirst {height k : ℕ} {p : SnapshotPayload} {cpBlock : Block}
    (harchive : env.archive = false)
    (h : OffersFirst trusted env.peers env.answers k height p cpBlock) :
    startEmpty core trusted env db = .ok (fromSnapshot env
      ((db.saveBlockIndexed cpBlock).saveCheckpoint height (p.state cpBlock)) height
      (p.state cpBlock) cpBlock) := by
  have hfirst : (fetchPeerSnapshot trusted env.peers env.answers db).1 = _ :=
    fetchPeerSnapshot_eq_some.mpr ⟨k, p, h, rfl⟩
  have hsecond : (fetchPeerSnapshot trusted env.peers env.answers db).2 = _ := fetchPeerSnapshot_db
  rw [hfirst] at hsecond
  rw [startEmpty, harchive, if_neg Bool.false_ne_true,
    ← Prod.eta (fetchPeerSnapshot trusted env.peers env.answers db), hfirst, hsecond]

/-- It restores a snapshot that is offered first, or begins with the genesis block. -/
theorem startEmpty_cases {s : Started} (h : startEmpty core trusted env db = .ok s) :
    (∃ height k p cpBlock, env.archive = false ∧
      OffersFirst trusted env.peers env.answers k height p cpBlock ∧ s = fromSnapshot env
        ((db.saveBlockIndexed cpBlock).saveCheckpoint height (p.state cpBlock)) height
        (p.state cpBlock) cpBlock) ∨
    ∃ root, core.computeTxRoot Node.genesisTxs = some root ∧
      s = fromGenesis env db (Node.mainnetGenesis root) := by
  by_cases hoffer : env.archive = false ∧ ∃ k height p cpBlock,
      OffersFirst trusted env.peers env.answers k height p cpBlock
  · obtain ⟨harchive, k, height, p, cpBlock, hoffers⟩ := hoffer
    rw [startEmpty_of_offersFirst harchive hoffers, Except.ok.injEq] at h
    exact .inl ⟨height, k, p, cpBlock, harchive, hoffers, h.symm⟩
  · right
    have hnone : (if env.archive then (none, db)
        else fetchPeerSnapshot trusted env.peers env.answers db) = (none, db) := by
      split
      · rfl
      · rename_i harchive
        have hfirst : (fetchPeerSnapshot trusted env.peers env.answers db).1 = none := by
          by_contra hne
          obtain ⟨⟨height, state, cpBlock⟩, hsome⟩ := Option.ne_none_iff_exists'.mp hne
          obtain ⟨k, p, hoffers, -⟩ := fetchPeerSnapshot_eq_some.mp hsome
          exact hoffer ⟨by simpa using harchive, k, height, p, cpBlock, hoffers⟩
        have hsecond : (fetchPeerSnapshot trusted env.peers env.answers db).2 = _ :=
          fetchPeerSnapshot_db
        rw [hfirst] at hsecond
        rw [← Prod.eta (fetchPeerSnapshot trusted env.peers env.answers db), hfirst, hsecond]
    rw [startEmpty, hnone] at h
    simp only at h
    split at h
    · cases h
    · rename_i root hroot
      cases h
      exact ⟨root, hroot, rfl⟩

end

/-! ### Forged answers -/

/-- The answers of one peer that lists a trusted checkpoint and then sends a payload and a block of
its own with the trusted hash. -/
def forged (height : ℕ) (hash : String) (payload : SnapshotPayload) (cpBlock : Block) :
    SnapshotAnswers where
  snapshots _ := some [⟨height, hash⟩]
  payload _ := some { payload with blockHashHex := hash }
  blocks _ := some [cpBlock]

/-- For a trusted hash, a peer can send any state and any block that carries the hash. -/
theorem fetchPeerSnapshot_forged {height : ℕ} {hash : String} {cpBlock : Block}
    (htrusted : trusted.find? (fun checkpoint => checkpoint.1 = height) = some (height, hash))
    (hhash : hashDigits hash = (hexEncode cpBlock.hash).toList) (peer : String)
    (payload : SnapshotPayload) :
    (fetchPeerSnapshot trusted [peer] (forged height hash payload cpBlock) db).1 =
      some (height, payload.state cpBlock, cpBlock) := by
  have hne : trusted.isEmpty = false := by
    cases trusted with
    | nil => cases htrusted
    | cons => rfl
  have hcandidates : snapshotCandidates trusted [peer] (forged height hash payload cpBlock) =
      [⟨peer, height, hash⟩] := by
    simp [snapshotCandidates, matchingSnapshots, forged, htrusted]
  rw [fetchPeerSnapshot, hne, hcandidates]
  simp [trySnapshots, verifiedSnapshot, forged, hhash, SnapshotPayload.state]

end Startup

namespace Sample

open Startup

/-- A hash that is trusted at height 1000, and a block that carries it without having it. -/
def trustedHash : Bytes := List.replicate 32 171

def trustedAt1000 : List TrustedCheckpoint := [(1000, hexEncode trustedHash)]

def claimedBlock : Block := { block 1000 [] 1748060000 32 with hash := trustedHash }

def payloadWithPot (pot : ℕ) : SnapshotPayload where
  height := 1000
  blockHashHex := hexEncode trustedHash
  balances := ∅
  confirmedSignatures := []
  pot := pot
  chainWorkHex := "0x0"
  currentDifficulty := 25
  asertAnchor := none
  tickets := []

/-- Two peers answer for the trusted checkpoint with different pots, and with a block that does not
have the hash: both runs succeed. -/
theorem forgeries_not_anchored :
    (∃ s s', (fetchPeerSnapshot trustedAt1000 ["peer"] (forged 1000 (hexEncode trustedHash)
        (payloadWithPot 1) claimedBlock) Db.empty).1 = some (1000, s, claimedBlock) ∧
      (fetchPeerSnapshot trustedAt1000 ["peer"] (forged 1000 (hexEncode trustedHash)
        (payloadWithPot 2) claimedBlock) Db.empty).1 = some (1000, s', claimedBlock) ∧
      s.pot = 1 ∧ s'.pot = 2) ∧
    ¬ SelfConsistent plainCore claimedBlock ∧
    ¬ Anchored plainCore
      (fetchPeerSnapshot trustedAt1000 ["peer"] (forged 1000 (hexEncode trustedHash)
        (payloadWithPot 1) claimedBlock) Db.empty).1
      (fetchPeerSnapshot trustedAt1000 ["peer"] (forged 1000 (hexEncode trustedHash)
        (payloadWithPot 2) claimedBlock) Db.empty).1 := by
  have hfetch : ∀ pot, (fetchPeerSnapshot trustedAt1000 ["peer"] (forged 1000
      (hexEncode trustedHash) (payloadWithPot pot) claimedBlock) Db.empty).1 =
      some (1000, (payloadWithPot pot).state claimedBlock, claimedBlock) := fun pot =>
    fetchPeerSnapshot_forged (by decide +kernel) (by decide +kernel) "peer" (payloadWithPot pot)
  have hclaimed : ¬ SelfConsistent plainCore claimedBlock := fun h =>
    absurd h.hash (by decide +kernel)
  refine ⟨⟨_, _, hfetch 1, hfetch 2, rfl, rfl⟩, hclaimed, fun h => ?_⟩
  exact hclaimed (h 1000 _ _ _ _ (hfetch 1) (hfetch 2)).2.2

end Sample

end Lootcoin
