import Lootcoin.Api

/-! The synchronization of a node with its peers: it asks each for its head, takes those that claim
more work, the most first, and downloads from one of them in batches, from the node's own height
on.  The first block that does not raise the height ends the download from that peer. -/

namespace Lootcoin

/-- What a peer reports of its chain, as far as a synchronization reads it. -/
structure PeerHead where
  height : ℕ
  chainWorkHex : String

/-- The answers of a peer: its head, and the blocks from an index on up to a limit. A request that
fails, or whose answer does not decode, has none. -/
structure Peer where
  head : Option PeerHead
  blocks : ℕ → ℕ → Option (List Block)

/-! ### Work in hexadecimal digits -/

def lowerHex (n : ℕ) : String := String.ofList (Nat.toDigits 16 n)

/-- Reads digits behind a number, while it fits in a width. -/
def readRadix16 (w : ℕ) : ℕ → List Char → Option ℕ
  | v, [] => some v
  | v, c :: cs => do
    let digit ← hexValue c
    if 16 * v + digit < 2 ^ w then readRadix16 w (16 * v + digit) cs else none

/-- A number from its digits, with or without a plus sign. -/
def fromStrRadix16 (w : ℕ) : List Char → Option ℕ
  | [] => none
  | '+' :: cs => if cs = [] then none else readRadix16 w 0 cs
  | c :: cs => readRadix16 w 0 (c :: cs)

/-- The characters without any `0x` in front. -/
def trimStart0x : List Char → List Char
  | '0' :: 'x' :: cs => trimStart0x cs
  | cs => cs

/-- The work that a head claims, or none where it cannot be read. -/
def PeerHead.work (head : PeerHead) : ℕ :=
  (fromStrRadix16 128 (trimStart0x head.chainWorkHex.toList)).getD 0

/-! ### The download -/

def batchSize : ℕ := 100

/-- Applies blocks until one does not raise the height. Returns whether all have, the node, and the
number of blocks handled so far, which tells the surroundings of the next one. -/
def applyBatch (core : Core) (ambients : ℕ → Ambient) :
    Node → ℕ → List Block → Except Fault (Bool × Node × ℕ)
  | n, handled, [] => .ok (true, n, handled)
  | n, handled, b :: bs => do
    let expected := n.chain.getHeight
    let (_, n') ← n.applyBlock core (ambients handled) b
    if expected < n'.chain.getHeight then applyBatch core ambients n' (handled + 1) bs
    else return (false, n', handled + 1)

/-- Downloads from one peer up to the height that it claims. Returns whether the synchronization is
complete. The fuel bounds the requests. -/
def syncFromPeer (core : Core) (ambients : ℕ → Ambient) (peer : Peer) (peerHeight : ℕ) :
    ℕ → Node → ℕ → Except Fault (Bool × Node × ℕ)
  | 0, _, _ => .error .divergence
  | fuel + 1, n, handled =>
    let start := n.chain.getHeight
    if peerHeight ≤ start then .ok (true, n, handled)
    else
      match peer.blocks start batchSize with
      | none => .ok (false, n, handled)
      | some [] => .ok (true, n, handled)
      | some (b :: bs) => do
        let (accepted, n', handled') ← applyBatch core ambients n handled (b :: bs)
        if accepted then syncFromPeer core ambients peer peerHeight fuel n' handled'
        else return (false, n', handled')

/-- Downloads from one peer after the other until one completes. -/
def syncFromCandidates (core : Core) (ambients : ℕ → Ambient) (fuel : ℕ) :
    List (Peer × PeerHead) → Node → ℕ → Except Fault Node
  | [], n, _ => .ok n
  | (peer, head) :: candidates, n, handled => do
    let (complete, n', handled') ← syncFromPeer core ambients peer head.height fuel n handled
    if complete then return n' else syncFromCandidates core ambients fuel candidates n' handled'

/-- The peers that claim more work than a node has, the most work first. -/
def syncCandidates (peers : List Peer) (ourWork : ℕ) : List (Peer × PeerHead) :=
  let candidates := peers.filterMap fun peer => peer.head.map fun head => (peer, head)
  (candidates.filter fun candidate => ourWork < candidate.2.work).insertionSort
    fun candidate candidate' => candidate'.2.work ≤ candidate.2.work

/-- Synchronizes a node with its known peers. -/
def syncFromPeers (core : Core) (ambients : ℕ → Ambient) (fuel : ℕ) (n : Node)
    (knownPeers : List Peer) : Except Fault Node :=
  syncFromCandidates core ambients fuel (syncCandidates knownPeers n.chain.getChainWork) n 0

/-! ### Honest peers -/

/-- The most blocks that a peer returns for one request. -/
def maxBlockLimit : ℕ := 500

/-- A peer that answers from its chain. -/
def Peer.honest (c : Blockchain) : Peer where
  head := some ⟨c.getHeight, lowerHex c.getChainWork⟩
  blocks := fun start limit => some ((c.blocks.drop start).take (min limit maxBlockLimit))

theorem hexValue_digitChar : ∀ d < 16, hexValue (Nat.digitChar d) = some d := by
  decide

theorem readRadix16_append {w v v' : ℕ} {cs : List Char} (h : readRadix16 w v cs = some v')
    (cs' : List Char) : readRadix16 w v (cs ++ cs') = readRadix16 w v' cs' := by
  induction cs generalizing v with
  | nil =>
    cases h
    rfl
  | cons c cs ih =>
    rw [readRadix16] at h
    obtain ⟨digit, hdigit, h⟩ := Option.bind_eq_some_iff.mp h
    obtain ⟨hfits, h⟩ := Option.ite_none_right_eq_some.mp h
    rw [List.cons_append, readRadix16, hdigit, Option.bind_eq_bind, Option.bind_some, if_pos hfits,
      ih h]

/-- What can be read has only digits. -/
theorem hexValue_of_readRadix16 {w v v' : ℕ} {cs : List Char}
    (h : readRadix16 w v cs = some v') : ∀ c ∈ cs, (hexValue c).isSome = true := by
  induction cs generalizing v with
  | nil => simp
  | cons c cs ih =>
    rw [readRadix16] at h
    obtain ⟨digit, hdigit, h⟩ := Option.bind_eq_some_iff.mp h
    obtain ⟨-, h⟩ := Option.ite_none_right_eq_some.mp h
    exact List.forall_mem_cons.mpr ⟨by rw [hdigit]; rfl, ih h⟩

theorem readRadix16_toDigits {w n : ℕ} (h : n < 2 ^ w) :
    readRadix16 w 0 (Nat.toDigits 16 n) = some n := by
  induction n using Nat.strong_induction_on with
  | _ n ih =>
    rw [Nat.toDigits_eq_if (by decide)]
    split
    · rename_i hsmall
      rw [readRadix16, hexValue_digitChar n hsmall]
      simp [h, readRadix16]
    · rename_i hlarge
      have hdiv : 16 * (n / 16) + n % 16 = n := Nat.div_add_mod n 16
      rw [readRadix16_append (ih (n / 16) (by omega) (by omega)), readRadix16,
        hexValue_digitChar (n % 16) (Nat.mod_lt _ (by decide)), Option.bind_eq_bind,
        Option.bind_some, hdiv, if_pos h, readRadix16]

/-- The work that an honest peer prints is the work that a synchronization reads. -/
theorem work_lowerHex {height n : ℕ} (h : n < 2 ^ 128) :
    PeerHead.work ⟨height, lowerHex n⟩ = n := by
  have hread := readRadix16_toDigits h
  have hdigits := hexValue_of_readRadix16 hread
  have htrim : trimStart0x (Nat.toDigits 16 n) = Nat.toDigits 16 n := by
    unfold trimStart0x
    split
    · rename_i cs heq
      have hx := hdigits 'x' (by rw [heq]; simp)
      exact absurd hx (by decide)
    · rfl
  have hnumber : fromStrRadix16 128 (Nat.toDigits 16 n) = some n := by
    unfold fromStrRadix16
    split
    · rename_i heq
      exact absurd heq Nat.toDigits_ne_nil
    · rename_i cs heq
      have hplus := hdigits '+' (by rw [heq]; simp)
      exact absurd hplus (by decide)
    · rename_i c cs heq
      rw [← heq, hread]
  rw [PeerHead.work, lowerHex, String.toList_ofList, htrim, hnumber, Option.getD_some]

/-- A peer with no more work than a node is no candidate, and an honest one with more is the only
one when it is the only peer. -/
theorem syncCandidates_honest {c : Blockchain} {ourWork : ℕ} (h : c.getChainWork < 2 ^ 128) :
    syncCandidates [Peer.honest c] ourWork =
      if ourWork < c.getChainWork then
        [(Peer.honest c, ⟨c.getHeight, lowerHex c.getChainWork⟩)]
      else [] := by
  by_cases hwork : ourWork < c.getChainWork
  · simp [syncCandidates, Peer.honest, work_lowerHex h, hwork]
  · simp [syncCandidates, Peer.honest, work_lowerHex h, hwork]

end Lootcoin
