import Lootcoin.Miner
import Lootcoin.Startup.Blocks

/-! The header that the graphics card hashes.  The miner writes the fields of a block at fixed
places into 104 bytes, and each thread of the kernel writes its nonce over that of the template.
The block hash is taken of the serialized header, in which the previous hash and the root have their
lengths in front.  The two agree on every block whose previous hash has 32 bytes. -/

namespace Lootcoin

/-- The fields that the block hash covers, as `bincode` writes them. -/
def serializeHeader (h : Header) : Bytes :=
  littleEndian 8 h.index ++ encodeBytes h.previousHash ++ littleEndian 8 h.timestamp ++
    littleEndian 8 h.nonce ++ encodeBytes h.txRoot

namespace Miner

/-- Writes bytes over those from `lo` to `hi`, which must be as many. -/
def copyFromSlice (h : Bytes) (lo hi : ℕ) (src : Bytes) : Except Fault Bytes :=
  if src.length = hi - lo then .ok (h.take lo ++ src ++ h.drop hi) else .error .panic

def makeHeaderTemplate (block : Block) : Except Fault Bytes := do
  let h := List.replicate 104 0
  let h ← copyFromSlice h 0 8 (littleEndian 8 block.index)
  let h ← copyFromSlice h 8 16 (littleEndian 8 block.previousHash.length)
  let h ← copyFromSlice h 16 48 block.previousHash
  let h ← copyFromSlice h 48 56 (littleEndian 8 block.timestamp)
  let h ← copyFromSlice h 56 64 (littleEndian 8 block.nonce)
  let h ← copyFromSlice h 64 72 (littleEndian 8 block.txRoot.length)
  copyFromSlice h 72 104 block.txRoot

end Miner

namespace Kernel

def nonceOffset : ℕ := 56

/-- A thread's copy of the template, with the nonce of the thread. -/
def patchNonce (tmpl : Bytes) (nonce : ℕ) : Bytes :=
  (List.range 8).foldl
    (fun header i => header.set (nonceOffset + i) (Fin.ofNat 256 (nonce >>> (i * 8)))) tmpl

end Kernel

/-! ### The template -/

namespace Miner

variable {b : Block} {pre src : Bytes} {lo hi size : ℕ}

/-- Writing the next bytes of a buffer that is zero from there on. -/
theorem copyFromSlice_next (hpre : pre.length = lo) (hsrc : src.length = hi - lo) (hlo : lo ≤ hi)
    (hhi : hi ≤ size) : copyFromSlice (pre ++ List.replicate (size - lo) 0) lo hi src =
      .ok ((pre ++ src) ++ List.replicate (size - hi) 0) := by
  have hdrop : (pre ++ List.replicate (size - lo) (0 : Byte)).drop hi =
      List.replicate (size - hi) 0 := by
    rw [List.drop_append, List.drop_eq_nil_of_le (by omega), List.nil_append, List.drop_replicate]
    congr 1
    omega
  rw [copyFromSlice, if_pos hsrc, hdrop, List.take_left' hpre]

theorem bind_copyFromSlice {k : Bytes → Except Fault Bytes} (hpre : pre.length = lo)
    (hsrc : src.length = hi - lo) (hlo : lo ≤ hi) (hhi : hi ≤ size) :
    (copyFromSlice (pre ++ List.replicate (size - lo) 0) lo hi src >>= k) =
      k ((pre ++ src) ++ List.replicate (size - hi) 0) := by
  rw [copyFromSlice_next hpre hsrc hlo hhi]
  rfl

theorem copyFromSlice_panics {h : Bytes} (hsrc : src.length ≠ hi - lo) :
    copyFromSlice h lo hi src = .error .panic :=
  if_neg hsrc

/-- The template is the serialized header where the previous hash and the root fill their
places. -/
theorem makeHeaderTemplate_eq (b : Block) : makeHeaderTemplate b =
    if b.previousHash.length = 32 ∧ b.txRoot.length = 32 then .ok (serializeHeader b.toHeader)
    else .error .panic := by
  have hnum := length_littleEndian 8
  rw [makeHeaderTemplate,
    show List.replicate 104 (0 : Byte) = [] ++ List.replicate (104 - 0) 0 from rfl]
  refine (bind_copyFromSlice (by simp) (by simp [hnum]) (by omega) (by omega)).trans ?_
  refine (bind_copyFromSlice (by simp [hnum]) (by simp [hnum]) (by omega) (by omega)).trans ?_
  by_cases hprev : b.previousHash.length = 32
  · refine (bind_copyFromSlice (by simp [hnum]) hprev (by omega) (by omega)).trans ?_
    refine (bind_copyFromSlice (by simp [hnum, hprev]) (by simp [hnum]) (by omega)
      (by omega)).trans ?_
    refine (bind_copyFromSlice (by simp [hnum, hprev]) (by simp [hnum]) (by omega)
      (by omega)).trans ?_
    refine (bind_copyFromSlice (by simp [hnum, hprev]) (by simp [hnum]) (by omega)
      (by omega)).trans ?_
    by_cases hroot : b.txRoot.length = 32
    · rw [copyFromSlice_next (by simp [hnum, hprev]) hroot (by omega) (by omega),
        if_pos ⟨hprev, hroot⟩]
      simp [serializeHeader, encodeBytes]
    · rw [copyFromSlice_panics hroot, if_neg fun h => hroot h.2]
  · rw [copyFromSlice_panics hprev, if_neg fun h => hprev h.1]
    rfl

end Miner

/-! ### The nonce -/

namespace Kernel

/-- Writing byte after byte over the middle of a buffer. -/
theorem foldl_set (pre mid post : Bytes) (f : ℕ → Byte) :
    (List.range mid.length).foldl (fun header i => header.set (pre.length + i) (f i))
      (pre ++ mid ++ post) = pre ++ (List.range mid.length).map f ++ post := by
  induction mid using List.reverseRecOn generalizing post with
  | nil => rfl
  | append_singleton mid b ih =>
    have hshape : pre ++ (mid ++ [b]) ++ post = pre ++ mid ++ b :: post := by simp
    have hlen : (pre ++ (List.range mid.length).map f).length = pre.length + mid.length := by simp
    rw [List.length_append, List.length_singleton, List.range_succ, List.foldl_append, hshape, ih,
      List.foldl_cons, List.foldl_nil, List.set_append_right _ _ hlen.le, hlen, Nat.sub_self]
    simp

/-- The bytes of a number are its shifts, cut to a byte each. -/
theorem map_shiftRight_range (n v : ℕ) :
    (List.range n).map (fun i => Fin.ofNat 256 (v >>> (i * 8))) = littleEndian n v := by
  induction n generalizing v with
  | zero => rfl
  | succ n ih =>
    have hshift : ∀ i, v >>> ((i + 1) * 8) = (v / 256) >>> (i * 8) := by
      intro i
      rw [Nat.shiftRight_eq_div_pow, Nat.shiftRight_eq_div_pow, Nat.div_div_eq_div_mul,
        ← show 2 ^ 8 = 256 from rfl, ← Nat.pow_add]
      congr 2
      omega
    rw [List.range_succ_eq_map, List.map_cons, List.map_map, littleEndian, ← ih]
    simp only [Function.comp_def, Nat.succ_eq_add_one, hshift]
    rfl

/-- With a previous hash of 32 bytes, a thread hashes the serialized header with its nonce. -/
theorem patchNonce_serializeHeader {h : Header} (hprev : h.previousHash.length = 32) (nonce : ℕ) :
    patchNonce (serializeHeader h) nonce = serializeHeader { h with nonce := nonce } := by
  have hpre : (littleEndian 8 h.index ++ encodeBytes h.previousHash ++
      littleEndian 8 h.timestamp).length = nonceOffset := by
    simp [encodeBytes, length_littleEndian, hprev, nonceOffset]
  have hfold := foldl_set (littleEndian 8 h.index ++ encodeBytes h.previousHash ++
    littleEndian 8 h.timestamp) (littleEndian 8 h.nonce) (encodeBytes h.txRoot)
    fun i => Fin.ofNat 256 (nonce >>> (i * 8))
  rw [length_littleEndian, hpre, map_shiftRight_range] at hfold
  exact hfold

end Kernel

/-! ### The blocks that the miner assembles -/

/-- Block hashes and transaction roots are CubeHash-256 digests. -/
structure Core.Digests (core : Core) : Prop where
  calculateHash : ∀ {h : Header} {d : Bytes}, core.calculateHash h = some d → d.length = 32
  computeTxRoot : ∀ {txs : List Transaction} {d : Bytes},
    core.computeTxRoot txs = some d → d.length = 32

/-- The template of a block is its serialized header, and under every nonce that is written over
that of the template it is the serialized header with that nonce. -/
def Miner.TemplateMatches (b : Block) : Prop :=
  ∃ tmpl, makeHeaderTemplate b = .ok tmpl ∧ tmpl = serializeHeader b.toHeader ∧
    ∀ nonce, Kernel.patchNonce tmpl nonce = serializeHeader { b.toHeader with nonce := nonce }

namespace Miner

variable {core : Core} {b : Block}

theorem templateMatches_iff :
    TemplateMatches b ↔ b.previousHash.length = 32 ∧ b.txRoot.length = 32 := by
  unfold TemplateMatches
  rw [makeHeaderTemplate_eq]
  constructor
  · rintro ⟨tmpl, htmpl, -⟩
    by_contra hlen
    rw [if_neg hlen] at htmpl
    cases htmpl
  · intro hlen
    rw [if_pos hlen]
    exact ⟨_, rfl, rfl, Kernel.patchNonce_serializeHeader hlen.1⟩

theorem length_hexEncode (bs : Bytes) : (hexEncode bs).toList.length = 2 * bs.length := by
  rw [hexEncode, String.toList_ofList]
  induction bs with
  | nil => rfl
  | cons x bs ih =>
    rw [List.flatMap_cons, List.length_append, ih, List.length_cons]
    simp only [List.length_cons, List.length_nil]
    omega

open Startup

/-- Every block of known origin has a digest for its hash, but for a genesis block. -/
theorem length_hash_of_origin (hcore : core.Digests) {trusted : List TrustedCheckpoint}
    (htrusted : ∀ checkpoint ∈ trusted, (hashDigits checkpoint.2).length = 64)
    (h : Origin core trusted b) : b.hash.length = 32 ∨ (b.index = 0 ∧ b.hash = []) := by
  cases h with
  | genesis root hb =>
    subst hb
    exact .inr ⟨rfl, rfl⟩
  | hashed hhash => exact .inl (hcore.calculateHash hhash)
  | anchored checkpoint hmem hdigits =>
    have hlen := htrusted checkpoint hmem
    rw [← hdigits, length_hexEncode] at hlen
    exact .inl (by omega)

/-- Whatever a node has started with and has been given, the template of a block that the miner
assembles on its head matches the header that the block hash covers exactly when the head is not a
genesis block, which has no hash. -/
theorem templateMatches_of_run (hcore : core.Digests) {trusted : List TrustedCheckpoint}
    (htrusted : ∀ checkpoint ∈ trusted, (hashDigits checkpoint.2).length = 64)
    {es : List LifeEvent} {s : Started} (run : Runs.Run (Lives core trusted) none es (some s))
    {entries : List MempoolEntry} {miner : Address} {timestamp nonce : ℕ}
    (hassemble : assembleBlock core (chainHeadHandler s.chain) entries miner timestamp nonce =
      .ok (some b)) :
    TemplateMatches b ↔
      ¬ ∃ genesis, s.chain.blocks.getLast? = some genesis ∧
        genesis.index = 0 ∧ genesis.hash = [] := by
  obtain ⟨-, hprev, -, hroot⟩ := assembleBlock_eq_some hassemble
  rw [chainHeadHandler, fromHex_hexEncode, Option.getD_some] at hprev
  have hderives := derives_of_run run
  have hlast := List.getLast?_eq_some_getLast hderives.nonempty
  obtain ⟨head, hhead⟩ : ∃ head, s.chain.blocks.getLast? = some head := ⟨_, hlast⟩
  have hlatest : s.chain.getLatestHash = head.hash := by
    rw [Blockchain.getLatestHash, hhead]
    rfl
  have horigin := hderives.origin head (.inl (List.mem_of_getLast? hhead))
  have hhash := length_hash_of_origin hcore htrusted horigin
  rw [templateMatches_iff, hprev, hlatest, and_iff_left (hcore.computeTxRoot hroot)]
  constructor
  · rintro hlen ⟨genesis, hgenesis, -, hempty⟩
    cases hhead.symm.trans hgenesis
    rw [hempty] at hlen
    cases hlen
  · intro hne
    exact hhash.resolve_right fun h => hne ⟨head, hhead, h⟩

end Miner

namespace Sample

open Miner Startup

/-- The transparent core with hashes and roots cut to 32 bytes. -/
def digestCore : Core :=
  { plainCore with
    calculateHash := fun h => (plainCore.calculateHash h).map fun d => d.take 32
    computeTxRoot := fun txs => some (littleEndian 32 txs.length) }

theorem digestCore_digests : digestCore.Digests where
  calculateHash := by
    intro h d hd
    obtain ⟨d', hd', rfl⟩ := Option.map_eq_some_iff.mp hd
    simp only [plainCore, Option.ite_none_right_eq_some, Option.some.injEq] at hd'
    rw [← hd'.2, List.length_take]
    simp [plainHash, headerBytes, encodeBytes, length_littleEndian]
    omega
  computeTxRoot := by
    intro txs d hd
    cases hd
    exact length_littleEndian 32 txs.length

/-- A block on the genesis block. -/
def digestBlock : Block :=
  let header : Header := {
    index := 1
    previousHash := []
    timestamp := 1748000060
    nonce := 32
    txRoot := littleEndian 32 0 }
  { header with
    transactions := []
    hash := (plainHash header).take 32 }

/-- What the miner assembles on the head of a node without pending transactions. -/
def assembleOn (s : Started) : Except Fault (Option Block) :=
  assembleBlock digestCore (chainHeadHandler s.chain) [] "miner" 1748000120 7

/-- A node that has just started from the genesis block reports an empty hash, and no template can
be made of the first block. -/
theorem firstBlock_panics : ∃ s b, digestCore.Digests ∧
    Runs.Run (Lives digestCore []) none [.boot archiveStart] (some s) ∧
    s.chain.getHeight = 1 ∧ (chainHeadHandler s.chain).latestHashHex = "" ∧
    assembleOn s = .ok (some b) ∧ makeHeaderTemplate b = .error .panic ∧ ¬ TemplateMatches b := by
  have hrun : ((startNode digestCore [] archiveStart Db.empty).toOption.bind fun s =>
      (assembleOn s).toOption.join.map fun b => (s.chain.getHeight,
        (chainHeadHandler s.chain).latestHashHex, b.previousHash.length)) = some (1, "", 0) := by
    decide +kernel
  simp only [Option.bind_eq_some_iff, Option.map_eq_some_iff, Option.join_eq_some_iff,
    Prod.mk.injEq, Fallible.toOption_eq_some] at hrun
  obtain ⟨s, hboot, b, hassemble, hheight, hhead, hlen⟩ := hrun
  have hshort : ¬ (b.previousHash.length = 32 ∧ b.txRoot.length = 32) := by
    rw [hlen]
    exact fun h => absurd h.1 (by decide)
  refine ⟨s, b, digestCore_digests, .cons (.boot hboot) (.nil _), hheight, hhead, hassemble, ?_,
    mt templateMatches_iff.mp hshort⟩
  rw [makeHeaderTemplate_eq, if_neg hshort]

/-- After the node has been given a block, the template of the next one matches. -/
theorem nextBlock_matches : ∃ s b,
    Runs.Run (Lives digestCore []) none [.boot archiveStart, .apply (deliveryAbove digestBlock)]
      (some s) ∧
    s.chain.blocks.getLast? = some digestBlock ∧ assembleOn s = .ok (some b) ∧
    TemplateMatches b := by
  have hrun : ((startNode digestCore [] archiveStart Db.empty).toOption.bind fun s =>
      (s.node.applyBlock digestCore (deliveryAbove digestBlock).ambient digestBlock).toOption.bind
        fun r => (assembleOn { s with chain := r.2.chain, db := r.2.db }).toOption.join.map
          fun _ => r.2.chain.blocks.getLast?) = some (some digestBlock) := by
    decide +kernel
  simp only [Option.bind_eq_some_iff, Option.map_eq_some_iff, Option.join_eq_some_iff,
    Fallible.toOption_eq_some] at hrun
  obtain ⟨s, hboot, ⟨outcome, n⟩, happ, b, hassemble, hhead⟩ := hrun
  have hfits : digestBlock.Fits := by decide +kernel
  have run : Runs.Run (Lives digestCore []) none
      [.boot archiveStart, .apply (deliveryAbove digestBlock)]
      (some { s with chain := n.chain, db := n.db }) :=
    .cons (.boot hboot) (.cons (.apply ⟨hfits, outcome, happ⟩) (.nil _))
  refine ⟨_, b, run, hhead, hassemble, (Miner.templateMatches_of_run digestCore_digests (by simp)
    run hassemble).mpr ?_⟩
  rintro ⟨genesis, hgenesis, hindex, -⟩
  cases hhead.symm.trans hgenesis
  cases hindex

end Sample

end Lootcoin
