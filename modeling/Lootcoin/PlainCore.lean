import Lootcoin.Encoding
import Lootcoin.Chain.Fork

/-! A transparent `Core` for runs on concrete blocks.  The hash of a header begins with as many zero
bits as the nonce says and spells out the header after them, so it has no collisions and shows
any work that a run asks for. -/

namespace Lootcoin

namespace Sample

/-! ### The core -/

/-- The fields of a header, one after the other. -/
def headerBytes (h : Header) : Bytes :=
  littleEndian 8 h.index ++ (encodeBytes h.previousHash ++ (littleEndian 8 h.timestamp ++
    (littleEndian 8 h.nonce ++ (encodeBytes h.txRoot ++ []))))

/-- The header behind as many zero bits as its nonce says. -/
def plainHash (h : Header) : Bytes :=
  List.replicate (h.nonce / 8) 0 ++ Fin.ofNat 256 (2 ^ (7 - h.nonce % 8)) :: headerBytes h

/-- The numbers and lengths of a header fit in 64 bits. -/
def HeaderFits (h : Header) : Prop :=
  h.index < 256 ^ 8 ∧ h.previousHash.length < 256 ^ 8 ∧ h.timestamp < 256 ^ 8 ∧
    h.nonce < 256 ^ 8 ∧ h.txRoot.length < 256 ^ 8

instance (h : Header) : Decidable (HeaderFits h) := by
  unfold HeaderFits
  infer_instance

def plainCore : Core where
  calculateHash h := if HeaderFits h then some (plainHash h) else none
  computeTxRoot txs := some (littleEndian 8 txs.length)
  verify _ := true
  txid tx := littleEndian 8 tx.nonce
  decodeAddress a := some (utf8 a)
  meetsDifficulty hash difficulty := decide (difficulty ≤ leadingZeroBits hash)
  digest _ := ⟨List.replicate 32 0, List.length_replicate⟩

theorem leadingZeroBits_replicate (n : ℕ) (b : Byte) (bs : Bytes) (hb : b ≠ 0) :
    leadingZeroBits (List.replicate n 0 ++ b :: bs) = 8 * n + byteLeadingZeros b := by
  induction n with
  | zero => simp [leadingZeroBits, hb]
  | succ n ih =>
    rw [List.replicate_succ, List.cons_append, leadingZeroBits, if_pos rfl, ih]
    omega

theorem byteLeadingZeros_twoPow : ∀ k < 8, (Fin.ofNat 256 (2 ^ (7 - k)) : Byte) ≠ 0 ∧
    byteLeadingZeros (Fin.ofNat 256 (2 ^ (7 - k))) = k := by
  decide

/-- A hash shows the zero bits that the nonce asks for. -/
theorem leadingZeroBits_plainHash (h : Header) : leadingZeroBits (plainHash h) = h.nonce := by
  obtain ⟨hne, hbits⟩ := byteLeadingZeros_twoPow (h.nonce % 8) (Nat.mod_lt _ (by decide))
  rw [plainHash, leadingZeroBits_replicate _ _ _ hne, hbits, Nat.div_add_mod]

theorem plainHash_inj {h h' : Header} (hf : HeaderFits h) (hf' : HeaderFits h')
    (heq : plainHash h = plainHash h') : h = h' := by
  have hnonce : h.nonce = h'.nonce := by
    rw [← leadingZeroBits_plainHash, heq, leadingZeroBits_plainHash]
  rw [plainHash, plainHash, hnonce] at heq
  have hbytes := List.append_cancel_left heq
  rw [List.cons.injEq] at hbytes
  obtain ⟨hi, hp, ht, hn, hr⟩ := hf
  obtain ⟨hi', hp', ht', hn', hr'⟩ := hf'
  obtain ⟨hindex, hrest⟩ := littleEndian_append_inj hi hi' hbytes.2
  obtain ⟨hprev, hrest⟩ := encodeBytes_append_inj hp hp' hrest
  obtain ⟨htime, hrest⟩ := littleEndian_append_inj ht ht' hrest
  obtain ⟨-, hrest⟩ := littleEndian_append_inj hn hn' hrest
  obtain ⟨hroot, -⟩ := encodeBytes_append_inj hr hr' hrest
  cases h
  cases h'
  simp_all

theorem plainCore_collisionFree : plainCore.CollisionFree where
  injective := by
    intro h h' d hd hd'
    simp only [plainCore, Option.ite_none_right_eq_some, Option.some.injEq] at hd hd'
    exact plainHash_inj hd.1 hd'.1 (hd.2.trans hd'.2.symm)
  nonempty := by
    intro h d hd
    simp only [plainCore, Option.ite_none_right_eq_some, Option.some.injEq] at hd
    rw [← hd.2, plainHash]
    simp

/-! ### Blocks -/

/-- A block whose hash shows the given zero bits. -/
def blockOf (transactions : List Transaction) (index : ℕ) (previousHash : Bytes)
    (timestamp zeroBits : ℕ) : Block :=
  let header : Header := {
    index := index
    previousHash := previousHash
    timestamp := timestamp
    nonce := zeroBits
    txRoot := littleEndian 8 transactions.length }
  { header with
    transactions := transactions
    hash := plainHash header }

/-- A block without transactions. -/
def block (index : ℕ) (previousHash : Bytes) (timestamp zeroBits : ℕ) : Block :=
  blockOf [] index previousHash timestamp zeroBits

end Sample

end Lootcoin
