import Lootcoin.Api
import Lootcoin.Sample
import Lootcoin.Chain.Reorder

/-! The miner: which pending transactions it selects, the block that it assembles on the head that a
node reports, and the search for a nonce.  A block that it assembles from what a node can confirm
fails none of the node's checks but those of its time and its work. -/

namespace Lootcoin

/-- What a node reports of its chain, as far as the miner reads it. -/
structure HeadResp where
  height : ℕ
  latestHashHex : String
  difficulty : ℚ

/-- The difficulty is handed over as the node has it. Read from the decimal digits of its answer it
may be a neighbouring double. -/
def chainHeadHandler (c : Blockchain) : HeadResp :=
  ⟨c.getHeight, hexEncode c.getLatestHash, c.currentDifficulty⟩

/-- What a node reports of its pool. -/
def listMempoolHandler (p : Mempool) : List MempoolEntry :=
  p.allTransactionsWithHeight.map fun (transaction, addedHeight) => ⟨transaction, addedHeight⟩

namespace Miner

/-- The age from which a full block takes a transaction falls with its fee. -/
def isEligible (entry : MempoolEntry) (currentHeight : ℕ) : Bool :=
  if entry.tx.fee = 0 then false
  else decide (guaranteeAfter / entry.tx.fee - 1 ≤ currentHeight - entry.addedHeight)

/-- The highest fees first, and equal fees in the order given. -/
def sortByFee (txs : List Transaction) : List Transaction :=
  txs.insertionSort fun a b => b.fee ≤ a.fee

/-- Everything that is pending if it fits into one block, or else the eligible transactions with the
highest fees. -/
def selectTransactions (entries : List MempoolEntry) (height : ℕ) : List Transaction :=
  if entries.length ≤ maxBlockTxs then sortByFee (entries.map fun e => e.tx)
  else
    (sortByFee ((entries.filter fun e => isEligible e height).map fun e => e.tx)).take maxBlockTxs

def coinbaseTo (minerAddress : Address) : Transaction where
  sender := ""
  receiver := minerAddress
  amount := 1
  fee := 0
  nonce := 0
  publicKey := List.replicate 32 0
  signature := []

@[simp] theorem coinbaseTo_isCoinbase (miner : Address) : (coinbaseTo miner).isCoinbase = true := rfl
@[simp] theorem coinbaseTo_amount (miner : Address) : (coinbaseTo miner).amount = 1 := rfl
@[simp] theorem coinbaseTo_fee (miner : Address) : (coinbaseTo miner).fee = 0 := rfl
@[simp] theorem coinbaseTo_receiver (miner : Address) : (coinbaseTo miner).receiver = miner := rfl

/-- The candidate block on a head, or none while nothing that is pending is eligible. -/
def assembleBlock (core : Core) (head : HeadResp) (entries : List MempoolEntry)
    (minerAddress : Address) (timestamp nonce : ℕ) : Except Fault (Option Block) :=
  let txs := selectTransactions entries head.height
  if txs.isEmpty ∧ 0 < entries.length then .ok none
  else
    let blockTxs := coinbaseTo minerAddress :: txs
    match core.computeTxRoot blockTxs with
    | none => .error .panic
    | some txRoot => .ok (some {
        index := head.height
        previousHash := (fromHex head.latestHashHex).getD []
        timestamp := timestamp
        nonce := nonce
        txRoot := txRoot
        transactions := blockTxs
        hash := [] })

/-- The search for a nonce from some try on: the block with its hash and the number of tries, or
none where the miner is told to stop. The fuel bounds the tries. -/
def mine (core : Core) (difficulty : ℚ) (stopped : ℕ → Bool) :
    ℕ → ℕ → Block → Except Fault (Option (Block × ℕ))
  | fuel, tries, block =>
    match core.calculateHash block.toHeader with
    | none => .error .panic
    | some hash =>
      if core.meetsDifficulty hash difficulty then .ok (some ({ block with hash := hash }, tries))
      else
        match fuel with
        | 0 => .error .divergence
        | fuel + 1 =>
          if tries % 10000 = 0 ∧ stopped tries then .ok none
          else
            mine core difficulty stopped fuel (Word.wrappingAdd 64 tries 1)
              { block with nonce := Word.wrappingAdd 64 block.nonce 1 }

/-- A block is a candidate with some nonce, and with the hash that goes with it. -/
def Seals (core : Core) (candidate b : Block) : Prop :=
  ∃ nonce hash, core.calculateHash { candidate.toHeader with nonce := nonce } = some hash ∧
    b = { candidate with nonce := nonce, hash := hash }

variable {core : Core} {candidate b : Block} {entries : List MempoolEntry}
  {txs txs' : List Transaction} {tx : Transaction} {miner : Address} {height : ℕ}

/-- The search finds a nonce of its candidate, whose hash meets the difficulty. -/
theorem seals_of_mine {difficulty : ℚ} {stopped : ℕ → Bool} {fuel tries tries' : ℕ}
    (h : mine core difficulty stopped fuel tries candidate = .ok (some (b, tries'))) :
    Seals core candidate b ∧ core.meetsDifficulty b.hash difficulty = true := by
  induction fuel generalizing tries candidate with
  | zero =>
    rw [mine] at h
    split at h
    · cases h
    rename_i hash hhash
    split at h
    · rename_i hmeets
      cases h
      exact ⟨⟨candidate.nonce, hash, hhash, rfl⟩, hmeets⟩
    · cases h
  | succ fuel ih =>
    rw [mine] at h
    split at h
    · cases h
    rename_i hash hhash
    split at h
    · rename_i hmeets
      cases h
      exact ⟨⟨candidate.nonce, hash, hhash, rfl⟩, hmeets⟩
    split at h
    · cases h
    · obtain ⟨⟨nonce, hash', hhash', rfl⟩, hmeets⟩ := ih h
      exact ⟨⟨nonce, hash', hhash', rfl⟩, hmeets⟩

theorem Seals.fields (h : Seals core candidate b) : b.index = candidate.index ∧
    b.previousHash = candidate.previousHash ∧ b.txRoot = candidate.txRoot ∧
    b.transactions = candidate.transactions ∧ core.calculateHash b.toHeader = some b.hash := by
  obtain ⟨nonce, hash, hhash, rfl⟩ := h
  exact ⟨rfl, rfl, rfl, rfl, hhash⟩

/-! ### Encodings -/

theorem hexValue_hexDigit : ∀ n < 16, hexValue (hexDigit n) = some n := by
  decide

theorem fromHex_hexEncode (bs : Bytes) : fromHex (hexEncode bs) = some bs := by
  rw [fromHex, hexEncode, String.toList_ofList]
  induction bs with
  | nil => rfl
  | cons b bs ih =>
    have hhigh := hexValue_hexDigit (b.val / 16) (by omega)
    have hlow := hexValue_hexDigit (b.val % 16) (by omega)
    rw [List.flatMap_cons, List.cons_append, List.cons_append, List.nil_append, fromHexDigits,
      hhigh, hlow, ih]
    simp only [Option.bind_eq_bind, Option.bind_some, Option.pure_def, Nat.div_add_mod]
    rw [show Fin.ofNat 256 b.val = b from Fin.ext (Nat.mod_eq_of_lt b.isLt)]

/-! ### Selection -/

theorem sortByFee_perm (txs : List Transaction) : (sortByFee txs).Perm txs :=
  List.perm_insertionSort _ txs

/-- What is selected is pending, each transaction no more often than it is. -/
theorem selectTransactions_subperm :
    (selectTransactions entries height).Subperm (entries.map fun e => e.tx) := by
  unfold selectTransactions
  split
  · exact (sortByFee_perm _).subperm
  · refine (List.take_sublist _ _).subperm.trans ((sortByFee_perm _).subperm.trans ?_)
    exact (List.filter_sublist.map _).subperm

theorem length_selectTransactions : (selectTransactions entries height).length ≤ maxBlockTxs := by
  unfold selectTransactions
  split
  · rename_i hle
    rwa [(sortByFee_perm _).length_eq, List.length_map]
  · rw [List.length_take]
    exact Nat.min_le_left _ _

end Miner

namespace DerivedState

variable {core : Core} {s : DerivedState} {txs txs' : List Transaction} {tx : Transaction}

/-! ### What a node can confirm -/

theorem spentBy_le_of_subperm (h : txs.Subperm txs') (a : Address) :
    spentBy txs a ≤ spentBy txs' a := by
  obtain ⟨l, hperm, hsub⟩ := h
  rw [← spentBy_perm hperm]
  exact ((hsub.filter _).map _).sum_le_sum fun _ _ => Nat.zero_le _

/-- Transactions that can be confirmed together: each passes the rules on its own, no two have the
same signature, and the balance of each sender covers what its transfers cost. -/
structure Confirmable (core : Core) (s : DerivedState) (txs : List Transaction) : Prop where
  verified : ∀ tx ∈ txs, core.verify tx = true
  fee : ∀ tx ∈ txs, minTxFee ≤ tx.fee
  receiver : ∀ tx ∈ txs, isValidAddress core tx.receiver = true
  unconfirmed : ∀ tx ∈ txs, tx.signature ∉ s.confirmedSignatures
  distinct : (txs.map fun tx => tx.signature).Nodup
  affordable : ∀ a, spentBy txs a ≤ s.getBalance a

theorem Confirmable.of_subperm (h : Confirmable core s txs') (hsub : txs.Subperm txs') :
    Confirmable core s txs where
  verified := fun tx htx => h.verified tx (hsub.subset htx)
  fee := fun tx htx => h.fee tx (hsub.subset htx)
  receiver := fun tx htx => h.receiver tx (hsub.subset htx)
  unconfirmed := fun tx htx => h.unconfirmed tx (hsub.subset htx)
  distinct := by
    obtain ⟨l, hperm, hl⟩ := hsub
    exact (hperm.map _).nodup_iff.mp (h.distinct.sublist (hl.map _))
  affordable := fun a => (spentBy_le_of_subperm hsub a).trans (h.affordable a)

/-- Before transfers that can be confirmed together, a coinbase is no obstacle. -/
theorem Confirmable.prevalidate (h : Confirmable core s txs)
    (hcs : ∀ tx ∈ txs, tx.isCoinbase = false) (hbalance : ∀ a, s.getBalance a < 2 ^ 64)
    {coinbase : Transaction} (hcoinbase : coinbase.isCoinbase = true) :
    (s.prevalidate core (coinbase :: txs)).isSome = true := by
  have hzero : ∀ a, HashTable.getD Prevalidation.start.pendingDebits a 0 ≤ s.getBalance a :=
    fun a => Nat.zero_le _
  have hsigs : signaturesIn (coinbase :: txs) = txs.map fun tx => tx.signature := by
    rw [signaturesIn_coinbase hcoinbase, signaturesIn,
      List.filter_eq_self.mpr fun tx htx => by simp [hcs tx htx]]
  refine (prevalidate_isSome_iff hbalance hzero).mpr
    ⟨fun tx htx htransfer => ?_, ?_, ?_, fun a => ?_⟩
  · rcases List.mem_cons.mp htx with rfl | htx
    · rw [hcoinbase] at htransfer
      cases htransfer
    · exact ⟨h.verified tx htx, h.fee tx htx, h.receiver tx htx, h.unconfirmed tx htx⟩
  · rw [hsigs]
    exact h.distinct
  · simp [Prevalidation.start]
  · rw [spentBy_coinbase hcoinbase, show HashTable.getD Prevalidation.start.pendingDebits a 0 = 0
      from rfl, Nat.zero_add]
    exact h.affordable a

end DerivedState

namespace Mempool

/-- Every transaction that is pending. -/
def transactions (p : Mempool) : List Transaction := (listMempoolHandler p).map fun e => e.tx

variable {p : Mempool} {tx : Transaction}

theorem transactions_eq (p : Mempool) : p.transactions = p.entries.values.map fun e => e.tx := by
  simp [transactions, listMempoolHandler, allTransactionsWithHeight]

/-- No coinbase is pending. -/
theorem isCoinbase_of_pending (h : tx ∈ p.transactions) : tx.isCoinbase = false := by
  rw [transactions_eq] at h
  obtain ⟨e, he, rfl⟩ := List.mem_map.mp h
  obtain ⟨sig, hlookup⟩ := HashTable.mem_values.mp he
  exact (p.keyed sig e hlookup).2

end Mempool

namespace Miner

variable {core : Core} {c : Blockchain} {p : Mempool} {candidate b : Block} {miner : Address}
  {head : HeadResp} {entries : List MempoolEntry} {timestamp nonce : ℕ}

/-! ### The block of the miner -/

/-- An assembled block holds the coinbase and the selection, committed to, on the head. -/
theorem assembleBlock_eq_some
    (h : assembleBlock core head entries miner timestamp nonce = .ok (some b)) :
    b.index = head.height ∧ b.previousHash = (fromHex head.latestHashHex).getD [] ∧
      b.transactions = coinbaseTo miner :: selectTransactions entries head.height ∧
      core.computeTxRoot b.transactions = some b.txRoot := by
  simp only [assembleBlock] at h
  split at h
  · cases h
  split at h
  · cases h
  rename_i txRoot hroot
  cases h
  exact ⟨rfl, rfl, rfl, hroot⟩

/-- A block with the miner's coinbase before some transfers, no more than fit, passes the checks
that come before the chain is asked. -/
theorem incomingBlockError_of_coinbaseTo {txs : List Transaction}
    (hblock : b.transactions = coinbaseTo miner :: txs) (hlen : txs.length ≤ maxBlockTxs)
    (hcs : ∀ tx ∈ txs, tx.isCoinbase = false) (hminer : isValidAddress core miner = true)
    (hhash : core.calculateHash b.toHeader = some b.hash) :
    incomingBlockError core b = none := by
  have hany : (txs.any fun tx => tx.isCoinbase) = false := by
    simpa using hcs
  simp only [incomingBlockError, hblock, List.length_cons]
  rw [if_neg (by omega), if_neg (by simp), if_neg (by simp), if_neg (by simp),
    if_neg (by simp [hminer]), if_neg (by simp [hany])]
  simp [hhash]

/-- A block with the miner's coinbase before transfers that can be confirmed passes every rule on
its body but the proof of work. -/
theorem validBody_of_coinbaseTo {s : DerivedState} {txs : List Transaction}
    (hblock : b.transactions = coinbaseTo miner :: txs) (hlen : txs.length ≤ maxBlockTxs)
    (hcs : ∀ tx ∈ txs, tx.isCoinbase = false) (hminer : isValidAddress core miner = true)
    (hhash : core.calculateHash b.toHeader = some b.hash)
    (hroot : core.computeTxRoot b.transactions = some b.txRoot)
    (hconf : DerivedState.Confirmable core s txs) (hbalance : ∀ a, s.getBalance a < 2 ^ 64) :
    s.validBody core b = true ↔ core.meetsDifficulty b.hash s.currentDifficulty = true := by
  rw [DerivedState.validBody_iff]
  constructor
  · exact fun h => h.2.1
  · intro hmeets
    refine ⟨hhash, hmeets, ?_, ?_, ?_, hroot, ?_⟩
    · rw [nonCoinbaseCount, hblock, List.countP_cons]
      exact Nat.le_trans (by simpa using List.countP_le_length) hlen
    · rw [hblock]
      exact hcs
    · rw [DerivedState.validCoinbase, hblock]
      simpa [isValidAddress] using hminer
    · rw [hblock]
      exact Option.isSome_iff_exists.mp (hconf.prevalidate hcs hbalance rfl)

/-- The miner's block, assembled on what a node reports of its chain and of a pool that it can
confirm, passes the checks of the node's handler, and the rules accept it exactly when they accept
its time and its work. -/
theorem assembled_accepted (hbalance : ∀ a, c.getBalance a < 2 ^ 64)
    (hpool : DerivedState.Confirmable core c.toDerivedState p.transactions)
    (hminer : isValidAddress core miner = true)
    (hassemble : assembleBlock core (chainHeadHandler c) (listMempoolHandler p) miner timestamp
      nonce = .ok (some candidate)) (hseal : Seals core candidate b) :
    incomingBlockError core b = none ∧ ∀ now, c.acceptsBlock core now b = true ↔
      b.timestamp ≤ now + 120 ∧ pastMedian c.blocks b.timestamp = true ∧
        core.meetsDifficulty b.hash c.currentDifficulty = true := by
  obtain ⟨hindex, hprev, htxs, hroot⟩ := assembleBlock_eq_some hassemble
  obtain ⟨hindex', hprev', hroot', htxs', hhash⟩ := hseal.fields
  rw [← hindex'] at hindex
  rw [← hprev', chainHeadHandler, fromHex_hexEncode, Option.getD_some] at hprev
  rw [← htxs', ← hroot'] at hroot
  rw [← htxs'] at htxs
  have hsub : (selectTransactions (listMempoolHandler p) (chainHeadHandler c).height).Subperm
      p.transactions := selectTransactions_subperm
  have hcs : ∀ tx ∈ selectTransactions (listMempoolHandler p) (chainHeadHandler c).height,
      tx.isCoinbase = false :=
    fun tx htx => Mempool.isCoinbase_of_pending (hsub.subset htx)
  refine ⟨incomingBlockError_of_coinbaseTo htxs length_selectTransactions hcs hminer hhash,
    fun now => ?_⟩
  rw [Blockchain.acceptsBlock_iff, validBody_of_coinbaseTo htxs length_selectTransactions hcs hminer
    hhash hroot (hpool.of_subperm hsub) hbalance]
  exact and_iff_right (Blockchain.linksToTip_iff.mpr ⟨hindex, hprev⟩)

end Miner

namespace Sample

open Miner

/-- A pool with two payments out of the genesis balance, the one with the higher fee behind. -/
def twoPayments : Mempool :=
  ((Mempool.new none).put plainCore (coins Node.genesisAddress "payee" 600 10 7) 1 rfl).put plainCore
    (coins Node.genesisAddress "payee" 500 30 8) 1 rfl

theorem twoPayments_confirmable :
    DerivedState.Confirmable plainCore node.chain.toDerivedState twoPayments.transactions where
  verified := fun _ _ => rfl
  fee := by decide +kernel
  receiver := fun _ _ => rfl
  unconfirmed := by decide +kernel
  distinct := by decide +kernel
  affordable := by
    intro a
    by_cases ha : a = Node.genesisAddress
    · rw [ha]
      decide +kernel
    · have hsenders : ∀ tx ∈ twoPayments.transactions, tx.sender = Node.genesisAddress := by
        decide +kernel
      rw [DerivedState.spentBy, List.filter_eq_nil_iff.mpr, List.map_nil, List.sum_nil]
      · exact Nat.zero_le _
      · intro tx htx
        rw [hsenders tx htx]
        simp [Ne.symm ha]

/-- The miner assembles both payments, the higher fee first, and finds a nonce at the first try. -/
theorem twoPayments_accepted : ∃ candidate b,
    assembleBlock plainCore (chainHeadHandler node.chain) (listMempoolHandler twoPayments) "miner"
      1748000060 32 = .ok (some candidate) ∧
    mine plainCore node.chain.currentDifficulty (fun _ => false) 1 0 candidate = .ok (some (b, 0)) ∧
    incomingBlockError plainCore b = none ∧
    ∀ now, node.chain.acceptsBlock plainCore now b = true ↔
      b.timestamp ≤ now + 120 ∧ pastMedian node.chain.blocks b.timestamp = true ∧
        plainCore.meetsDifficulty b.hash node.chain.currentDifficulty = true := by
  have hbalance : ∀ a, node.chain.getBalance a < 2 ^ 64 := by
    intro a
    have hle := DerivedState.getBalance_add_pot_le node.chain.toDerivedState a
    have hsupply : node.chain.totalSupply < 2 ^ 64 := by decide +kernel
    omega
  have hassembled : ((assembleBlock plainCore (chainHeadHandler node.chain)
      (listMempoolHandler twoPayments) "miner" 1748000060 32).toOption.join.map fun candidate =>
        (mine plainCore node.chain.currentDifficulty (fun _ => false) 1 0 candidate).toOption.join.map
          fun r => r.2) = some (some 0) := by
    decide +kernel
  obtain ⟨candidate, hcandidate, hmined⟩ := Option.map_eq_some_iff.mp hassembled
  obtain ⟨⟨b, tries⟩, hb, rfl⟩ := Option.map_eq_some_iff.mp hmined
  have hassemble := Fallible.toOption_eq_some.mp (Option.join_eq_some_iff.mp hcandidate)
  have hmine := Fallible.toOption_eq_some.mp (Option.join_eq_some_iff.mp hb)
  exact ⟨candidate, b, hassemble, hmine, Miner.assembled_accepted hbalance twoPayments_confirmable
    (by decide +kernel) hassemble (seals_of_mine hmine).1⟩

end Sample

end Lootcoin
