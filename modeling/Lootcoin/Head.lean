import Lootcoin.Library.Json
import Lootcoin.Mempool
import Lootcoin.Miner
import Lootcoin.Sync

/-! The head that a node reports, and who reads it: the miner, a node that synchronizes, and the
wallet.  The average time of a block is null in it while the window is short or does not go forward
in time, and the wallet wants a number there.  The difficulty is a double, and the miner and the
wallet read it from its decimal digits, where the last bit may be lost. -/

namespace Lootcoin

namespace Mempool

/-- The median fee of what is pending, of two the lower one. -/
def medianFee (p : Mempool) : Option ℕ :=
  let pending := p.len
  if pending = 0 then none
  else ((p.entries.values.map fun e => e.tx.fee).insertionSort fun a b => b ≤ a)[pending / 2]?

end Mempool

namespace Blockchain

def getLastBlockTimestamp (c : Blockchain) : ℕ := (c.blocks.getLast?.map (·.timestamp)).getD 0

/-- The average time between the last blocks, up to ten times. The genesis block is left out. The
positions that it reads are in the window. -/
def getAvgBlockTimeSecs (c : Blockchain) : Option ℚ := do
  let n := c.blocks.length
  if n < 3 then none
  else
    let window := min n 11
    let start := n - window
    let first ← c.blocks[start]?
    let (oldestIdx, intervals) :=
      if first.index = 0 then (start + 1, window - 2) else (start, window - 1)
    if intervals = 0 then none
    else
      let oldest ← c.blocks[oldestIdx]?
      let newest ← c.blocks[n - 1]?
      if newest.timestamp ≤ oldest.timestamp then none
      else
        some (Double.nearest (Double.nearest (newest.timestamp - oldest.timestamp : ℕ) /
          Double.nearest intervals))

end Blockchain

/-! ### The report -/

/-- What a node reports of its chain and of its pool. -/
structure ChainHeadResponse where
  height : ℕ
  latestHashHex : String
  difficulty : ℚ
  mempoolSize : ℕ
  mempoolMedianFee : Option ℕ
  avgBlockTimeSecs : Option ℚ
  chainWorkHex : String
  pot : ℕ

/-- The head of a chain beside a pool. The chain keeps the difficulty as an exact number here, and
the node as the double nearest to it, which is what it reports. -/
def chainHeadResponse (c : Blockchain) (p : Mempool) : ChainHeadResponse where
  height := c.getHeight
  latestHashHex := hexEncode c.getLatestHash
  difficulty := Double.nearest c.currentDifficulty
  mempoolSize := p.len
  mempoolMedianFee := p.medianFee
  avgBlockTimeSecs := c.getAvgBlockTimeSecs
  chainWorkHex := lowerHex c.getChainWork
  pot := c.pot

namespace ChainHeadResponse

def members (r : ChainHeadResponse) : List (String × Json) :=
  [("height", .integer r.height), ("latest_hash_hex", .string r.latestHashHex),
    ("difficulty", .ofDouble r.difficulty), ("mempool_size", .integer r.mempoolSize),
    ("mempool_median_fee", Json.ofOption (fun fee => .integer fee) r.mempoolMedianFee),
    ("avg_block_time_secs", Json.ofOption .ofDouble r.avgBlockTimeSecs),
    ("chain_work_hex", .string r.chainWorkHex), ("pot", .integer r.pot)]

def toJson (r : ChainHeadResponse) : Json := .object r.members

end ChainHeadResponse

/-! ### The readers -/

/-- The head as the wallet reads it. -/
structure ChainHead where
  height : ℕ
  difficulty : ℚ
  avgBlockTimeSecs : ℚ
  mempoolSize : ℕ
  pot : ℕ

def ChainHead.ofJson (j : Json) : Option ChainHead := do
  let height ← j.field "height" (Json.readUnsigned 64)
  let difficulty ← j.field "difficulty" Json.readDouble
  let avgBlockTimeSecs ← j.field "avg_block_time_secs" Json.readDouble
  let mempoolSize ← j.field "mempool_size" (Json.readUnsigned 64)
  let pot ← j.field "pot" (Json.readUnsigned 64)
  return ⟨height, difficulty, avgBlockTimeSecs, mempoolSize, pot⟩

def HeadResp.ofJson (j : Json) : Option HeadResp := do
  let height ← j.field "height" (Json.readUnsigned 64)
  let latestHashHex ← j.field "latest_hash_hex" Json.readString
  let difficulty ← j.field "difficulty" Json.readDouble
  return ⟨height, latestHashHex, difficulty⟩

def PeerHead.ofJson (j : Json) : Option PeerHead := do
  let height ← j.field "height" (Json.readUnsigned 64)
  let chainWorkHex ← j.field "chain_work_hex" Json.readString
  return ⟨height, chainWorkHex⟩

namespace ChainHeadResponse

variable {r : ChainHeadResponse}

theorem nodup_members (r : ChainHeadResponse) : (r.members.map Prod.fst).Nodup := by
  show ["height", "latest_hash_hex", "difficulty", "mempool_size", "mempool_median_fee",
    "avg_block_time_secs", "chain_work_hex", "pot"].Nodup
  decide

theorem field_toJson {α : Type*} {name : String} {v : Json} (h : (name, v) ∈ r.members)
    (read : Json → Option α) : r.toJson.field name read = read v :=
  Json.field_eq r.nodup_members h read

theorem field_unsigned {name : String} {n : ℕ} (hm : (name, Json.integer n) ∈ r.members)
    (h : n < 2 ^ 64) : r.toJson.field name (Json.readUnsigned 64) = some n :=
  (field_toJson hm _).trans (Json.readUnsigned_natCast h)

theorem field_height (h : r.height < 2 ^ 64) :
    r.toJson.field "height" (Json.readUnsigned 64) = some r.height :=
  field_unsigned (by simp [members]) h

theorem field_difficulty : r.toJson.field "difficulty" Json.readDouble =
    some (Decimal.ofDouble r.difficulty).read :=
  field_toJson (v := .ofDouble r.difficulty) (by simp [members]) _

theorem headResp_ofJson (h : r.height < 2 ^ 64) :
    HeadResp.ofJson r.toJson =
      some ⟨r.height, r.latestHashHex, (Decimal.ofDouble r.difficulty).read⟩ := by
  have hhash : r.toJson.field "latest_hash_hex" Json.readString = some r.latestHashHex :=
    field_toJson (v := .string r.latestHashHex) (by simp [members]) _
  simp only [HeadResp.ofJson, field_height h, hhash, field_difficulty]
  rfl

theorem peerHead_ofJson (h : r.height < 2 ^ 64) :
    PeerHead.ofJson r.toJson = some ⟨r.height, r.chainWorkHex⟩ := by
  have hwork : r.toJson.field "chain_work_hex" Json.readString = some r.chainWorkHex :=
    field_toJson (v := .string r.chainWorkHex) (by simp [members]) _
  simp only [PeerHead.ofJson, field_height h, hwork]
  rfl

/-- The wallet reads a head that has an average, and no other. -/
theorem chainHead_ofJson (h : r.height < 2 ^ 64) (hsize : r.mempoolSize < 2 ^ 64)
    (hpot : r.pot < 2 ^ 64) : ChainHead.ofJson r.toJson =
      r.avgBlockTimeSecs.map fun avg => ⟨r.height, (Decimal.ofDouble r.difficulty).read,
        (Decimal.ofDouble avg).read, r.mempoolSize, r.pot⟩ := by
  have havg : r.toJson.field "avg_block_time_secs" Json.readDouble =
      r.avgBlockTimeSecs.map fun avg => (Decimal.ofDouble avg).read :=
    (field_toJson (v := Json.ofOption .ofDouble r.avgBlockTimeSecs) (by simp [members]) _).trans
      (Json.readDouble_ofOption _)
  have hlen : r.toJson.field "mempool_size" (Json.readUnsigned 64) = some r.mempoolSize :=
    field_unsigned (by simp [members]) hsize
  have hcoins : r.toJson.field "pot" (Json.readUnsigned 64) = some r.pot :=
    field_unsigned (by simp [members]) hpot
  simp only [ChainHead.ofJson, field_height h, field_difficulty, havg, hlen, hcoins]
  cases r.avgBlockTimeSecs <;> rfl

end ChainHeadResponse

/-! ### Who reads a head -/

namespace Blockchain

variable {c : Blockchain}

/-- The oldest block that the average is taken from. -/
def oldestSample (c : Blockchain) : Option Block := do
  let start := c.blocks.length - min c.blocks.length 11
  let first ← c.blocks[start]?
  c.blocks[if first.index = 0 then start + 1 else start]?

/-- The window has three blocks, and time goes forward from the oldest sample to the tip. -/
def GoesForward (c : Blockchain) : Prop :=
  3 ≤ c.blocks.length ∧ ∃ oldest ∈ c.oldestSample, ∃ newest ∈ c.blocks.getLast?,
    oldest.timestamp < newest.timestamp

/-- There is an average exactly when time goes forward over three blocks. -/
theorem getAvgBlockTimeSecs_isSome_iff : c.getAvgBlockTimeSecs.isSome ↔ c.GoesForward := by
  rw [getAvgBlockTimeSecs, GoesForward]
  by_cases hlen : c.blocks.length < 3
  · rw [if_pos hlen]
    exact iff_of_false (by simp) fun h => by omega
  rw [if_neg hlen]
  -- what the code reads is in the window
  have hget : ∀ i < c.blocks.length, ∃ b, c.blocks[i]? = some b := fun i hi =>
    ⟨_, List.getElem?_eq_getElem hi⟩
  obtain ⟨first, hfirst⟩ := hget (c.blocks.length - min c.blocks.length 11) (by omega)
  obtain ⟨newest, hnewest⟩ := hget (c.blocks.length - 1) (by omega)
  have hlast : c.blocks.getLast? = some newest := by rw [List.getLast?_eq_getElem?, hnewest]
  have hend : ∀ {oldest : Block} {intervals : ℕ} {avg : ℚ}, 0 < intervals →
      ((if intervals = 0 then none
        else if newest.timestamp ≤ oldest.timestamp then none else some avg).isSome ↔
        3 ≤ c.blocks.length ∧ oldest.timestamp < newest.timestamp) := by
    intro oldest intervals avg hpos
    rw [if_neg hpos.ne']
    split
    · exact iff_of_false (by simp) fun h => by omega
    · exact iff_of_true rfl ⟨by omega, by omega⟩
  by_cases hgenesis : first.index = 0
  · obtain ⟨oldest, holdest⟩ := hget (c.blocks.length - min c.blocks.length 11 + 1) (by omega)
    have hsample : c.oldestSample = some oldest := by
      rw [oldestSample, hfirst]
      simpa [hgenesis] using holdest
    simp only [hfirst, hgenesis, if_true, holdest, hnewest, hsample, hlast, Option.bind_eq_bind,
      Option.bind_some, Option.mem_def, Option.some.injEq, exists_eq_left']
    exact hend (by omega)
  · have hsample : c.oldestSample = some first := by
      rw [oldestSample, hfirst]
      simpa [hgenesis] using hfirst
    simp only [hfirst, hgenesis, if_false, hnewest, hsample, hlast, Option.bind_eq_bind,
      Option.bind_some, Option.mem_def, Option.some.injEq, exists_eq_left']
    exact hend (by omega)

end Blockchain

section Readers

variable {c : Blockchain} {p : Mempool}

/-- The numbers of a head fit in their types. -/
structure HeadFits (c : Blockchain) (p : Mempool) : Prop where
  height : c.getHeight < 2 ^ 64
  pot : c.pot < 2 ^ 64
  chainWork : c.getChainWork < 2 ^ 128
  mempoolSize : p.len < 2 ^ 64

def ReadByWallet (c : Blockchain) (p : Mempool) : Prop :=
  ∃ head, ChainHead.ofJson (chainHeadResponse c p).toJson = some head ∧
    head.height = c.getHeight ∧ head.difficulty = Double.nearest c.currentDifficulty ∧
    head.pot = c.pot

def ReadByMiner (c : Blockchain) (p : Mempool) : Prop :=
  ∃ head, HeadResp.ofJson (chainHeadResponse c p).toJson = some head ∧
    head.height = c.getHeight ∧ head.difficulty = Double.nearest c.currentDifficulty ∧
    fromHex head.latestHashHex = some c.getLatestHash

def ReadByNodes (c : Blockchain) (p : Mempool) : Prop :=
  ∃ head, PeerHead.ofJson (chainHeadResponse c p).toJson = some head ∧
    head.height = c.getHeight ∧ head.work = c.getChainWork

/-- What is read of the digits of the difficulty is the difficulty. -/
def DifficultyReadsBack (c : Blockchain) : Prop :=
  Decimal.ReadsBack (Double.nearest c.currentDifficulty)

instance (c : Blockchain) : Decidable (DifficultyReadsBack c) :=
  inferInstanceAs (Decidable (Decimal.ReadsBack _))

theorem readByMiner_iff (h : HeadFits c p) : ReadByMiner c p ↔ DifficultyReadsBack c := by
  rw [ReadByMiner, ChainHeadResponse.headResp_ofJson h.height]
  constructor
  · rintro ⟨head, hhead, -, hdifficulty, -⟩
    cases hhead
    exact hdifficulty
  · exact fun hback => ⟨_, rfl, rfl, hback, Miner.fromHex_hexEncode _⟩

theorem readByNodes (h : HeadFits c p) : ReadByNodes c p :=
  ⟨_, ChainHeadResponse.peerHead_ofJson h.height, rfl, work_lowerHex h.chainWork⟩

/-- The wallet decodes a head whose time goes forward over three blocks, and no other. -/
theorem isSome_chainHead_iff (h : HeadFits c p) :
    (ChainHead.ofJson (chainHeadResponse c p).toJson).isSome ↔ c.GoesForward := by
  rw [← Blockchain.getAvgBlockTimeSecs_isSome_iff,
    ChainHeadResponse.chainHead_ofJson h.height h.mempoolSize h.pot, Option.isSome_map]
  rfl

theorem readByWallet_iff (h : HeadFits c p) :
    ReadByWallet c p ↔ c.GoesForward ∧ DifficultyReadsBack c := by
  rw [← Blockchain.getAvgBlockTimeSecs_isSome_iff, ReadByWallet,
    ChainHeadResponse.chainHead_ofJson h.height h.mempoolSize h.pot]
  show (∃ head, c.getAvgBlockTimeSecs.map _ = some head ∧ _) ↔ _
  cases c.getAvgBlockTimeSecs with
  | none => simp
  | some avg =>
    constructor
    · rintro ⟨head, hhead, -, hdifficulty, -⟩
      cases hhead
      exact ⟨rfl, hdifficulty⟩
    · exact fun hback => ⟨_, rfl, rfl, hback.2, rfl⟩

/-- A difficulty whose text has no more than 15 digits is read back. -/
theorem difficultyReadsBack_of_few_digits (hpos : 0 < c.currentDifficulty)
    (hlow : 0 ≤ (Decimal.ofDouble (Double.nearest c.currentDifficulty)).digits)
    (hhigh : (Decimal.ofDouble (Double.nearest c.currentDifficulty)).digits < 10 ^ 15)
    (hexp : |(Decimal.ofDouble (Double.nearest c.currentDifficulty)).exponent| ≤ 22) :
    DifficultyReadsBack c :=
  Decimal.readsBack_of_few_digits (Double.nearest_nearest hpos)
    ((half_pos hpos).trans_le (Double.half_le_nearest hpos)) hlow
    (hhigh.le.trans (by norm_num)) hexp

end Readers

namespace Sample

instance (c : Blockchain) : Decidable c.GoesForward := inferInstanceAs (Decidable (_ ∧ _))

/-- A block only 14 seconds after the main block. -/
def soonBlock : Block := block 2 mainBlock.hash 1748000074 33

/-- After it the difficulty is sent as `25.012777777777778`, and neither the miner nor the wallet
reads that number. -/
theorem soonBlock_misread : ∃ n,
    Runs.Run (Node.DeliversCompletely plainCore) node
      [⟨mainBlock, around 1748000160⟩, ⟨soonBlock, around 1748000160⟩] n ∧
    Decimal.ofDouble (chainHeadResponse n.chain (Mempool.new none)).difficulty =
      ⟨25012777777777778, -15⟩ ∧ n.chain.GoesForward ∧
    ¬ ReadByMiner n.chain (Mempool.new none) ∧ ¬ ReadByWallet n.chain (Mempool.new none) := by
  have hrun : (runCompletely node [⟨mainBlock, around 1748000160⟩,
      ⟨soonBlock, around 1748000160⟩]).map (fun n =>
        (n.chain.getHeight, n.chain.pot, n.chain.getChainWork,
          Decimal.ofDouble (Double.nearest n.chain.currentDifficulty),
          decide (n.chain.GoesForward ∧ ¬ DifficultyReadsBack n.chain))) =
      some (3, 99000000, 2 ^ 26, ⟨25012777777777778, -15⟩, true) := by
    decide +kernel
  obtain ⟨n, hn, hobs⟩ := Option.map_eq_some_iff.mp hrun
  simp only [Prod.mk.injEq, decide_eq_true_eq] at hobs
  obtain ⟨hheight, hpot, hwork, htext, hforward, hlost⟩ := hobs
  have hfits : HeadFits n.chain (Mempool.new none) :=
    ⟨by omega, by omega, by omega, by decide⟩
  exact ⟨n, run_of_runCompletely hn, htext, hforward, fun h => hlost ((readByMiner_iff hfits).mp h),
    fun h => hlost ((readByWallet_iff hfits).mp h).2⟩

end Sample

end Lootcoin
