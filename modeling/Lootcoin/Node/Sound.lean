import Lootcoin.Chain.Window
import Lootcoin.Node

/-! What holds at every node that deliveries lead to, whatever blocks they bring and however the
replays of reorganizations end: the window is sound, and the database keeps blocks under their own
indices and always has a block at index 0.  Where block hashes have no collisions and the genesis
block has no hash, the hash table has the whole window. -/

namespace Lootcoin

/-! ### The tables of stored blocks -/

theorem get_foldl_remove (old : List Block) (t : OrderedTable ℕ Block) (i : ℕ) :
    (old.foldl (fun t b => t.remove b.index) t).get i =
      if i ∈ old.map (fun b => b.index) then none else t.get i := by
  have hkeys : old.foldl (fun t b => t.remove b.index) t =
      t.removeAll (old.map fun b => b.index) := by
    rw [OrderedTable.removeAll, List.foldl_map]
  rw [hkeys, OrderedTable.get_removeAll]

/-- After writing a list of blocks, a table holds at an index one of them or what it held. -/
theorem get_foldl_insert (new : List Block) (t : OrderedTable ℕ Block) (i : ℕ) :
    (∃ b ∈ new, b.index = i ∧ (new.foldl (fun t b => t.insert b.index b) t).get i = some b) ∨
      (i ∉ new.map (fun b => b.index) ∧
        (new.foldl (fun t b => t.insert b.index b) t).get i = t.get i) := by
  induction new generalizing t with
  | nil => exact .inr ⟨by simp, rfl⟩
  | cons b new ih =>
    rw [List.foldl_cons]
    rcases ih (t.insert b.index b) with ⟨x, hx, hi, hget⟩ | ⟨hni, hget⟩
    · exact .inl ⟨x, List.mem_cons_of_mem _ hx, hi, hget⟩
    · by_cases hb : i = b.index
      · refine .inl ⟨b, List.mem_cons_self, hb.symm, ?_⟩
        rw [hget, hb, OrderedTable.get_insert]
      · refine .inr ⟨by simpa [hb] using hni, ?_⟩
        rw [hget, OrderedTable.get_insert_ne t b hb]

/-- Writing a block under its index keeps blocks under their indices. -/
theorem index_of_get_insert {t : OrderedTable ℕ Block}
    (ht : ∀ i x, t.get i = some x → x.index = i) (b : Block) {i : ℕ} {x : Block}
    (h : (t.insert b.index b).get i = some x) : x.index = i := by
  by_cases hi : i = b.index
  · rw [hi, OrderedTable.get_insert, Option.some.injEq] at h
    rw [hi, h]
  · rw [OrderedTable.get_insert_ne _ _ hi] at h
    exact ht i x h

/-- So does replacing displaced blocks by those of a fork. -/
theorem index_of_get_foldl {t : OrderedTable ℕ Block}
    (ht : ∀ i x, t.get i = some x → x.index = i) (old new : List Block) {i : ℕ} {x : Block}
    (h : (new.foldl (fun t b => t.insert b.index b)
      (old.foldl (fun t b => t.remove b.index) t)).get i = some x) : x.index = i := by
  rcases get_foldl_insert new (old.foldl (fun t b => t.remove b.index) t) i with
    ⟨y, -, hyi, hget⟩ | ⟨-, hget⟩
  · cases h.symm.trans hget
    exact hyi
  · rw [hget, get_foldl_remove] at h
    split at h
    · cases h
    · exact ht i x h

theorem Db.mem_getBlocksRange {db : Db} {start limit : ℕ} {b : Block}
    (hb : b ∈ db.getBlocksRange start limit) :
    ∃ i, start ≤ i ∧ i < start + limit ∧ db.blocks.get i = some b := by
  obtain ⟨i, hle, hlt, hget⟩ := OrderedTable.mem_range.mp hb
  refine ⟨i, hle, ?_, hget⟩
  unfold Word.saturatingAdd at hlt
  omega

/-- A range of stored blocks from index 0 on begins with the block there. -/
theorem Db.getBlocksRange_zero {db : Db} {g : Block} {k : ℕ} (hg : db.blocks.get 0 = some g)
    (hk : 0 < k) : ∃ rest, db.getBlocksRange 0 k = g :: rest := by
  obtain ⟨m, hm⟩ : ∃ m, Word.saturatingAdd 64 0 k = m + 1 := by
    refine ⟨Word.saturatingAdd 64 0 k - 1, ?_⟩
    unfold Word.saturatingAdd Word.maxValue
    omega
  refine ⟨(List.range' 1 m).filterMap db.blocks.get, ?_⟩
  rw [getBlocksRange, hm, OrderedTable.range_of_le _ (Nat.zero_le _), Nat.sub_zero,
    List.range'_succ, List.filterMap_cons, hg]

/-- What is replayed with a database that holds a first block begins with a block at index zero, and
each block of it was given or is stored below those given. -/
theorem Db.withHistory_reader {db : Db} {g₀ first : Block} {l : List Block}
    {target : Option (List Block)} (hget : db.blocks.get 0 = some g₀) (hzero : g₀.index = 0)
    (h : Blockchain.withHistory (first :: l) (some db.reader) = .ok target) :
    ∃ g rest, target = some (g :: rest) ∧ g.index = 0 ∧
      ∀ x ∈ g :: rest, x ∈ first :: l ∨ x ∈ db.getBlocksRange 0 first.index := by
  rw [Blockchain.withHistory] at h
  split at h
  · rename_i hpos
    obtain ⟨below, hbelow⟩ := getBlocksRange_zero hget hpos
    simp only [reader, hbelow, Option.map_some, Except.ok.injEq] at h
    refine ⟨g₀, below ++ first :: l, h.symm, hzero, fun x hx => ?_⟩
    rw [hbelow]
    exact (List.mem_append.mp hx).symm
  · cases h
    exact ⟨first, l, rfl, by omega, fun x hx => .inl hx⟩

namespace Node

variable {core : Core} {ambient : Ambient} {n n' : Node} {b : Block} {outcome : BlockOutcome}

/-! ### What a delivery does -/

theorem applyBlock_eq_ok : n.applyBlock core ambient b = .ok (outcome, n') ↔ ∃ chain,
    n.chain.applyInMemory core ambient b (some n.db.reader) = .ok (outcome, chain) ∧
    ((outcome = .applied ∧ ∃ last, chain.blocks.getLast? = some last ∧
        n' = persistApplied core ⟨chain, n.db⟩ last) ∨
      (∃ old new, outcome = .reorged old new ∧ n' = persistReorged core ⟨chain, n.db⟩ old new) ∨
      ((outcome = .orphaned ∨ outcome = .rejected) ∧ n' = ⟨chain, n.db⟩)) := by
  unfold applyBlock
  rw [Fallible.bind_eq_ok]
  constructor
  · rintro ⟨⟨outcome', chain⟩, happ, h⟩
    cases outcome' with
    | applied =>
      simp only at h
      split at h
      · simp at h
      · rename_i last hlast
        cases Fallible.pure_eq_ok.mp h
        exact ⟨chain, happ, .inl ⟨rfl, last, hlast, rfl⟩⟩
    | reorged old new =>
      cases Fallible.pure_eq_ok.mp h
      exact ⟨chain, happ, .inr (.inl ⟨old, new, rfl, rfl⟩)⟩
    | orphaned =>
      cases Fallible.pure_eq_ok.mp h
      exact ⟨chain, happ, .inr (.inr ⟨.inl rfl, rfl⟩)⟩
    | rejected =>
      cases Fallible.pure_eq_ok.mp h
      exact ⟨chain, happ, .inr (.inr ⟨.inr rfl, rfl⟩)⟩
  · rintro ⟨chain, happ, ⟨rfl, last, hlast, rfl⟩ | ⟨old, new, rfl, rfl⟩ | ⟨rfl | rfl, rfl⟩⟩
    · exact ⟨_, happ, by simp only [hlast]; rfl⟩
    · exact ⟨_, happ, rfl⟩
    · exact ⟨_, happ, rfl⟩
    · exact ⟨_, happ, rfl⟩

/-- Draining payouts changes nothing but the table of payouts. -/
theorem drainPayouts_eq (c : Blockchain) (blocks : List Block) :
    ∃ payouts, (c.drainPayouts blocks).2 = { c with settledPayoutsByBlock := payouts } := by
  have h : ∀ (acc : HashTable ℕ (List Payout) × Blockchain),
      (∃ payouts, acc.2 = { c with settledPayoutsByBlock := payouts }) →
      ∃ payouts, (blocks.foldl Blockchain.drainInto acc).2 =
        { c with settledPayoutsByBlock := payouts } := by
    induction blocks with
    | nil => exact fun _ h => h
    | cons b blocks ih =>
      rintro ⟨t, d⟩ ⟨payouts, rfl⟩
      exact ih _ ⟨_, rfl⟩
  exact h (∅, c) ⟨_, rfl⟩

/-- A stored append prunes the chain, whose payouts it drains. -/
theorem persistApplied_chain (core : Core) (n : Node) (b : Block) : ∃ payouts,
    (persistApplied core n b).chain =
      Blockchain.pruneToWindow { n.chain with settledPayoutsByBlock := payouts } :=
  ⟨_, rfl⟩

theorem persistApplied_blocks (core : Core) (n : Node) (b : Block) :
    (persistApplied core n b).db.blocks = n.db.blocks.insert b.index b := by
  simp only [persistApplied]
  split <;> simp [Db.saveCheckpoint]

/-- A stored reorganization prunes the chain, whose payouts it drains. -/
theorem persistReorged_chain (core : Core) (n : Node) (old new : List Block) : ∃ payouts,
    (persistReorged core n old new).chain =
      Blockchain.pruneToWindow { n.chain with settledPayoutsByBlock := payouts } := by
  cases old with
  | nil => exact ⟨_, rfl⟩
  | cons first old =>
    obtain ⟨payouts, h⟩ := drainPayouts_eq n.chain new
    exact ⟨payouts, congrArg Blockchain.pruneToWindow h⟩

/-- A stored reorganization removes the displaced blocks and writes the new ones. -/
theorem persistReorged_blocks (core : Core) (n : Node) (old new : List Block) :
    (persistReorged core n old new).db.blocks =
      new.foldl (fun t b => t.insert b.index b)
        (old.foldl (fun t b => t.remove b.index) n.db.blocks) := by
  cases old with
  | nil =>
    simp only [persistReorged, Db.rebuildIndicesWithTickets_blocks,
      Db.foldl_saveBlockIndexed_blocks]
    rfl
  | cons first old =>
    simp only [persistReorged, Db.applyReorgIncremental_blocks]
    rfl

/-- What a delivery does to the chain in memory and the stored blocks. -/
inductive Effect (core : Core) (ambient : Ambient) (n : Node) (b : Block) (n' : Node) :
    BlockOutcome → Prop
  | applied {chain : Blockchain} {payouts : HashTable ℕ (List Payout)} :
      n.chain.updateState core (ambient.clock 0) b = .ok (some chain) →
      n'.chain = Blockchain.pruneToWindow { chain with settledPayoutsByBlock := payouts } →
      n'.db.blocks = n.db.blocks.insert b.index b → Effect core ambient n b n' .applied
  | rejected : n.chain.updateState core (ambient.clock 0) b = .ok none →
      (n.chain.linksToTip b = true ∨ n.chain.validateBlockStandalone core b = false) →
      n' = n → Effect core ambient n b n' .rejected
  | orphaned : n.chain.admits core ambient b = some (n.chain.admitOrphan ambient.order b) →
      (n.chain.admitOrphan ambient.order b).findLongestFork ambient.order (some n.db.reader) =
        .ok none →
      n' = ⟨n.chain.admitOrphan ambient.order b, n.db⟩ → Effect core ambient n b n' .orphaned
  | reorged {old fork new : List Block} {ancestor : ℕ} {chain : Blockchain}
      {payouts : HashTable ℕ (List Payout)} :
      n.chain.Reorganizes core ambient b (some n.db.reader) old fork chain ancestor new →
      n'.chain = Blockchain.pruneToWindow { chain with settledPayoutsByBlock := payouts } →
      n'.db.blocks = fork.foldl (fun t b => t.insert b.index b)
        (old.foldl (fun t b => t.remove b.index) n.db.blocks) →
      Effect core ambient n b n' (.reorged old fork)

theorem effect_of_applyBlock (h : n.applyBlock core ambient b = .ok (outcome, n')) :
    Effect core ambient n b n' outcome := by
  obtain ⟨chain, happ, hpersist⟩ := applyBlock_eq_ok.mp h
  rcases Blockchain.applyInMemory_eq_ok.mp happ with ⟨rfl, hup⟩ | ⟨rfl, rfl, hup, hcause⟩ |
    ⟨rfl, hadm, hfind⟩ | ⟨old, fork, ancestor, new, rfl, hre⟩
  · obtain ⟨last, hlast, rfl⟩ : ∃ last, chain.blocks.getLast? = some last ∧
        n' = persistApplied core ⟨chain, n.db⟩ last := by simpa using hpersist
    obtain rfl : b = last := by
      simpa [(Blockchain.appended_of_updateState hup).blocks] using hlast
    obtain ⟨payouts, hchain⟩ := persistApplied_chain core ⟨chain, n.db⟩ b
    exact .applied hup hchain (persistApplied_blocks core ⟨chain, n.db⟩ b)
  · obtain rfl : n' = n := by simpa using hpersist
    exact .rejected hup hcause rfl
  · obtain rfl : n' = ⟨chain, n.db⟩ := by simpa using hpersist
    obtain ⟨-, -, -, rfl⟩ := Blockchain.admits_eq_some.mp hadm
    exact .orphaned hadm hfind rfl
  · obtain rfl : n' = persistReorged core ⟨chain, n.db⟩ old fork := by simpa using hpersist
    obtain ⟨payouts, hchain⟩ := persistReorged_chain core ⟨chain, n.db⟩ old fork
    exact .reorged hre hchain (persistReorged_blocks core ⟨chain, n.db⟩ old fork)

/-! ### Soundness -/

/-- The window is sound, and stored blocks lie under their indices, one at index 0. -/
structure Sound (core : Core) (n : Node) : Prop where
  window : n.chain.WindowSound core
  stored : ∀ i b, n.db.blocks.get i = some b → b.index = i
  genesis : ∃ b, n.db.blocks.get 0 = some b

/-- A sound node, whatever the anchor of its chain is. -/
structure Grounded (core : Core) (n : Node) : Prop where
  window : n.chain.WindowLinked core
  stored : ∀ i b, n.db.blocks.get i = some b → b.index = i
  genesis : ∃ b, n.db.blocks.get 0 = some b

theorem Sound.grounded (hn : Sound core n) : Grounded core n :=
  ⟨hn.window.windowLinked, hn.stored, hn.genesis⟩

/-- The blocks of the window and the stored blocks are hashed as they should be, and the hash table
has the whole window. -/
structure Hashed (core : Core) (n : Node) : Prop where
  window : n.chain.WindowHashed core
  stored : ∀ i b, n.db.blocks.get i = some b → Blockchain.HashValid core b

/-- The same of a node whose hash table misses the block at an index, if any. -/
structure HashedApart (core : Core) (apart : Option ℕ) (n : Node) : Prop where
  window : n.chain.WindowHashedApart core apart
  stored : ∀ i b, n.db.blocks.get i = some b → Blockchain.HashValid core b

/-- The index that a hash table misses after a delivery: a reorganization rebuilds the table. -/
def apartAfter (apart : Option ℕ) : BlockOutcome → Option ℕ
  | .reorged _ _ => none
  | _ => apart

theorem windowSound_congr {c d : Blockchain} (h : c.WindowSound core)
    (hb : d.blocks = c.blocks) (ho : d.blocksOffset = c.blocksOffset)
    (hh : d.blockHashes = c.blockHashes) (hp : d.orphanPool = c.orphanPool)
    (ha : d.asertAnchor = c.asertAnchor) : d.WindowSound core where
  nonempty := hb ▸ h.nonempty
  index := by rw [hb, ho]; exact h.index
  linked := by rw [hb]; exact h.linked
  hashes := by rw [hb, ho, hh]; exact h.hashes
  pool := by rw [hp]; exact h.pool
  anchor := by rw [ha]; exact h.anchor

theorem windowLinked_congr {c d : Blockchain} (h : c.WindowLinked core)
    (hb : d.blocks = c.blocks) (ho : d.blocksOffset = c.blocksOffset)
    (hh : d.blockHashes = c.blockHashes) (hp : d.orphanPool = c.orphanPool) :
    d.WindowLinked core where
  nonempty := hb ▸ h.nonempty
  index := by rw [hb, ho]; exact h.index
  linked := by rw [hb]; exact h.linked
  hashes := by rw [hb, ho, hh]; exact h.hashes
  pool := by rw [hp]; exact h.pool

theorem windowHashedApart_congr {apart : Option ℕ} {c d : Blockchain}
    (h : c.WindowHashedApart core apart) (hb : d.blocks = c.blocks)
    (ho : d.blocksOffset = c.blocksOffset) (hh : d.blockHashes = c.blockHashes) :
    d.WindowHashedApart core apart where
  valid := by rw [hb]; exact h.valid
  complete := by rw [hb, ho, hh]; exact h.complete
  absent := by rw [hh]; exact h.absent
  below := by
    unfold Blockchain.getHeight
    rw [hb, ho]
    exact h.below

theorem windowHashed_congr {c d : Blockchain} (h : c.WindowHashed core)
    (hb : d.blocks = c.blocks) (ho : d.blocksOffset = c.blocksOffset)
    (hh : d.blockHashes = c.blockHashes) : d.WindowHashed core :=
  (windowHashedApart_congr h.hashedApart hb ho hh).windowHashed

/-- The reads of a database always give the chain up to an ancestor. -/
theorem chainUpTo_reader (n : Node) (ancestor : ℕ) :
    ∃ stem, n.chain.chainUpTo (some n.db.reader) ancestor = some stem := by
  unfold Blockchain.chainUpTo Db.reader
  split
  · simp only
    split
    · exact ⟨_, rfl⟩
    · exact ⟨_, rfl⟩
  · exact ⟨_, rfl⟩

/-- The chain that a reorganization rebuilds begins with a block at index 0, stored or in the
window. -/
theorem Grounded.chainUpTo_head (hn : Grounded core n) {ancestor : ℕ} {stem : List Block}
    (h : n.chain.chainUpTo (some n.db.reader) ancestor = some stem) :
    ∃ g rest, stem = g :: rest ∧ g.index = 0 ∧
      (n.db.blocks.get 0 = some g ∨ g ∈ n.chain.blocks) := by
  obtain ⟨g, hg⟩ := hn.genesis
  have hgi := hn.stored 0 g hg
  unfold Blockchain.chainUpTo at h
  split at h
  · simp only at h
    split at h
    · rename_i hpos
      obtain ⟨rest, hrest⟩ := Db.getBlocksRange_zero hg hpos
      simp only [Db.reader, Option.bind_some, hrest, Option.map_some, Option.some.injEq] at h
      exact ⟨g, _, h.symm, hgi, .inl hg⟩
    · rename_i hzero
      obtain ⟨x, l, hx⟩ := List.exists_cons_of_ne_nil hn.window.nonempty
      have hxi := hn.window.index 0 x (by simp [hx])
      rw [hx, List.take_succ_cons, Option.some.injEq] at h
      exact ⟨x, _, h.symm, by omega, .inr (by simp [hx])⟩
  · obtain ⟨rest, hrest⟩ := Db.getBlocksRange_zero hg (Nat.succ_pos ancestor)
    simp only [Db.reader, Option.bind_some, hrest, Option.some.injEq] at h
    exact ⟨g, _, h.symm, hgi, .inl hg⟩

/-- A reorganization replays, from the first block on, the chain up to the ancestor and the fork,
as far as its blocks are accepted. -/
theorem Grounded.reorganizes (hn : Grounded core n) {old fork new : List Block} {ancestor : ℕ}
    {c' : Blockchain}
    (h : n.chain.Reorganizes core ambient b (some n.db.reader) old fork c' ancestor new) :
    ∃ stem g rest, n.chain.chainUpTo (some n.db.reader) ancestor = some stem ∧
      stem ++ fork = g :: rest ∧ g.index = 0 ∧
      (n.db.blocks.get 0 = some g ∨ g ∈ n.chain.blocks) ∧
      Blockchain.replay core (laterReadings ambient.clock)
        ((n.chain.admitOrphan ambient.order b).reset g) rest = .ok c' := by
  have hadm := Blockchain.admits_eq_some.mp h.admits
  obtain ⟨-, -, first, -, -, -, hfirst, hanc, -, -⟩ := Blockchain.fork_of_findLongestFork h.found
  have htarget : ∀ target, Blockchain.withHistory new (some n.db.reader) = .ok target →
      target = (n.chain.chainUpTo (some n.db.reader) ancestor).map fun stem => stem ++ fork := by
    refine fun target ht => Blockchain.withHistory_splice hn.window.nonempty ?_ ?_ hfirst hanc
      h.splice ht
    · intro x hx
      rw [List.head?_eq_getElem?] at hx
      exact hn.window.index 0 x hx
    · exact fun k i hk => (hn.window.hashes k i hk).1
  obtain ⟨stem, hstem⟩ := chainUpTo_reader n ancestor
  obtain ⟨g, rest, rfl, hgi, hgv⟩ := hn.chainUpTo_head hstem
  rcases Blockchain.reorgTo_eq_ok.mp h.rebuilt with ⟨hnone, -⟩ | ⟨g', rest', hsome, hreplay⟩
  · simpa [hstem] using htarget _ hnone
  · have heq := htarget _ hsome
    simp only [hstem, Option.map_some, Option.some.injEq, List.cons_append, List.cons.injEq] at heq
    obtain ⟨rfl, rfl⟩ := heq
    exact ⟨_, g', _, hstem, rfl, hgi, hgv, hreplay⟩

theorem Sound.reorganizes (hn : Sound core n) {old fork new : List Block} {ancestor : ℕ}
    {c' : Blockchain}
    (h : n.chain.Reorganizes core ambient b (some n.db.reader) old fork c' ancestor new) :
    ∃ stem g rest, n.chain.chainUpTo (some n.db.reader) ancestor = some stem ∧
      stem ++ fork = g :: rest ∧ g.index = 0 ∧
      (n.db.blocks.get 0 = some g ∨ g ∈ n.chain.blocks) ∧
      Blockchain.replay core (laterReadings ambient.clock)
        ((n.chain.admitOrphan ambient.order b).reset g) rest = .ok c' :=
  hn.grounded.reorganizes h

/-- The blocks of a chosen fork come from the pool, whose blocks are hashed as their headers say. -/
theorem Grounded.fork_hashValid (hn : Grounded core n) {old fork new : List Block} {ancestor : ℕ}
    {c' : Blockchain}
    (h : n.chain.Reorganizes core ambient b (some n.db.reader) old fork c' ancestor new) :
    ∀ x ∈ fork, core.calculateHash x.toHeader = some x.hash := by
  obtain ⟨-, -, hval, -⟩ := Blockchain.admits_eq_some.mp h.admits
  have hadm : (n.chain.admitOrphan ambient.order b).WindowLinked core :=
    hn.window.admitOrphan hval
  obtain ⟨tip, path, -, htip, hpath, rfl, -⟩ := Blockchain.fork_of_findLongestFork h.found
  intro x hx
  rcases List.mem_append.mp hx with hx | hx
  · obtain ⟨k, hk⟩ := hpath.mem hx
    exact (hadm.pool k x hk).2
  · obtain ⟨k, hk, -⟩ := Blockchain.mem_poolTips.mp htip
    exact List.mem_singleton.mp hx ▸ (hadm.pool k tip hk).2

/-- The displaced blocks lie in the window above its first block. -/
theorem Grounded.old_index (hn : Grounded core n) {old fork new : List Block} {ancestor : ℕ}
    (h : n.chain.splice fork ancestor = .ok (new, old)) : ∀ x ∈ old, x.index ≠ 0 :=
  fun x hx => Nat.ne_zero_of_lt (hn.window.contiguous.ancestor_lt h x hx)

/-- Every delivery keeps a node grounded. -/
theorem Grounded.step (hn : Grounded core n) (h : Effect core ambient n b n' outcome) :
    Grounded core n' := by
  cases h with
  | applied hup hchain hblocks =>
    have ha := Blockchain.appended_of_updateState hup
    refine ⟨?_, fun i x hx => index_of_get_insert hn.stored b (hblocks ▸ hx), ?_⟩
    · rw [hchain]
      apply Blockchain.WindowLinked.prune
      exact windowLinked_congr (hn.window.append ha) rfl rfl rfl rfl
    · rw [hblocks]
      by_cases hi : 0 = b.index
      · exact ⟨b, by rw [hi, OrderedTable.get_insert]⟩
      · rw [OrderedTable.get_insert_ne _ _ hi]
        exact hn.genesis
  | rejected _ _ heq => exact heq ▸ hn
  | orphaned hadm _ heq =>
    obtain ⟨-, -, hval, -⟩ := Blockchain.admits_eq_some.mp hadm
    exact heq ▸ ⟨hn.window.admitOrphan hval, hn.stored, hn.genesis⟩
  | @reorged old fork new ancestor chain payouts hre hchain hblocks =>
    obtain ⟨stem, g, rest, -, -, hgi, -, hreplay⟩ := hn.reorganizes hre
    obtain ⟨done, -, hgrow⟩ := Blockchain.replay_grows hreplay
    have hreset : ((n.chain.admitOrphan ambient.order b).reset g).WindowSound core :=
      Blockchain.windowSound_reset hgi
    refine ⟨?_, fun i x hx => index_of_get_foldl hn.stored old fork (hblocks ▸ hx), ?_⟩
    · rw [hchain]
      apply Blockchain.WindowLinked.prune
      exact windowLinked_congr (hreset.windowLinked.grows hgrow) rfl rfl rfl rfl
    · rw [hblocks]
      rcases get_foldl_insert fork (old.foldl (fun t b => t.remove b.index) n.db.blocks) 0 with
        ⟨y, -, -, hget⟩ | ⟨-, hget⟩
      · exact ⟨y, hget⟩
      · rw [hget, get_foldl_remove, if_neg]
        · exact hn.genesis
        · intro hmem
          obtain ⟨x, hx, hxi⟩ := List.mem_map.mp hmem
          exact hn.old_index hre.splice x hx hxi

/-- Every delivery keeps a node sound. -/
theorem Sound.step (hn : Sound core n) (h : Effect core ambient n b n' outcome) :
    Sound core n' := by
  have hg := hn.grounded.step h
  refine ⟨?_, hg.stored, hg.genesis⟩
  cases h with
  | applied hup hchain _ =>
    have ha := Blockchain.appended_of_updateState hup
    rw [hchain]
    apply Blockchain.WindowSound.prune
    exact windowSound_congr (hn.window.append ha) rfl rfl rfl rfl rfl
  | rejected _ _ heq => exact heq ▸ hn.window
  | orphaned hadm _ heq =>
    obtain ⟨-, -, hval, -⟩ := Blockchain.admits_eq_some.mp hadm
    exact heq ▸ hn.window.admitOrphan hval
  | reorged hre hchain _ =>
    obtain ⟨stem, g, rest, -, -, hgi, -, hreplay⟩ := hn.reorganizes hre
    obtain ⟨done, -, hgrow⟩ := Blockchain.replay_grows hreplay
    rw [hchain]
    apply Blockchain.WindowSound.prune
    exact windowSound_congr ((Blockchain.windowSound_reset hgi).grows hgrow) rfl rfl rfl rfl rfl

/-- Where block hashes have no collisions, every delivery keeps a node hashed but for the block that
the hash table misses, and a reorganization adds that too. -/
theorem HashedApart.step {apart : Option ℕ} (hh : HashedApart core apart n)
    (hcore : core.CollisionFree) (hn : Grounded core n) (h : Effect core ambient n b n' outcome) :
    HashedApart core (apartAfter apart outcome) n' := by
  cases h with
  | applied hup hchain hblocks =>
    have ha := Blockchain.appended_of_updateState hup
    refine ⟨?_, fun i x hx => ?_⟩
    · rw [hchain]
      refine Blockchain.WindowHashedApart.prune ?_ hcore ?_
      · exact windowHashedApart_congr (hh.window.append hcore hn.window ha) rfl rfl rfl
      · exact windowLinked_congr (hn.window.append ha) rfl rfl rfl rfl
    · rw [hblocks] at hx
      by_cases hi : i = b.index
      · rw [hi, OrderedTable.get_insert, Option.some.injEq] at hx
        exact .inl (hx ▸ ha.calculateHash)
      · rw [OrderedTable.get_insert_ne _ _ hi] at hx
        exact hh.stored i x hx
  | rejected _ _ heq => exact heq ▸ hh
  | orphaned _ _ heq => exact heq ▸ ⟨windowHashedApart_congr hh.window rfl rfl rfl, hh.stored⟩
  | @reorged old fork new ancestor chain payouts hre hchain hblocks =>
    obtain ⟨stem, g, rest, -, -, hgi, hg, hreplay⟩ := hn.reorganizes hre
    have hgv : Blockchain.HashValid core g := hg.elim (hh.stored 0 g) (hh.window.valid g)
    obtain ⟨done, -, hgrow⟩ := Blockchain.replay_grows hreplay
    have hlinked : ((n.chain.admitOrphan ambient.order b).reset g).WindowLinked core :=
      (Blockchain.windowSound_reset hgi).windowLinked
    have hhashed : ((n.chain.admitOrphan ambient.order b).reset g).WindowHashedApart core none :=
      (Blockchain.windowHashed_reset hgv).hashedApart
    refine ⟨?_, fun i x hx => ?_⟩
    · rw [hchain]
      refine Blockchain.WindowHashedApart.prune ?_ hcore ?_
      · exact windowHashedApart_congr (hhashed.grows hcore hlinked hgrow) rfl rfl rfl
      · exact windowLinked_congr (hlinked.grows hgrow) rfl rfl rfl rfl
    · rw [hblocks] at hx
      rcases get_foldl_insert fork (old.foldl (fun t b => t.remove b.index) n.db.blocks) i with
        ⟨y, hy, -, hget⟩ | ⟨-, hget⟩
      · cases hx.symm.trans hget
        exact .inl (hn.fork_hashValid hre x hy)
      · rw [hget, get_foldl_remove] at hx
        split at hx
        · cases hx
        · exact hh.stored i x hx

theorem Hashed.step (hh : Hashed core n) (hcore : core.CollisionFree) (hn : Sound core n)
    (h : Effect core ambient n b n' outcome) : Hashed core n' := by
  have hapart : HashedApart core none n := ⟨hh.window.hashedApart, hh.stored⟩
  have hnone : apartAfter none outcome = none := by cases outcome <;> rfl
  have hstep := hapart.step hcore hn.grounded h
  rw [hnone] at hstep
  exact ⟨hstep.window.windowHashed, hstep.stored⟩

/-- After a delivery, the pool holds the orphans of before and perhaps the delivered block. -/
theorem orphan_of_effect (h : Effect core ambient n b n' outcome) {k : Bytes} {x : Block}
    (hx : n'.chain.orphanPool.lookup k = some x) :
    x = b ∨ n.chain.orphanPool.lookup k = some x := by
  cases h with
  | applied hup hchain _ =>
    rw [hchain, Blockchain.pruneToWindow_orphanPool] at hx
    rw [← (Blockchain.appended_of_updateState hup).orphanPool]
    exact .inr hx
  | rejected _ _ heq => exact .inr (heq ▸ hx)
  | orphaned _ _ heq =>
    rw [heq] at hx
    exact (Blockchain.lookup_admitOrphan hx).imp_left fun h => h.2
  | reorged hre hchain _ =>
    rw [hchain, Blockchain.pruneToWindow_orphanPool] at hx
    have hempty := hre.rebuilt
    rcases Blockchain.reorgTo_eq_ok.mp hempty with ⟨-, rfl⟩ | ⟨g, rest, -, hreplay⟩
    · exact (Blockchain.lookup_admitOrphan hx).imp_left fun h => h.2
    · obtain ⟨done, -, hgrow⟩ := Blockchain.replay_grows hreplay
      simp only [hgrow.orphanPool, Blockchain.reset] at hx
      simp at hx

/-! ### The blocks of a node -/

/-- A block of the window, of the orphan pool, or of the database. -/
def Holds (n : Node) (x : Block) : Prop :=
  x ∈ n.chain.blocks ∨ (∃ k, n.chain.orphanPool.lookup k = some x) ∨
    ∃ i, n.db.blocks.get i = some x

theorem holds_iff {x : Block} :
    n.Holds x ↔ n.chain.Holds x ∨ ∃ i, n.db.blocks.get i = some x := by
  rw [Holds, Blockchain.Holds, or_assoc]

/-- What is stored after a delivery was held before or is the delivered block. -/
theorem stored_of_effect (h : Effect core ambient n b n' outcome) {i : ℕ} {x : Block}
    (hx : n'.db.blocks.get i = some x) :
    (x = b ∧ core.calculateHash x.toHeader = some x.hash) ∨ n.Holds x := by
  cases h with
  | applied hup _ hblocks =>
    rw [hblocks] at hx
    by_cases hi : i = b.index
    · rw [hi, OrderedTable.get_insert, Option.some.injEq] at hx
      subst hx
      exact .inl ⟨rfl, (Blockchain.appended_of_updateState hup).calculateHash⟩
    · rw [OrderedTable.get_insert_ne _ _ hi] at hx
      exact .inr (.inr (.inr ⟨i, hx⟩))
  | rejected _ _ heq => exact .inr (.inr (.inr ⟨i, heq ▸ hx⟩))
  | orphaned _ _ heq => exact .inr (.inr (.inr ⟨i, by rw [heq] at hx; exact hx⟩))
  | @reorged old fork new ancestor chain payouts hre _ hblocks =>
    rw [hblocks] at hx
    rcases get_foldl_insert fork (old.foldl (fun t b => t.remove b.index) n.db.blocks) i with
      ⟨y, hy, -, hget⟩ | ⟨-, hget⟩
    · cases hx.symm.trans hget
      exact (hre.mem_fork hy).imp
        (fun h => ⟨h, h ▸ Blockchain.calculateHash_of_admits hre.admits⟩) fun h => .inr (.inl h)
    · rw [hget, get_foldl_remove] at hx
      split at hx
      · cases hx
      · exact .inr (.inr (.inr ⟨i, hx⟩))

/-- A delivery adds at most the delivered block to those of a node, if that has its hash. -/
theorem holds_of_applyBlock (h : n.applyBlock core ambient b = .ok (outcome, n')) {x : Block}
    (hx : n'.Holds x) : (x = b ∧ core.calculateHash x.toHeader = some x.hash) ∨ n.Holds x := by
  rcases holds_iff.mp hx with hx | ⟨i, hx⟩
  · obtain ⟨chain, happ, hpersist⟩ := applyBlock_eq_ok.mp h
    have hmem : chain.Holds x := by
      rcases hpersist with ⟨-, last, -, rfl⟩ | ⟨old, new, -, rfl⟩ | ⟨-, rfl⟩
      · obtain ⟨payouts, hchain⟩ := persistApplied_chain core ⟨chain, n.db⟩ last
        rw [hchain] at hx
        exact Blockchain.holds_of_pruneToWindow hx
      · obtain ⟨payouts, hchain⟩ := persistReorged_chain core ⟨chain, n.db⟩ old new
        rw [hchain] at hx
        exact Blockchain.holds_of_pruneToWindow hx
      · exact hx
    rcases Blockchain.holds_of_applyInMemory happ hmem with
      hb | hheld | ⟨read, start, limit, stored, hread, hstored, hmem⟩
    · exact .inl hb
    · exact .inr (holds_iff.mpr (.inl hheld))
    · cases hread
      cases hstored
      obtain ⟨i, -, -, hget⟩ := Db.mem_getBlocksRange hmem
      exact .inr (holds_iff.mpr (.inr ⟨i, hget⟩))
  · exact stored_of_effect (effect_of_applyBlock h) hx

/-! ### Fresh nodes -/

section Fresh

variable {env : Option ℚ} {pot : ℕ} {genesis : Block}

theorem windowSound_freshChain (hi : genesis.index = 0) :
    (freshChain env pot genesis).WindowSound core :=
  windowSound_congr (Blockchain.windowSound_reset (c := freshChain env pot genesis) hi)
    rfl rfl rfl rfl rfl

theorem get_fresh {i : ℕ} {b : Block} (h : (fresh env pot genesis).db.blocks.get i = some b) :
    i = genesis.index ∧ b = genesis :=
  OrderedTable.get_insert_empty.mp h

theorem sound_fresh (hi : genesis.index = 0) : Sound core (fresh env pot genesis) where
  window := windowSound_freshChain hi
  stored := by
    intro i b hb
    obtain ⟨rfl, rfl⟩ := get_fresh hb
    rfl
  genesis := ⟨genesis, by rw [← hi]; exact OrderedTable.get_insert _ _ _⟩

theorem hashed_fresh (hi : genesis.index = 0) (hh : genesis.hash = []) :
    Hashed core (fresh env pot genesis) where
  window := windowHashed_congr (Blockchain.windowHashed_reset (c := freshChain env pot genesis)
    (.inr ⟨hi, hh⟩)) rfl rfl rfl
  stored := by
    intro i b hb
    obtain ⟨-, rfl⟩ := get_fresh hb
    exact .inr ⟨hi, hh⟩

/-- Every node that deliveries lead to from a fresh one is sound. -/
theorem sound_of_run (hi : genesis.index = 0) {ds : List Delivery}
    (run : Runs.Run (Delivers core) (fresh env pot genesis) ds n) : Sound core n :=
  run.invariant (fun ⟨_, _, h⟩ hs => hs.step (effect_of_applyBlock h)) (sound_fresh hi)

theorem hashed_of_run (hcore : core.CollisionFree) (hi : genesis.index = 0)
    (hh : genesis.hash = []) {ds : List Delivery}
    (run : Runs.Run (Delivers core) (fresh env pot genesis) ds n) : Hashed core n :=
  (run.invariant (P := fun n => Sound core n ∧ Hashed core n)
    (fun ⟨_, _, h⟩ hs => ⟨hs.1.step (effect_of_applyBlock h),
      hs.2.step hcore hs.1 (effect_of_applyBlock h)⟩)
    ⟨sound_fresh hi, hashed_fresh hi hh⟩).2

end Fresh

end Node

end Lootcoin
