import Lootcoin.Node.Difficulty

/-! The difficulty that the admission of a fork block asks for and the one that holds when a
reorganization has replayed the chain up to it.  Hashes without collisions fix the blocks below a
block, so both measure from the same block 1. -/

namespace Lootcoin

namespace Blockchain

variable {core : Core} {c c' start : Blockchain} {b g : Block} {rest l l' : List Block}

/-- The blocks of a list after the first are numbered from 1, hashed as their headers say, and
linked to those before them. -/
structure Linked (core : Core) (l : List Block) : Prop where
  index : ∀ j x, l[j + 1]? = some x → x.index = j + 1
  hashed : ∀ j x, l[j + 1]? = some x → core.calculateHash x.toHeader = some x.hash
  linked : ∀ j x y, l[j]? = some x → l[j + 1]? = some y → y.previousHash = x.hash

theorem Linked.append (h : Linked core c.blocks) (ho : c.blocksOffset = 0)
    (ha : Appended core c b c') : Linked core c'.blocks := by
  have hheight : c.getHeight = c.blocks.length := by rw [getHeight, ho, Nat.zero_add]
  refine ⟨fun j x hx => ?_, fun j x hx => ?_, fun j x y hx hy => ?_⟩
  · rw [ha.blocks] at hx
    rcases getElem?_snoc hx with hx | ⟨hj, rfl⟩
    · exact h.index j x hx
    · rw [ha.index, hheight, hj]
  · rw [ha.blocks] at hx
    rcases getElem?_snoc hx with hx | ⟨-, rfl⟩
    · exact h.hashed j x hx
    · exact ha.calculateHash
  · rw [ha.blocks] at hx hy
    rcases getElem?_snoc hy with hy | ⟨hj, rfl⟩
    · have hlt := (List.getElem?_eq_some_iff.mp hy).1
      rw [List.getElem?_append_left (by omega)] at hx
      exact h.linked j x y hx hy
    · rw [List.getElem?_append_left (by omega)] at hx
      rw [ha.previousHash, getLatestHash, List.getLast?_eq_getElem?, ← hj, Nat.add_sub_cancel, hx]
      rfl

theorem Origin.linked_of_grows (ho : Origin start g) (hgrow : Grows core start rest c) :
    Linked core c.blocks := by
  induction rest using List.reverseRecOn generalizing c with
  | nil =>
    cases hgrow
    rw [ho.blocks]
    exact ⟨by simp, by simp, by simp⟩
  | append_singleton rest b ih =>
    obtain ⟨mid, hmid, hlast⟩ := hgrow.split
    obtain _ | ⟨hstep, hnil⟩ := hlast
    cases hnil
    have hoffset : mid.blocksOffset = start.blocksOffset := Grows.blocksOffset hmid
    exact (ih hmid).append (hoffset.trans ho.blocksOffset) hstep.appended

/-- Linked lists with one block at the same place have the same headers below it. -/
theorem Linked.header_eq (hcore : core.CollisionFree) (h : Linked core l) (h' : Linked core l')
    {a j : ℕ} {p x x' : Block} (hp : l[a]? = some p) (hp' : l'[a]? = some p) (hj : 1 ≤ j)
    (hja : j ≤ a) (hx : l[j]? = some x) (hx' : l'[j]? = some x') : x.toHeader = x'.toHeader := by
  -- the headers agree at `a`, and what agrees above a block agrees at that block
  induction hd : a - j generalizing j x x' with
  | zero =>
    obtain rfl : j = a := by omega
    rw [hp, Option.some.injEq] at hx
    rw [hp', Option.some.injEq] at hx'
    rw [← hx, ← hx']
  | succ d ih =>
    have hlt := (List.getElem?_eq_some_iff.mp hp).1
    have hlt' := (List.getElem?_eq_some_iff.mp hp').1
    have hy := List.getElem?_eq_getElem (l := l) (i := j + 1) (by omega)
    have hy' := List.getElem?_eq_getElem (l := l') (i := j + 1) (by omega)
    have habove := ih (j := j + 1) (by omega) (by omega) hy hy' (by omega)
    have hhash : x.hash = x'.hash := by
      rw [← h.linked j x _ hx hy, ← h'.linked j x' _ hx' hy', habove]
    obtain ⟨i, rfl⟩ : ∃ i, j = i + 1 := ⟨j - 1, by omega⟩
    exact hcore.injective (h.hashed i x hx) (hhash ▸ h'.hashed i x' hx')

/-- The blocks of a pool that lead from `p` to the block with a hash, the oldest first. -/
inductive Ancestry (pool : HashTable Bytes Block) (p : Block) : Bytes → List Block → Prop
  | parent : Ancestry pool p p.hash []
  | pooled {h : Bytes} {x : Block} {path : List Block} :
      pool.lookup h = some x → Ancestry pool p x.previousHash path →
        Ancestry pool p h (path ++ [x])

/-- The last of the ancestors, or else the block that they lead from, has the hash. -/
theorem Ancestry.last {p : Block} {h : Bytes} {path : List Block}
    (hs : WindowSound core c) (hpath : Ancestry c.orphanPool p h path) :
    ∃ q, (p :: path).getLast? = some q ∧ q.hash = h ∧
      (q = p ∨ ∃ k, c.orphanPool.lookup k = some q) := by
  cases hpath with
  | parent => exact ⟨p, rfl, rfl, .inl rfl⟩
  | @pooled _ x path hx _ =>
    exact ⟨x, by rw [← List.cons_append, List.getLast?_concat], (hs.pool h x hx).1, .inr ⟨h, hx⟩⟩

end Blockchain

namespace Node

open Blockchain (Ancestry Grows Linked Tuned)

variable {core : Core} {ambient : Ambient} {n n' : Node} {b p : Block} {d : Blockchain}
  {outcome : BlockOutcome} {env : Option ℚ} {pot : ℕ} {genesis : Block}

theorem initialDifficulty_of_effect (h : Effect core ambient n b n' outcome) :
    n'.chain.initialDifficulty = n.chain.initialDifficulty := by
  cases h with
  | applied hup hchain _ =>
    rw [hchain, Blockchain.pruneToWindow_initialDifficulty]
    exact (Blockchain.appended_of_updateState hup).initialDifficulty
  | rejected _ _ heq => rw [heq]
  | orphaned _ _ heq =>
    rw [heq]
    rfl
  | reorged hre hchain _ =>
    rw [hchain, Blockchain.pruneToWindow_initialDifficulty]
    rcases Blockchain.reorgTo_eq_ok.mp hre.rebuilt with ⟨-, rfl⟩ | ⟨g, rest, -, hreplay⟩
    · rfl
    · obtain ⟨done, -, hgrow⟩ := Blockchain.replay_grows hreplay
      exact hgrow.initialDifficulty

/-- The difficulty that a node starts with is never above the protocol's. -/
theorem initialDifficulty_le (env : Option ℚ) : initialDifficultyFromEnv env ≤ maxDifficulty := by
  have hone : (1 : ℚ) ≤ maxDifficulty := by decide +kernel
  have hmax : initialDifficulty ≤ maxDifficulty := by decide +kernel
  cases env with
  | none => exact hmax
  | some d => exact max_le hone ((min_le_left _ _).trans hmax)

theorem initialDifficulty_of_run {ds : List Delivery}
    (run : Runs.Run (Delivers core) (fresh env pot genesis) ds n) :
    n.chain.initialDifficulty ≤ maxDifficulty := by
  refine run.invariant (P := fun n => n.chain.initialDifficulty ≤ maxDifficulty) ?_
    (initialDifficulty_le env)
  rintro n d n' ⟨-, outcome, happ⟩ hle
  rw [initialDifficulty_of_effect (effect_of_applyBlock happ)]
  exact hle

/-- What a reorganization rebuilds grows from a block at index 0. -/
theorem Sound.grows_of_reorgTo (hn : Sound core n) {clock : ℕ → ℕ} {first : Block}
    {part : List Block}
    (h : n.chain.reorgTo core clock (first :: part) (some n.db.reader) = .ok d) :
    ∃ g done, g.index = 0 ∧ Grows core (n.chain.reset g) done d := by
  obtain ⟨g₀, hget⟩ := hn.genesis
  have hzero := hn.stored 0 g₀ hget
  rcases Blockchain.reorgTo_eq_ok.mp h with ⟨hnone, -⟩ | ⟨g, rest, hsome, hreplay⟩
  · obtain ⟨_, _, heq, -⟩ := Db.withHistory_reader hget hzero hnone
    cases heq
  · obtain ⟨g', rest', heq, hg, -⟩ := Db.withHistory_reader hget hzero hsome
    cases heq
    obtain ⟨done, -, hgrow⟩ := Blockchain.replay_grows hreplay
    exact ⟨g, done, hg, hgrow⟩

/-- A reorganization to the window up to the block at `a` and more blocks, all of which replay,
keeps that block at its height. -/
theorem Sound.rebuilt_above (hn : Sound core n) {a : ℕ} (ha : 1 ≤ a)
    (ho : n.chain.blocksOffset ≤ a) (hp : n.chain.blocks[a - n.chain.blocksOffset]? = some p)
    {path : List Block} {clock : ℕ → ℕ}
    (hre : n.chain.reorgTo core clock
      (n.chain.blocks.take (a - n.chain.blocksOffset + 1) ++ path) (some n.db.reader) = .ok d)
    (hall : n.chain.blocks.take (a - n.chain.blocksOffset + 1) ++ path <:+ d.blocks) :
    ∃ g done, Grows core (n.chain.reset g) done d ∧ d.blocks[a]? = some p ∧
      d.blocks.length = a + path.length + 1 ∧ d.blocks.getLast? = (p :: path).getLast? := by
  have hlt := (List.getElem?_eq_some_iff.mp hp).1
  have hpi : p.index = a := by
    rw [hn.window.index _ p hp]
    omega
  obtain ⟨below, hbelow⟩ : ∃ below, below = n.chain.blocks.take (a - n.chain.blocksOffset) :=
    ⟨_, rfl⟩
  have hwindow : n.chain.blocks.take (a - n.chain.blocksOffset + 1) ++ path =
      below ++ p :: path := by
    rw [List.take_add_one, hp, ← hbelow, List.append_assoc]
    rfl
  rw [hwindow] at hre hall
  obtain ⟨g, done, hg, hgrow⟩ : ∃ g done, g.index = 0 ∧ Grows core (n.chain.reset g) done d := by
    cases below with
    | nil => exact hn.grows_of_reorgTo hre
    | cons x xs => exact hn.grows_of_reorgTo hre
  have hlinked := (Blockchain.origin_reset n.chain g).linked_of_grows hgrow
  have hblocks : d.blocks = g :: done := hgrow.blocks
  obtain ⟨before, hbefore⟩ := hall
  have hjp : d.blocks[before.length + below.length]? = some p := by
    rw [← hbefore, ← List.append_assoc, List.getElem?_append_right (by simp)]
    simp
  -- the rebuilt chain is numbered, so the block lies where its index says
  have hpos : before.length + below.length = a := by
    cases hj : before.length + below.length with
    | zero =>
      rw [hj] at hjp
      obtain rfl : g = p := by simpa [hblocks] using hjp
      omega
    | succ j =>
      rw [hj] at hjp
      rw [← hlinked.index j p hjp, hpi]
  refine ⟨g, done, hgrow, hpos ▸ hjp, ?_, ?_⟩
  · rw [← hbefore]
    simp only [List.length_append, List.length_cons]
    omega
  · rw [← hbefore, List.getLast?_append, List.getLast?_append]
    simp [List.getLast?_cons]

/-- A chain that reaches past its genesis block has a block 1. -/
theorem exists_first {g p : Block} {rest : List Block} {a : ℕ} (ha : 1 ≤ a)
    (hp : (g :: rest)[a]? = some p) : ∃ first rest', rest = first :: rest' := by
  refine List.exists_cons_of_ne_nil fun hnil => ?_
  simp [hnil, show a ≠ 0 by omega] at hp

/-- The expected difficulty of a block whose ancestors lead through the pool to a block of the
window above the genesis block is close to the difficulty of the chain that is rebuilt with these
ancestors. -/
theorem expectedDifficulty_of_run (hcore : core.CollisionFree) (hi : genesis.index = 0)
    (hh : genesis.hash = []) {ds : List Delivery}
    (run : Runs.Run (Delivers core) (fresh env pot genesis) ds n) {a : ℕ} (ha : 1 ≤ a)
    (ho : n.chain.blocksOffset ≤ a) (hp : n.chain.blocks[a - n.chain.blocksOffset]? = some p)
    {path : List Block} (hpath : Ancestry n.chain.orphanPool p b.previousHash path)
    (hindex : b.index = a + path.length + 1) {clock : ℕ → ℕ}
    (hre : n.chain.reorgTo core clock
      (n.chain.blocks.take (a - n.chain.blocksOffset + 1) ++ path) (some n.db.reader) = .ok d)
    (hall : n.chain.blocks.take (a - n.chain.blocksOffset + 1) ++ path <:+ d.blocks) :
    |n.chain.expectedDifficultyFor b - d.currentDifficulty| ≤ hysteresis := by
  have hn := sound_of_run hi run
  have hw := (hashed_of_run hcore hi hh run).window
  -- the chain in memory, with block 1 at its start and the block at its height
  obtain ⟨chain, start, g, rest, full, -, horigin, hgrow, hpruned⟩ := grownAs_of_run hi run
  have hfull : full.blocks[a]? = some p := by
    rw [← hp, hpruned.blocks, List.getElem?_drop, Nat.add_sub_cancel' ho]
  have hblocks : full.blocks = g :: rest := by
    rw [hgrow.blocks, horigin.blocks, List.singleton_append]
  obtain ⟨first, rest, rfl⟩ := exists_first ha (hblocks ▸ hfull)
  have htuned := horigin.tuned_of_grows hgrow
  -- the rebuilt chain likewise
  obtain ⟨g', done, hgrow', hfull', hlength, hlast⟩ := hn.rebuilt_above ha ho hp hre hall
  have horigin' := Blockchain.origin_reset n.chain g'
  have hblocks' : d.blocks = g' :: done := hgrow'.blocks
  obtain ⟨first', done, rfl⟩ := exists_first ha (hblocks' ▸ hfull')
  have htuned' := horigin'.tuned_of_grows hgrow'
  -- hashes fix the blocks below the block, block 1 among them
  have htime : first.timestamp = first'.timestamp :=
    congrArg Header.timestamp ((horigin.linked_of_grows hgrow).header_eq hcore
      (horigin'.linked_of_grows hgrow') hfull hfull' (Nat.le_refl 1) ha (by rw [hblocks]; rfl)
      (by rw [hblocks']; rfl))
  have hinitial : full.initialDifficulty = n.chain.initialDifficulty :=
    hpruned.initialDifficulty.symm
  have hinitial' : d.initialDifficulty = n.chain.initialDifficulty := hgrow'.initialDifficulty
  have hanchor : n.chain.asertAnchor =
      some ⟨1, first'.timestamp, n.chain.initialDifficulty⟩ := by
    rw [hpruned.derived, htuned.anchor, hinitial, htime]
  by_cases hlow : n.chain.initialDifficulty < minDifficulty
  · have hexpected : n.chain.expectedDifficultyFor b = n.chain.initialDifficulty := by
      simp only [Blockchain.expectedDifficultyFor, hanchor, if_pos hlow]
      rw [hpruned.derived, htuned.low (hinitial ▸ hlow), hinitial]
    rw [hexpected, htuned'.low (hinitial' ▸ hlow), hinitial', sub_self, abs_zero]
    decide +kernel
  · obtain ⟨q, hq, hqhash, hqmem⟩ := hpath.last hn.window
    have hfound : n.chain.findBlockTimestamp b.previousHash = some q.timestamp := by
      rw [← hqhash]
      refine Blockchain.findBlockTimestamp_eq_some hcore hn.window hw (hqmem.imp_left ?_)
      rintro rfl
      exact List.mem_of_getElem? hp
    have hexpected : n.chain.expectedDifficultyFor b =
        asertTarget ⟨1, first'.timestamp, n.chain.initialDifficulty⟩ (done.length + 1)
          q.timestamp := by
      simp only [Blockchain.expectedDifficultyFor, hanchor, if_neg hlow, hfound]
      rw [hblocks', List.length_cons, List.length_cons] at hlength
      rw [if_neg (by omega), show b.index - 1 = done.length + 1 by omega]
    have hclose := htuned'.close (hinitial' ▸ not_lt.mp hlow)
      (hinitial' ▸ initialDifficulty_of_run run) q (hlast.trans hq)
    rw [hexpected, abs_sub_comm, ← hinitial']
    exact hclose

end Node

namespace Sample

/-! A block on an orphan on the first block of the chain. -/

def slowOrphan : Block := block 2 mainBlock.hash 1748000150 25
def onSlowOrphan : Block := block 3 slowOrphan.hash 1748000160 25

def slowDeliveries : List Node.Delivery :=
  [⟨mainBlock, around 1748000160⟩, ⟨secondBlock, around 1748000160⟩,
    ⟨slowOrphan, around 1748000160⟩]

theorem slowOrphan_expectedDifficulty : ∃ (n : Node) (d : Blockchain),
    Runs.Run (Node.Delivers plainCore) node slowDeliveries n ∧
    n.chain.orphanPool.lookup slowOrphan.hash = some slowOrphan ∧
    d.blocks = [genesis, mainBlock, slowOrphan] ∧
    |n.chain.expectedDifficultyFor onSlowOrphan - d.currentDifficulty| ≤ hysteresis := by
  have hrun : (node.applyBlocks plainCore slowDeliveries).toOption.map (fun r =>
      (r.2.chain.blocks, r.2.chain.blocksOffset,
        r.2.chain.orphanPool.lookup slowOrphan.hash,
        (r.2.chain.reorgTo plainCore (fun _ => 1748000160)
          [genesis, mainBlock, slowOrphan] (some r.2.db.reader)).toOption.map
            fun d => d.blocks)) =
      some ([genesis, mainBlock, secondBlock], 0, some slowOrphan,
        some [genesis, mainBlock, slowOrphan]) := by
    decide +kernel
  obtain ⟨⟨outcomes, n⟩, happ, hobs⟩ := Fallible.exists_of_toOption_map hrun
  simp only [Prod.mk.injEq] at hobs
  obtain ⟨hblocks, hoffset, hpool, hre⟩ := hobs
  obtain ⟨d, hre, hd⟩ := Fallible.exists_of_toOption_map hre
  have hfits : ∀ d ∈ slowDeliveries, d.block.Fits := by
    simp only [slowDeliveries, List.mem_cons, List.not_mem_nil, or_false]
    rintro d (rfl | rfl | rfl) <;> exact ⟨by decide, by decide, by decide, by decide⟩
  have hdeliver := Node.run_of_applyBlocks hfits happ
  have hpath : Blockchain.Ancestry n.chain.orphanPool mainBlock onSlowOrphan.previousHash
      ([] ++ [slowOrphan]) :=
    .pooled hpool .parent
  have hrebuild : n.chain.reorgTo plainCore (fun _ => 1748000160)
      (n.chain.blocks.take (1 - n.chain.blocksOffset + 1) ++ ([] ++ [slowOrphan]))
      (some n.db.reader) = .ok d := by
    rw [hblocks, hoffset]
    exact hre
  refine ⟨n, d, hdeliver, hpool, hd, Node.expectedDifficulty_of_run (a := 1)
    plainCore_collisionFree rfl rfl hdeliver (by decide) (by omega) (by rw [hblocks, hoffset]; rfl)
    hpath rfl hrebuild ?_⟩
  rw [hblocks, hoffset, hd]
  exact List.suffix_refl _

end Sample

end Lootcoin
