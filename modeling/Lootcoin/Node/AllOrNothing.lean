import Lootcoin.Node.Sound
import Lootcoin.Sample

/-! Whether a block is applied wholly or not at all.  A refused block changes nothing and an orphan
only the pool.  A reorganization resets the chain before it replays the new one, and stops where
`updateState` refuses a block: it reaches the last block of the fork exactly when the whole new
chain replays. -/

namespace Lootcoin

namespace Blockchain

variable {core : Core} {ambient : Ambient} {c c' : Blockchain} {b : Block}
  {db : Option BlockReader} {outcome : BlockOutcome}

/-- A refused block changes nothing, an orphan only the pool, and after a reorganization the chain
is the one before it up to the fork's ancestor and then the whole fork. -/
structure AllOrNothing (core : Core) (ambient : Ambient) (c : Blockchain) (b : Block)
    (db : Option BlockReader) (outcome : BlockOutcome) (c' : Blockchain) : Prop where
  rejected : outcome = .rejected → c' = c
  orphaned : outcome = .orphaned → c' = { c with orphanPool := c'.orphanPool }
  reorged : ∀ old new, outcome = .reorged old new → ∃ ancestor stem,
    c.chosenFork core ambient b db = some (new, ancestor) ∧
    c.chainUpTo db ancestor = some stem ∧ c'.blocksOffset = 0 ∧ c'.blocks = stem ++ new

/-- The window begins at its offset, and the hash table leads to nothing below it. -/
structure Numbered (c : Blockchain) : Prop where
  nonempty : c.blocks ≠ []
  head : ∀ b ∈ c.blocks.head?, b.index = c.blocksOffset
  hashes : ∀ h i, c.blockHashes.lookup h = some i → c.blocksOffset ≤ i

theorem WindowSound.numbered (h : WindowSound core c) : Numbered c where
  nonempty := h.nonempty
  head := by
    intro b hb
    rw [List.head?_eq_getElem?] at hb
    exact h.index 0 b hb
  hashes k i hk := (h.hashes k i hk).1

/-- A reorganization ends with the chain up to the ancestor and the whole fork exactly when that
chain can be read and replays. -/
theorem Reorganizes.complete_iff (hc : Numbered c) {old fork new : List Block} {ancestor : ℕ}
    (h : Reorganizes core ambient c b db old fork c' ancestor new) :
    (∃ stem, c.chainUpTo db ancestor = some stem ∧ c'.blocksOffset = 0 ∧
      c'.blocks = stem ++ fork) ↔
    ∃ stem, c.chainUpTo db ancestor = some stem ∧
      c.RebuildsFrom core ambient (stem ++ fork) := by
  obtain ⟨-, -, first, -, -, -, hfirst, hanc, -⟩ := fork_of_findLongestFork h.found
  rcases reorgTo_eq_ok.mp h.rebuilt with ⟨hnone, -⟩ | ⟨g, rest, hsome, hreplay⟩
  · have htarget := withHistory_splice hc.nonempty hc.head hc.hashes hfirst hanc h.splice hnone
    rw [eq_comm, Option.map_eq_none_iff] at htarget
    simp [htarget]
  · have htarget := withHistory_splice hc.nonempty hc.head hc.hashes hfirst hanc h.splice hsome
    obtain ⟨stem, hstem, htarget⟩ := Option.map_eq_some_iff.mp htarget.symm
    have hblocks : (c.reset g).blocks ++ rest = stem ++ fork := htarget.symm
    have hoffset : c'.blocksOffset = 0 := by
      obtain ⟨done, -, hgrow⟩ := replay_grows hreplay
      exact hgrow.blocksOffset
    have hcomplete : c'.blocks = stem ++ fork ↔
        applyAll core (laterReadings ambient.clock) (c.reset g) rest = .ok (some c') := by
      rw [replay_complete_iff, hblocks]
      exact ⟨fun hb => ⟨hreplay, hb⟩, fun hb => hb.2⟩
    constructor
    · rintro ⟨stem', hstem', -, hb⟩
      cases hstem.symm.trans hstem'
      exact ⟨stem, hstem, g, rest, c', htarget, hcomplete.mp hb⟩
    · rintro ⟨stem', hstem', g', rest', d, heq, happ⟩
      cases hstem.symm.trans hstem'
      rw [htarget, List.cons.injEq] at heq
      obtain ⟨rfl, rfl⟩ := heq
      obtain ⟨hreplay', hb⟩ := replay_complete_iff.mp happ
      cases hreplay.symm.trans hreplay'
      exact ⟨stem, hstem, hoffset, hb.trans hblocks⟩

/-- A call applies a block wholly or not at all exactly when the fork that it switches to, if any,
replays. -/
theorem Numbered.allOrNothing_iff (hc : Numbered c)
    (h : c.applyInMemory core ambient b db = .ok (outcome, c')) :
    AllOrNothing core ambient c b db outcome c' ↔ c.ForkReplays core ambient b db := by
  have hvacuous : c.chosenFork core ambient b db = none → c.ForkReplays core ambient b db := by
    intro hnone fork ancestor hsome
    cases hnone.symm.trans hsome
  rcases applyInMemory_eq_ok.mp h with ⟨rfl, hup⟩ | ⟨rfl, rfl, hup, hcause⟩ |
    ⟨rfl, hadm, hfind⟩ | ⟨old, fork, ancestor, new, rfl, hre⟩
  · exact ⟨fun _ => hvacuous (chosenFork_of_applied hup),
      fun _ => ⟨by simp, by simp, by simp⟩⟩
  · exact ⟨fun _ => hvacuous (chosenFork_of_rejected hup hcause),
      fun _ => ⟨by simp, by simp, by simp⟩⟩
  · have hnone := chosenFork_of_orphaned hadm hfind
    obtain ⟨-, -, -, rfl⟩ := admits_eq_some.mp hadm
    exact ⟨fun _ => hvacuous hnone, fun _ => ⟨by simp, fun _ => rfl, by simp⟩⟩
  · have hchosen := hre.chosenFork
    constructor
    · intro hall fork' ancestor' hsome
      cases hchosen.symm.trans hsome
      obtain ⟨ancestor', stem, hchosen', hstem⟩ := hall.reorged old fork rfl
      cases hchosen.symm.trans hchosen'
      exact (hre.complete_iff hc).mp ⟨stem, hstem⟩
    · intro hrep
      obtain ⟨stem, hstem⟩ := (hre.complete_iff hc).mpr (hrep fork ancestor hchosen)
      refine ⟨by simp, by simp, fun old' new' heq => ?_⟩
      cases heq
      exact ⟨ancestor, stem, hchosen, hstem⟩

end Blockchain

namespace Node

/-- At every chain that deliveries lead to, with any orphans in the pool and any stored blocks, a
call applies a block wholly or not at all exactly when the fork it switches to, if any, replays. -/
theorem allOrNothing_iff_forkReplays {core : Core} {env : Option ℚ} {pot : ℕ} {genesis : Block}
    {ds : List Delivery} {n : Node} (hi : genesis.index = 0)
    (run : Runs.Run (Delivers core) (fresh env pot genesis) ds n) (pool : HashTable Bytes Block)
    {ambient : Ambient} {b : Block} {db : Option BlockReader} {outcome : BlockOutcome}
    {c' : Blockchain} (h : Blockchain.applyInMemory core ambient
      { n.chain with orphanPool := pool } b db = .ok (outcome, c')) :
    Blockchain.AllOrNothing core ambient { n.chain with orphanPool := pool } b db outcome c' ↔
      Blockchain.ForkReplays core ambient { n.chain with orphanPool := pool } b db := by
  have hnum := (sound_of_run hi run).window.numbered
  exact Blockchain.Numbered.allOrNothing_iff ⟨hnum.nonempty, hnum.head, hnum.hashes⟩ h

end Node

namespace Sample

/-! A fork whose block is older than the genesis block wins on work, and its replay stops at
once. -/

def staleFork : Block := block 1 [] 0 40

theorem staleFork_reorgs : ∃ n c', Runs.Run (Node.Delivers plainCore) node
      [⟨mainBlock, around 1748000060⟩] n ∧
    n.chain.blocks = [genesis, mainBlock] ∧
    n.chain.applyInMemory plainCore (around 1748000060) staleFork (some n.db.reader) =
      .ok (.reorged [mainBlock] [staleFork], c') ∧
    c'.blocks = [genesis] := by
  have hrun : (node.applyBlocks plainCore [⟨mainBlock, around 1748000060⟩]).toOption.map
      (fun r => (r.2.chain.blocks, (r.2.chain.applyInMemory plainCore (around 1748000060) staleFork
        (some r.2.db.reader)).toOption.map fun q => (q.1, q.2.blocks))) =
      some ([genesis, mainBlock], some (.reorged [mainBlock] [staleFork], [genesis])) := by
    decide +kernel
  obtain ⟨⟨outcomes, n⟩, happ, hobs⟩ := Fallible.exists_of_toOption_map hrun
  rw [Prod.mk.injEq] at hobs
  obtain ⟨⟨outcome, c'⟩, hcall, hobs'⟩ := Fallible.exists_of_toOption_map hobs.2
  rw [Prod.mk.injEq] at hobs'
  obtain ⟨rfl, hblocks⟩ := hobs'
  refine ⟨n, c', Node.run_of_applyBlocks ?_ happ, hobs.1, hcall, hblocks⟩
  intro d hd
  rw [List.mem_singleton.mp hd]
  exact ⟨by decide, by decide, by decide, by decide⟩

theorem staleFork_not_allOrNothing : ∃ n c', Runs.Run (Node.Delivers plainCore) node
      [⟨mainBlock, around 1748000060⟩] n ∧
    n.chain.applyInMemory plainCore (around 1748000060) staleFork (some n.db.reader) =
      .ok (.reorged [mainBlock] [staleFork], c') ∧
    ¬ Blockchain.AllOrNothing plainCore (around 1748000060) n.chain staleFork (some n.db.reader)
      (.reorged [mainBlock] [staleFork]) c' := by
  obtain ⟨n, c', hrun, -, hcall, hblocks⟩ := staleFork_reorgs
  refine ⟨n, c', hrun, hcall, fun hall => ?_⟩
  obtain ⟨-, stem, -, -, -, hstem⟩ := hall.reorged _ _ rfl
  have hlast := congrArg List.getLast? (hblocks.symm.trans hstem)
  rw [List.getLast?_concat] at hlast
  exact absurd hlast (by decide +kernel)

theorem staleFork_allOrNothing_iff : ∃ n c', Runs.Run (Node.Delivers plainCore) node
      [⟨mainBlock, around 1748000060⟩] n ∧
    n.chain.applyInMemory plainCore (around 1748000060) staleFork (some n.db.reader) =
      .ok (.reorged [mainBlock] [staleFork], c') ∧
    (Blockchain.AllOrNothing plainCore (around 1748000060) n.chain staleFork (some n.db.reader)
        (.reorged [mainBlock] [staleFork]) c' ↔
      n.chain.ForkReplays plainCore (around 1748000060) staleFork (some n.db.reader)) := by
  obtain ⟨n, c', hrun, -, hcall, -⟩ := staleFork_reorgs
  exact ⟨n, c', hrun, hcall, Node.allOrNothing_iff_forkReplays rfl hrun n.chain.orphanPool hcall⟩

end Sample

end Lootcoin
