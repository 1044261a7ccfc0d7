import Lootcoin.Chain.Append
import Lootcoin.Chain.ForkChoice

/-! What `applyInMemory` does, said once: the four outcomes, with what each says about the block
and the chain. -/

namespace Lootcoin

namespace Blockchain

variable {core : Core} {ambient : Ambient} {c c' : Blockchain} {b : Block}
  {db : Option BlockReader} {outcome : BlockOutcome}

/-- A block becomes an orphan when `updateState` refuses it, it does not follow the tip, and it
passes the checks of a block standing alone. -/
theorem admits_eq_some {d : Blockchain} : c.admits core ambient b = some d ↔
    c.updateState core (ambient.clock 0) b = .ok none ∧ c.linksToTip b = false ∧
      c.validateBlockStandalone core b = true ∧ d = c.admitOrphan ambient.order b := by
  unfold admits
  cases h : c.updateState core (ambient.clock 0) b with
  | error e => simp
  | ok r =>
    cases r with
    | none =>
      simp only [true_and, Option.ite_none_right_eq_some, Bool.and_eq_true, Bool.not_eq_true',
        Option.some.injEq, and_assoc]
      exact and_congr_right fun _ => and_congr_right fun _ => eq_comm
    | some d' => simp

/-- A replayed fork is stored blocks, if any, and what the splice makes canonical. -/
theorem reorgTo_eq_ok {clock : ℕ → ℕ} {new : List Block} :
    c.reorgTo core clock new db = .ok c' ↔
      (withHistory new db = .ok none ∧ c' = c) ∨
      ∃ genesis rest, withHistory new db = .ok (some (genesis :: rest)) ∧
        replay core clock (c.reset genesis) rest = .ok c' := by
  unfold reorgTo
  rw [Fallible.bind_eq_ok]
  constructor
  · rintro ⟨_ | _ | ⟨genesis, rest⟩, h, hr⟩
    · exact .inl ⟨h, (Fallible.pure_eq_ok.mp hr).symm⟩
    · exact absurd hr (by simp)
    · exact .inr ⟨genesis, rest, h, hr⟩
  · rintro (⟨h, rfl⟩ | ⟨genesis, rest, h, hr⟩)
    · exact ⟨none, h, rfl⟩
    · exact ⟨some (genesis :: rest), h, hr⟩

/-- Without a database, only blocks from index zero on can be replayed. -/
theorem withHistory_none {new : List Block} {target : Option (List Block)}
    (h : withHistory new none = .ok target) :
    ∃ first rest, new = first :: rest ∧ first.index = 0 ∧ target = some new := by
  unfold withHistory at h
  split at h
  · cases h
  · rename_i first rest
    split at h
    · cases h
    · rename_i hzero
      cases h
      exact ⟨first, rest, rfl, Nat.eq_zero_of_not_pos hzero, rfl⟩

theorem splice_eq_ok {fork new old : List Block} {ancestor : ℕ} :
    c.splice fork ancestor = .ok (new, old) ↔
      (c.blocksOffset ≤ ancestor ∧ ancestor - c.blocksOffset < c.blocks.length ∧
        new = c.blocks.take (ancestor - c.blocksOffset + 1) ++ fork ∧
        old = c.blocks.drop (ancestor - c.blocksOffset + 1)) ∨
      (ancestor < c.blocksOffset ∧ new = fork ∧ old = []) := by
  unfold splice
  by_cases ho : c.blocksOffset ≤ ancestor
  · by_cases hl : ancestor - c.blocksOffset < c.blocks.length
    · simp [ho, hl, Nat.not_lt.mpr ho, eq_comm]
    · simp [ho, hl, Nat.not_lt.mpr ho]
  · simp [ho, Nat.not_le.mp ho, eq_comm]

/-- A reorganization: the fork found, what it displaces, and the rebuilt chain. -/
structure Reorganizes (core : Core) (ambient : Ambient) (c : Blockchain) (b : Block)
    (db : Option BlockReader) (old fork : List Block) (c' : Blockchain) (ancestor : ℕ)
    (new : List Block) : Prop where
  admits : c.admits core ambient b = some (c.admitOrphan ambient.order b)
  found : (c.admitOrphan ambient.order b).findLongestFork ambient.order db =
    .ok (some (fork, ancestor))
  splice : c.splice fork ancestor = .ok (new, old)
  rebuilt : (c.admitOrphan ambient.order b).reorgTo core (laterReadings ambient.clock) new db =
    .ok c'

/-- The outcomes of a call. -/
theorem applyInMemory_eq_ok : c.applyInMemory core ambient b db = .ok (outcome, c') ↔
    (outcome = .applied ∧ c.updateState core (ambient.clock 0) b = .ok (some c')) ∨
    (outcome = .rejected ∧ c' = c ∧ c.updateState core (ambient.clock 0) b = .ok none ∧
      (c.linksToTip b = true ∨ c.validateBlockStandalone core b = false)) ∨
    (outcome = .orphaned ∧ c.admits core ambient b = some c' ∧
      c'.findLongestFork ambient.order db = .ok none) ∨
    ∃ old fork ancestor new, outcome = .reorged old fork ∧
      Reorganizes core ambient c b db old fork c' ancestor new := by
  unfold applyInMemory
  rw [Fallible.bind_eq_ok]
  constructor
  · rintro ⟨_ | d, hup, h⟩
    · simp only at h
      split at h
      · rename_i hlink
        cases Fallible.pure_eq_ok.mp h
        exact .inr (.inl ⟨rfl, rfl, hup, .inl hlink⟩)
      rename_i hlink
      split at h
      · rename_i hval
        cases Fallible.pure_eq_ok.mp h
        exact .inr (.inl ⟨rfl, rfl, hup, .inr (by simpa using hval)⟩)
      rename_i hval
      have hadm : c.admits core ambient b = some (c.admitOrphan ambient.order b) :=
        admits_eq_some.mpr ⟨hup, by simpa using hlink, by simpa using hval, rfl⟩
      obtain ⟨_ | ⟨fork, ancestor⟩, hfind, h⟩ := Fallible.bind_eq_ok.mp h
      · cases Fallible.pure_eq_ok.mp h
        exact .inr (.inr (.inl ⟨rfl, hadm, hfind⟩))
      · obtain ⟨⟨new, old⟩, hsplice, h⟩ := Fallible.bind_eq_ok.mp h
        obtain ⟨d, hre, h⟩ := Fallible.bind_eq_ok.mp h
        cases Fallible.pure_eq_ok.mp h
        exact .inr (.inr (.inr ⟨old, fork, ancestor, new, rfl, hadm, hfind, hsplice, hre⟩))
    · cases Fallible.pure_eq_ok.mp h
      exact .inl ⟨rfl, hup⟩
  · rintro (⟨rfl, hup⟩ | ⟨rfl, rfl, hup, hcause⟩ | ⟨rfl, hadm, hfind⟩ |
      ⟨old, fork, ancestor, new, rfl, hadm, hfind, hsplice, hre⟩)
    · exact ⟨some c', hup, rfl⟩
    · refine ⟨none, hup, ?_⟩
      simp only
      split
      · rfl
      · rename_i hlink
        rw [if_pos (by simpa using hcause.resolve_left hlink)]
        rfl
    · obtain ⟨hup, hlink, hval, rfl⟩ := admits_eq_some.mp hadm
      refine ⟨none, hup, ?_⟩
      simp only [hlink, hval, hfind, bind, Except.bind]
      rfl
    · obtain ⟨hup, hlink, hval, -⟩ := admits_eq_some.mp hadm
      refine ⟨none, hup, ?_⟩
      have hsplice' : (c.admitOrphan ambient.order b).splice fork ancestor = .ok (new, old) :=
        hsplice
      simp only [hlink, hval, hfind, hsplice', hre, bind, Except.bind]
      rfl

theorem chosenFork_eq_some {fork : List Block} {ancestor : ℕ} :
    c.chosenFork core ambient b db = some (fork, ancestor) ↔
      c.admits core ambient b = some (c.admitOrphan ambient.order b) ∧
      (c.admitOrphan ambient.order b).findLongestFork ambient.order db =
        .ok (some (fork, ancestor)) := by
  unfold chosenFork
  rw [Option.bind_eq_some_iff]
  constructor
  · rintro ⟨d, hd, h⟩
    obtain ⟨-, -, -, rfl⟩ := admits_eq_some.mp hd
    refine ⟨hd, ?_⟩
    split at h
    · rename_i hfind
      rw [hfind, h]
    · simp at h
  · rintro ⟨hd, h⟩
    exact ⟨_, hd, by simp [h]⟩

theorem chosenFork_of_applied (hup : c.updateState core (ambient.clock 0) b = .ok (some c')) :
    c.chosenFork core ambient b db = none := by
  rw [chosenFork, admits, hup, Option.bind_none]

theorem chosenFork_of_rejected (hup : c.updateState core (ambient.clock 0) b = .ok none)
    (hcause : c.linksToTip b = true ∨ c.validateBlockStandalone core b = false) :
    c.chosenFork core ambient b db = none := by
  have hadm : c.admits core ambient b = none := by
    rcases hcause with hlink | hval
    · simp [admits, hup, hlink]
    · simp [admits, hup, hval]
  rw [chosenFork, hadm, Option.bind_none]

theorem chosenFork_of_orphaned (hadm : c.admits core ambient b = some c')
    (hfind : c'.findLongestFork ambient.order db = .ok none) :
    c.chosenFork core ambient b db = none := by
  rw [chosenFork, hadm, Option.bind_some, hfind]

theorem Reorganizes.chosenFork {old fork new : List Block} {ancestor : ℕ}
    (h : Reorganizes core ambient c b db old fork c' ancestor new) :
    c.chosenFork core ambient b db = some (fork, ancestor) :=
  chosenFork_eq_some.mpr ⟨h.admits, h.found⟩

/-- A chosen fork is the candidate of an orphan that no orphan follows: a path through the pool
from a block that the canonical chain holds. -/
theorem fork_of_findLongestFork {order : PoolOrder} {fork : List Block} {ancestor : ℕ}
    (h : findLongestFork order c db = .ok (some (fork, ancestor))) :
    ∃ tip path first, tip ∈ poolTips order c.orphanPool ∧
      PoolPath c.orphanPool tip.previousHash path ∧ fork = path ++ [tip] ∧
      fork.head? = some first ∧ c.ancestorIndex db first = some ancestor ∧
      c.orphanPool.lookup first.previousHash = none ∧
      ∃ work, c.mainWork db ancestor = some work ∧ work < chainSegmentWork fork := by
  obtain ⟨tip, k, htip, hk, rfl, rfl, -⟩ := findLongestFork_eq_some h
  obtain ⟨htrace, hanc, hwork, hmain⟩ := forkCandidate_eq_some.mp hk
  obtain ⟨path, hpath, -, hchain⟩ := traceForkChain_eq_ok.mp htrace
  obtain ⟨first, hfirst, hanc⟩ := Option.bind_eq_some_iff.mp hanc
  obtain ⟨key, hkey, -⟩ := mem_poolTips.mp htip
  refine ⟨tip, path, first, htip, hpath, hchain, hfirst, hanc, ?_, by rwa [hwork] at hmain⟩
  exact (PoolPath.step hkey hpath).lookup_head (hchain ▸ Option.mem_def.mpr hfirst)

end Blockchain

end Lootcoin
