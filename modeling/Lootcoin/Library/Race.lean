import Mathlib.Algebra.BigOperators.Group.Finset.Basic
import Mathlib.Algebra.Order.BigOperators.Group.Finset
import Lootcoin.Library.Runs

/-! Threads that race to publish a candidate.  They share a flag and a cell.  A thread gives up if
it finds the flag set, tests its candidate and gives up if the test fails, exchanges the flag for a
set one, and writes its candidate to the cell if the flag was clear.  In every interleaving, when
all are done, the flag tells whether any candidate passes, and the cell holds one that does. -/

namespace Race

inductive Phase
  | looking
  | testing
  | claiming
  | writing
  | done
  deriving DecidableEq

/-- The steps that a thread has yet to take, at most. -/
def Phase.rank : Phase → ℕ
  | .looking => 4
  | .testing => 3
  | .claiming => 2
  | .writing => 1
  | .done => 0

structure State (τ α : Type*) where
  flag : Bool
  cell : α
  phase : τ → Phase

variable {τ α : Type*} [DecidableEq τ] {passes : τ → Bool} {candidate : τ → α}
  {s s' : State τ α} {t u : τ} {ts : List τ} {cell : α}

/-- A thread moves to a phase. -/
def State.moveTo (s : State τ α) (t : τ) (p : Phase) : State τ α :=
  { s with phase := Function.update s.phase t p }

@[simp] theorem moveTo_flag (s : State τ α) (t : τ) (p : Phase) : (s.moveTo t p).flag = s.flag :=
  rfl

@[simp] theorem moveTo_cell (s : State τ α) (t : τ) (p : Phase) : (s.moveTo t p).cell = s.cell :=
  rfl

@[simp] theorem moveTo_phase_self (s : State τ α) (t : τ) (p : Phase) :
    (s.moveTo t p).phase t = p := by
  simp [State.moveTo]

theorem moveTo_phase_of_ne (s : State τ α) (p : Phase) (h : u ≠ t) :
    (s.moveTo t p).phase u = s.phase u := by
  simp [State.moveTo, h]

/-- The next step of a thread. -/
def step (passes : τ → Bool) (candidate : τ → α) (s : State τ α) (t : τ) : Option (State τ α) :=
  match s.phase t with
  | .looking => some (s.moveTo t (if s.flag then .done else .testing))
  | .testing => some (s.moveTo t (if passes t then .claiming else .done))
  | .claiming => some (({ s with flag := true }).moveTo t (if s.flag then .done else .writing))
  | .writing => some (({ s with cell := candidate t }).moveTo t .done)
  | .done => none

/-- A thread takes its next step. -/
def Steps (passes : τ → Bool) (candidate : τ → α) (s : State τ α) (t : τ) (s' : State τ α) : Prop :=
  step passes candidate s t = some s'

/-- All threads at their beginning, with the flag clear. -/
def start (cell : α) : State τ α := ⟨false, cell, fun _ => .looking⟩

def Finished (s : State τ α) : Prop := ∀ t, s.phase t = .done

/-- The cases of a step. -/
theorem steps_cases (h : Steps passes candidate s t s') :
    (s.phase t = .looking ∧ s' = s.moveTo t (if s.flag then .done else .testing)) ∨
    (s.phase t = .testing ∧ s' = s.moveTo t (if passes t then .claiming else .done)) ∨
    (s.phase t = .claiming ∧
      s' = ({ s with flag := true }).moveTo t (if s.flag then .done else .writing)) ∨
    (s.phase t = .writing ∧ s' = ({ s with cell := candidate t }).moveTo t .done) := by
  unfold Steps step at h
  cases hp : s.phase t <;> rw [hp] at h <;> simp_all

/-! ### The invariant -/

/-- While the flag is clear nobody has claimed it, the cell is as it was, and whoever is done has
failed its test. Once the flag is set one thread that passes has claimed it, and either it alone
writes or the cell holds its candidate. -/
structure Inv (passes : τ → Bool) (candidate : τ → α) (cell : α) (s : State τ α) : Prop where
  claims : ∀ t, s.phase t = .claiming ∨ s.phase t = .writing → passes t = true
  clear : s.flag = false → s.cell = cell ∧
    ∀ t, s.phase t ≠ .writing ∧ (s.phase t = .done → passes t = false)
  set : s.flag = true → ∃ t, passes t = true ∧ (∀ u, s.phase u = .writing → u = t) ∧
    (s.phase t = .writing ∨ s.phase t = .done ∧ s.cell = candidate t)

omit [DecidableEq τ] in
theorem inv_start (cell : α) : Inv passes candidate cell (start cell) where
  claims t h := by simp [start] at h
  clear _ := ⟨rfl, fun t => by simp [start]⟩
  set h := by simp [start] at h

/-- A step that leaves the flag and the cell as they are, to a phase in which nobody writes. -/
theorem Inv.moveTo (h : Inv passes candidate cell s) {p : Phase} (hold : s.phase t ≠ .writing)
    (hdone : s.phase t ≠ .done) (hp : p ≠ .writing) (hclaim : p = .claiming → passes t = true)
    (hfails : s.flag = false → p = .done → passes t = false) :
    Inv passes candidate cell (s.moveTo t p) where
  claims u hu := by
    by_cases hut : u = t
    · subst hut
      rw [moveTo_phase_self] at hu
      exact hclaim (hu.resolve_right hp)
    · rw [moveTo_phase_of_ne s p hut] at hu
      exact h.claims u hu
  clear hflag := by
    obtain ⟨hcell, hall⟩ := h.clear hflag
    refine ⟨hcell, fun u => ?_⟩
    by_cases hut : u = t
    · subst hut
      rw [moveTo_phase_self]
      exact ⟨hp, hfails hflag⟩
    · rw [moveTo_phase_of_ne s p hut]
      exact hall u
  set hflag := by
    obtain ⟨w, hw, honly, hwhere⟩ := h.set hflag
    have hwt : w ≠ t := by
      rintro rfl
      rcases hwhere with hwr | ⟨hd, -⟩
      · exact hold hwr
      · exact hdone hd
    refine ⟨w, hw, fun u hu => ?_, by rwa [moveTo_phase_of_ne s p hwt]⟩
    by_cases hut : u = t
    · subst hut
      rw [moveTo_phase_self] at hu
      exact absurd hu hp
    · rw [moveTo_phase_of_ne s p hut] at hu
      exact honly u hu

/-- A thread exchanges the flag. -/
theorem Inv.claim (h : Inv passes candidate cell s) (hp : s.phase t = .claiming) :
    Inv passes candidate cell
      (({ s with flag := true }).moveTo t (if s.flag then .done else .writing)) := by
  cases hflag : s.flag with
  | true =>
    have hsame : ({ s with flag := true } : State τ α) = s := by
      cases s
      simp_all
    rw [hsame]
    refine h.moveTo (by simp [hp]) (by simp [hp]) (by simp) (by simp) fun hclear => ?_
    cases hflag.symm.trans hclear
  | false =>
    obtain ⟨-, hall⟩ := h.clear hflag
    have hpasses := h.claims t (.inl hp)
    refine ⟨fun u hu => ?_, fun hclear => by simp at hclear, fun _ => ⟨t, hpasses, ?_, .inl ?_⟩⟩
    · by_cases hut : u = t
      · rwa [hut]
      · rw [moveTo_phase_of_ne _ _ hut] at hu
        exact h.claims u hu
    · intro u hu
      by_contra hut
      rw [moveTo_phase_of_ne _ _ hut] at hu
      exact (hall u).1 hu
    · simp

/-- A thread writes its candidate. -/
theorem Inv.write (h : Inv passes candidate cell s) (hp : s.phase t = .writing) :
    Inv passes candidate cell (({ s with cell := candidate t }).moveTo t .done) := by
  cases hflag : s.flag with
  | false => exact absurd hp ((h.clear hflag).2 t).1
  | true =>
    obtain ⟨w, hw, honly, -⟩ := h.set hflag
    obtain rfl := honly t hp
    refine ⟨fun u hu => ?_, fun hclear => ?_, fun _ => ⟨t, hw, ?_, .inr ⟨by simp, rfl⟩⟩⟩
    · by_cases hut : u = t
      · rwa [hut]
      · rw [moveTo_phase_of_ne _ _ hut] at hu
        exact h.claims u hu
    · simp at hclear
    · intro u hu
      by_contra hut
      rw [moveTo_phase_of_ne _ _ hut] at hu
      exact hut (honly u hu)

theorem Inv.step (h : Inv passes candidate cell s) (hs : Steps passes candidate s t s') :
    Inv passes candidate cell s' := by
  rcases steps_cases hs with ⟨hp, rfl⟩ | ⟨hp, rfl⟩ | ⟨hp, rfl⟩ | ⟨hp, rfl⟩
  · refine h.moveTo (by simp [hp]) (by simp [hp]) ?_ ?_ fun hflag => ?_
    · split <;> simp
    · split <;> simp
    · simp [hflag]
  · refine h.moveTo (by simp [hp]) (by simp [hp]) ?_ ?_ fun _ => ?_
    · split <;> simp
    · split <;> simp_all
    · split <;> simp_all
  · exact h.claim hp
  · exact h.write hp

/-! ### Runs -/

/-- When all threads are done, the flag tells whether a candidate passes, and the cell holds one
that does or what it held before. -/
theorem finished_of_run (run : Runs.Run (Steps passes candidate) (start cell) ts s)
    (hdone : Finished s) : (s.flag = true → ∃ t, passes t = true ∧ s.cell = candidate t) ∧
      (s.flag = false → s.cell = cell ∧ ∀ t, passes t = false) := by
  have h : Inv passes candidate cell s :=
    run.invariant (fun hs hi => Inv.step hi hs) (inv_start cell)
  constructor
  · intro hflag
    obtain ⟨t, ht, -, hwhere⟩ := h.set hflag
    rcases hwhere with hw | ⟨-, hcell⟩
    · cases (hdone t).symm.trans hw
    · exact ⟨t, ht, hcell⟩
  · intro hflag
    obtain ⟨hcell, hall⟩ := h.clear hflag
    exact ⟨hcell, fun t => (hall t).2 (hdone t)⟩

variable [Fintype τ]

/-- The steps that all threads have yet to take, at most. -/
def State.rank (s : State τ α) : ℕ := ∑ t, (s.phase t).rank

theorem rank_lt_of_step (hs : Steps passes candidate s t s') : s'.rank < s.rank := by
  have hmove : ∀ u, u ≠ t → s'.phase u = s.phase u := by
    intro u hu
    rcases steps_cases hs with ⟨-, rfl⟩ | ⟨-, rfl⟩ | ⟨-, rfl⟩ | ⟨-, rfl⟩ <;>
      exact moveTo_phase_of_ne _ _ hu
  have hself : (s'.phase t).rank < (s.phase t).rank := by
    rcases steps_cases hs with ⟨hp, rfl⟩ | ⟨hp, rfl⟩ | ⟨hp, rfl⟩ | ⟨hp, rfl⟩ <;>
      rw [moveTo_phase_self, hp]
    · split <;> decide
    · split <;> decide
    · split <;> decide
    · decide
  refine Finset.sum_lt_sum (fun u _ => ?_) ⟨t, Finset.mem_univ t, hself⟩
  by_cases hu : u = t
  · rw [hu]
    exact hself.le
  · rw [hmove u hu]

/-- Every step of a run brings the threads nearer to their end. -/
theorem length_add_rank_le (run : Runs.Run (Steps passes candidate) s ts s') :
    ts.length + s'.rank ≤ s.rank := by
  induction run with
  | nil => simp
  | cons hs _ ih =>
    have := rank_lt_of_step hs
    rw [List.length_cons]
    omega

/-- In every interleaving each thread takes at most four steps on average. -/
theorem length_le_of_run (run : Runs.Run (Steps passes candidate) (start cell) ts s) :
    ts.length ≤ 4 * Fintype.card τ := by
  have hrank : (start cell : State τ α).rank = 4 * Fintype.card τ := by
    simp [State.rank, start, Phase.rank, Nat.mul_comm]
  have := length_add_rank_le run
  omega

/-- From every state the threads can go on until all are done. -/
theorem exists_finishes (passes : τ → Bool) (candidate : τ → α) (s : State τ α) :
    ∃ ts s', Runs.Run (Steps passes candidate) s ts s' ∧ Finished s' := by
  induction hr : s.rank using Nat.strong_induction_on generalizing s with
  | _ r ih =>
    by_cases hdone : Finished s
    · exact ⟨[], s, .nil s, hdone⟩
    · obtain ⟨t, ht⟩ := not_forall.mp hdone
      obtain ⟨s', hs⟩ : ∃ s', Steps passes candidate s t s' := by
        unfold Steps step
        cases hp : s.phase t <;> simp_all
      obtain ⟨ts, s'', hrun, hend⟩ := ih s'.rank (hr ▸ rank_lt_of_step hs) s' rfl
      exact ⟨t :: ts, s'', .cons hs hrun, hend⟩

end Race
