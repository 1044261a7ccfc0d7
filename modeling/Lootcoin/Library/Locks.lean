import Mathlib.Algebra.BigOperators.Ring.Finset
import Mathlib.Algebra.Order.BigOperators.Group.Finset
import Lootcoin.Library.Runs

/-! Programs that share variables, each under a lock of its own.  A lock is held by any number of
readers or by one writer, and is given to those that ask for it in the order in which they ask.
Where every program takes its locks in one order and has read and written all that it will before
it gives one back, no interleaving ends before all programs do, and what an interleaving leaves and
answers is what the programs leave and answer that run one after another. -/

namespace Locks

inductive Mode
  | read
  | write
  deriving DecidableEq

/-- A program that answers, or fails and goes no further. -/
inductive Prog (κ : Type*) (V : κ → Type*) (R : Type*)
  | done (answer : R)
  | fail
  | lock (l : κ) (mode : Mode) (next : Prog κ V R)
  | unlock (l : κ) (next : Prog κ V R)
  | get (l : κ) (next : V l → Prog κ V R)
  | set (l : κ) (value : V l) (next : Prog κ V R)

variable {ι κ : Type*} {V : κ → Type*} {R : Type*} [DecidableEq ι] [DecidableEq κ]

namespace Prog

/-- What a program answers and leaves that runs alone, unless it fails. -/
def exec : Prog κ V R → (∀ l, V l) → Option (R × ∀ l, V l)
  | .done answer, data => some (answer, data)
  | .fail, _ => none
  | .lock _ _ next, data => next.exec data
  | .unlock _ next, data => next.exec data
  | .get l next, data => (next (data l)).exec data
  | .set l value next, data => next.exec (Function.update data l value)

/-- The answer of a program that has nothing more to do than to give locks back. -/
def settled : Prog κ V R → Option R
  | .done answer => some answer
  | .unlock _ next => next.settled
  | _ => none

/-- A program that takes at most so many steps. -/
def Within : Prog κ V R → ℕ → Prop
  | .done _, _ => True
  | .fail, _ => True
  | .lock _ _ next, n => 0 < n ∧ next.Within (n - 1)
  | .unlock _ next, n => 0 < n ∧ next.Within (n - 1)
  | .get _ next, n => 0 < n ∧ ∀ value, (next value).Within (n - 1)
  | .set _ _ next, n => 0 < n ∧ next.Within (n - 1)

/-- A program that holds `held` gives all of it back and does nothing else. -/
def Closing : List (κ × Mode) → Prog κ V R → Prop
  | held, .done _ => held = []
  | held, .unlock l next =>
    (∃ mode, (l, mode) ∈ held) ∧ Closing (held.filter fun h => h.1 ≠ l) next
  | _, _ => False

/-- A program that holds `held` asks only for locks above all that it holds, reads and writes only
under locks, and gives nothing back before it only gives back. -/
def TwoPhase (rank : κ → ℕ) : List (κ × Mode) → Prog κ V R → Prop
  | held, .done _ => held = []
  | _, .fail => True
  | held, .lock l mode next =>
    (∀ h ∈ held, rank h.1 < rank l) ∧ TwoPhase rank ((l, mode) :: held) next
  | held, .unlock l next => Closing held (.unlock l next)
  | held, .get l next => (∃ mode, (l, mode) ∈ held) ∧ ∀ value, TwoPhase rank held (next value)
  | held, .set l _ next => (l, .write) ∈ held ∧ TwoPhase rank held next

variable {rank : κ → ℕ} {p : Prog κ V R} {held : List (κ × Mode)} {answer : R}

theorem exec_of_settled (h : p.settled = some answer) (data : ∀ l, V l) :
    p.exec data = some (answer, data) := by
  induction p with
  | done => simpa [settled, exec] using h
  | unlock l next ih => exact ih h
  | _ => cases h

omit [DecidableEq κ] in
theorem exists_settled_of_closing [DecidableEq κ] (h : Closing held p) :
    ∃ answer, p.settled = some answer := by
  induction p generalizing held with
  | done answer => exact ⟨answer, rfl⟩
  | unlock l next ih => exact ih h.2
  | _ => cases h

theorem Closing.twoPhase (h : Closing held p) : TwoPhase rank held p := by
  cases p with
  | done => exact h
  | unlock => exact h
  | _ => cases h

end Prog

open Prog

/-- The variables, what each program has left, whether it waits for a lock, what it holds, and for
each lock those that wait for it. -/
structure State (ι κ : Type*) (V : κ → Type*) (R : Type*) where
  data : ∀ l, V l
  todo : ι → Prog κ V R
  asked : ι → Bool
  held : ι → List (κ × Mode)
  queue : κ → List (ι × Mode)

variable {rank : κ → ℕ} {bound : ℕ} {s s' t : State ι κ V R} {i j : ι} {l : κ} {mode : Mode}
  {next : Prog κ V R} {answer : R}

/-- Two programs may hold a lock at once. -/
def Compatible (mode mode' : Mode) : Prop := mode = .read ∧ mode' = .read

instance : DecidableRel Compatible := fun _ _ => inferInstanceAs (Decidable (_ ∧ _))

namespace State

/-- The programs before any of them has begun. -/
def start (progs : ι → Prog κ V R) (data : ∀ l, V l) : State ι κ V R :=
  ⟨data, progs, fun _ => false, fun _ => [], fun _ => []⟩

def ask (s : State ι κ V R) (i : ι) (l : κ) (mode : Mode) : State ι κ V R :=
  { s with
    asked := Function.update s.asked i true
    queue := Function.update s.queue l (s.queue l ++ [(i, mode)]) }

def take (s : State ι κ V R) (i : ι) (l : κ) (mode : Mode) (next : Prog κ V R)
    (waiting : List (ι × Mode)) : State ι κ V R :=
  { s with
    todo := Function.update s.todo i next
    asked := Function.update s.asked i false
    held := Function.update s.held i ((l, mode) :: s.held i)
    queue := Function.update s.queue l waiting }

def giveBack (s : State ι κ V R) (i : ι) (l : κ) (next : Prog κ V R) : State ι κ V R :=
  { s with
    todo := Function.update s.todo i next
    held := Function.update s.held i ((s.held i).filter fun h => h.1 ≠ l) }

def goOn (s : State ι κ V R) (i : ι) (next : Prog κ V R) : State ι κ V R :=
  { s with todo := Function.update s.todo i next }

def store (s : State ι κ V R) (i : ι) (l : κ) (value : V l) (next : Prog κ V R) : State ι κ V R :=
  { s with
    data := Function.update s.data l value
    todo := Function.update s.todo i next }

end State

/-- A program asks for a lock, is given the lock that it has asked for when the first in the queue
and when nobody holds it in a way that excludes it, gives a lock back, reads or writes. -/
inductive Steps (s : State ι κ V R) (i : ι) : State ι κ V R → Prop
  | ask {l : κ} {mode : Mode} {next : Prog κ V R} :
      s.todo i = .lock l mode next → s.asked i = false →
      Steps s i (s.ask i l mode)
  | take {l : κ} {mode : Mode} {next : Prog κ V R} {waiting : List (ι × Mode)} :
      s.todo i = .lock l mode next → s.asked i = true → s.queue l = (i, mode) :: waiting →
      (∀ j, ∀ h ∈ s.held j, h.1 = l → Compatible mode h.2) →
      Steps s i (s.take i l mode next waiting)
  | giveBack {l : κ} {next : Prog κ V R} :
      s.todo i = .unlock l next → Steps s i (s.giveBack i l next)
  | get {l : κ} {next : V l → Prog κ V R} :
      s.todo i = .get l next → Steps s i (s.goOn i (next (s.data l)))
  | set {l : κ} {value : V l} {next : Prog κ V R} :
      s.todo i = .set l value next → Steps s i (s.store i l value next)

/-- The step that a program can take, if any. -/
def State.step [Fintype ι] (s : State ι κ V R) (i : ι) : Option (State ι κ V R) :=
  match s.todo i with
  | .done _ => none
  | .fail => none
  | .lock l mode next =>
    if s.asked i then
      match s.queue l with
      | [] => none
      | first :: waiting =>
        if first = (i, mode) ∧ ∀ j, ∀ h ∈ s.held j, h.1 = l → Compatible mode h.2 then
          some (s.take i l mode next waiting)
        else none
    else some (s.ask i l mode)
  | .unlock l next => some (s.giveBack i l next)
  | .get l next => some (s.goOn i (next (s.data l)))
  | .set l value next => some (s.store i l value next)

theorem steps_of_step [Fintype ι] (h : s.step i = some s') : Steps s i s' := by
  unfold State.step at h
  split at h
  · cases h
  · cases h
  · rename_i htodo
    split at h
    · rename_i hasked
      split at h
      · cases h
      rename_i hqueue
      obtain ⟨⟨rfl, hfree⟩, heq⟩ := Option.ite_none_right_eq_some.mp h
      cases heq
      exact .take htodo hasked hqueue hfree
    · rename_i hasked
      cases h
      exact .ask htodo (by simpa using hasked)
  · rename_i htodo
    cases h
    exact .giveBack htodo
  · rename_i htodo
    cases h
    exact .get htodo
  · rename_i htodo
    cases h
    exact .set htodo

/-! ### The locks -/

/-- Every program is in two phases, those that wait are those in the queues, and a writer holds its
lock alone. -/
structure Inv (rank : κ → ℕ) (s : State ι κ V R) : Prop where
  twoPhase : ∀ i, TwoPhase rank (s.held i) (s.todo i)
  asking : ∀ i, s.asked i = true → ∃ l mode next, s.todo i = .lock l mode next ∧
    (i, mode) ∈ s.queue l
  waiting : ∀ l w, w ∈ s.queue l → s.asked w.1 = true ∧ ∃ next, s.todo w.1 = .lock l w.2 next
  nodup : ∀ l, ((s.queue l).map Prod.fst).Nodup
  exclusive : ∀ i j l mode, (l, .write) ∈ s.held i → (l, mode) ∈ s.held j → i = j

omit [DecidableEq ι] in
theorem inv_start {progs : ι → Prog κ V R} (h : ∀ i, TwoPhase rank [] (progs i)) (data : ∀ l, V l) :
    Inv rank (State.start progs data) where
  twoPhase := h
  asking i hi := by simp [State.start] at hi
  waiting l w hw := by simp [State.start] at hw
  nodup l := by simp [State.start]
  exclusive i j l mode hi _ := by simp [State.start] at hi

namespace Inv

theorem ask (h : Inv rank s) (htodo : s.todo i = .lock l mode next) (hasked : s.asked i = false) :
    Inv rank (s.ask i l mode) where
  twoPhase := h.twoPhase
  asking j hj := by
    by_cases hji : j = i
    · subst hji
      exact ⟨l, mode, next, htodo, by simp [State.ask]⟩
    · simp only [State.ask, Function.update_of_ne hji] at hj
      obtain ⟨l', mode', next', htodo', hmem⟩ := h.asking j hj
      refine ⟨l', mode', next', htodo', ?_⟩
      by_cases hl : l' = l
      · subst hl
        simp [State.ask, hmem]
      · simpa [State.ask, hl] using hmem
  waiting l' w hw := by
    -- who asks waits for nothing yet
    have hold : w ∈ s.queue l' → s.asked w.1 = true ∧ w.1 ≠ i := fun hw =>
      ⟨(h.waiting l' w hw).1, fun hwi => by simp [hwi ▸ (h.waiting l' w hw).1] at hasked⟩
    have hcases : w ∈ s.queue l' ∨ l' = l ∧ w = (i, mode) := by
      by_cases hl : l' = l
      · subst hl
        simpa [State.ask] using hw
      · simp only [State.ask, Function.update_of_ne hl] at hw
        exact .inl hw
    rcases hcases with hw | ⟨rfl, rfl⟩
    · obtain ⟨hwasked, hwi⟩ := hold hw
      exact ⟨by simpa [State.ask, hwi] using hwasked, (h.waiting l' w hw).2⟩
    · exact ⟨by simp [State.ask], next, htodo⟩
  nodup l' := by
    by_cases hl : l' = l
    · subst hl
      simp only [State.ask, Function.update_self, List.map_append, List.map_cons, List.map_nil]
      refine List.nodup_append.mpr ⟨h.nodup l', List.nodup_singleton _, ?_⟩
      rintro a ha b hb rfl
      obtain ⟨w, hw, rfl⟩ := List.mem_map.mp ha
      have hwasked := (h.waiting l' w hw).1
      rw [List.mem_singleton.mp hb, hasked] at hwasked
      cases hwasked
    · simpa [State.ask, hl] using h.nodup l'
  exclusive := h.exclusive

theorem take (h : Inv rank s) (htodo : s.todo i = .lock l mode next) {waiting : List (ι × Mode)}
    (hqueue : s.queue l = (i, mode) :: waiting)
    (hfree : ∀ j, ∀ h ∈ s.held j, h.1 = l → Compatible mode h.2) :
    Inv rank (s.take i l mode next waiting) := by
  have hnodup := h.nodup l
  rw [hqueue, List.map_cons, List.nodup_cons] at hnodup
  -- nobody waits for two locks
  have hother : ∀ l' w, w ∈ (s.take i l mode next waiting).queue l' →
      w ∈ s.queue l' ∧ w.1 ≠ i := by
    intro l' w hw
    by_cases hl : l' = l
    · subst hl
      simp only [State.take, Function.update_self] at hw
      refine ⟨hqueue ▸ List.mem_cons_of_mem _ hw, fun hwi => hnodup.1 ?_⟩
      exact List.mem_map.mpr ⟨w, hw, hwi⟩
    · simp only [State.take, Function.update_of_ne hl] at hw
      refine ⟨hw, fun hwi => hl ?_⟩
      obtain ⟨-, next', htodo'⟩ := h.waiting l' w hw
      rw [hwi, htodo] at htodo'
      cases htodo'
      rfl
  have hheld : ∀ j h, h ∈ (s.take i l mode next waiting).held j →
      h ∈ s.held j ∨ j = i ∧ h = (l, mode) := by
    intro j h hh
    by_cases hji : j = i
    · subst hji
      simp only [State.take, Function.update_self, List.mem_cons] at hh
      exact hh.elim (fun hh => .inr ⟨rfl, hh⟩) .inl
    · simp only [State.take, Function.update_of_ne hji] at hh
      exact .inl hh
  refine ⟨fun j => ?_, fun j hj => ?_, fun l' w hw => ?_, fun l' => ?_, ?_⟩
  · by_cases hji : j = i
    · subst hji
      have htwo := h.twoPhase j
      rw [htodo] at htwo
      simpa [State.take] using htwo.2
    · simpa [State.take, hji] using h.twoPhase j
  · by_cases hji : j = i
    · subst hji
      simp [State.take] at hj
    · simp only [State.take, Function.update_of_ne hji] at hj ⊢
      obtain ⟨l', mode', next', htodo', hmem⟩ := h.asking j hj
      refine ⟨l', mode', next', htodo', ?_⟩
      by_cases hl : l' = l
      · subst hl
        rw [hqueue] at hmem
        rw [Function.update_self]
        exact (List.mem_cons.mp hmem).resolve_left fun heq => hji (congrArg Prod.fst heq)
      · rwa [Function.update_of_ne hl]
  · obtain ⟨hmem, hwi⟩ := hother l' w hw
    simp only [State.take, Function.update_of_ne hwi]
    exact h.waiting l' w hmem
  · by_cases hl : l' = l
    · subst hl
      simpa [State.take] using hnodup.2
    · simpa [State.take, hl] using h.nodup l'
  · intro j k l' mode' hj hk
    rcases hheld j _ hj with hj' | ⟨hji, hj'⟩
    · rcases hheld k _ hk with hk' | ⟨hki, hk'⟩
      · exact h.exclusive j k l' mode' hj' hk'
      · obtain ⟨rfl, rfl⟩ := Prod.mk.inj hk'
        exact absurd (hfree j _ hj' rfl).2 (by simp)
    · obtain ⟨rfl, rfl⟩ := Prod.mk.inj hj'
      rcases hheld k _ hk with hk' | ⟨hki, -⟩
      · exact absurd (hfree k _ hk' rfl).1 (by simp)
      · rw [hji, hki]

theorem giveBack (h : Inv rank s) (htodo : s.todo i = .unlock l next) :
    Inv rank (s.giveBack i l next) := by
  have hheld : ∀ j h, h ∈ (s.giveBack i l next).held j → h ∈ s.held j := by
    intro j h hh
    by_cases hji : j = i
    · subst hji
      simp only [State.giveBack, Function.update_self] at hh
      exact (List.mem_filter.mp hh).1
    · simpa [State.giveBack, hji] using hh
  refine ⟨fun j => ?_, fun j hj => ?_, fun l' w hw => ?_, h.nodup,
    fun j k l' mode' hj hk => h.exclusive j k l' mode' (hheld j _ hj) (hheld k _ hk)⟩
  · by_cases hji : j = i
    · subst hji
      have htwo := h.twoPhase j
      rw [htodo] at htwo
      simpa [State.giveBack] using htwo.2.twoPhase
    · simpa [State.giveBack, hji] using h.twoPhase j
  · obtain ⟨l', mode', next', htodo', hmem⟩ := h.asking j hj
    have hji : j ≠ i := by
      rintro rfl
      rw [htodo] at htodo'
      cases htodo'
    exact ⟨l', mode', next', by simpa [State.giveBack, hji] using htodo', hmem⟩
  · obtain ⟨hasked, next', htodo'⟩ := h.waiting l' w hw
    have hwi : w.1 ≠ i := by
      intro hwi
      rw [hwi, htodo] at htodo'
      cases htodo'
    exact ⟨hasked, next', by simpa [State.giveBack, hwi] using htodo'⟩

/-- A step that is not about locks. -/
theorem goOn (h : Inv rank s) (htodo : ∀ l mode next, s.todo i ≠ .lock l mode next)
    (hnext : TwoPhase rank (s.held i) next) (data : ∀ l, V l) :
    Inv rank { s with data := data, todo := Function.update s.todo i next } where
  twoPhase j := by
    by_cases hji : j = i
    · subst hji
      simpa using hnext
    · simpa [hji] using h.twoPhase j
  asking j hj := by
    obtain ⟨l', mode', next', htodo', hmem⟩ := h.asking j hj
    have hji : j ≠ i := fun hji => htodo _ _ _ (hji ▸ htodo')
    exact ⟨l', mode', next', by simpa [hji] using htodo', hmem⟩
  waiting l' w hw := by
    obtain ⟨hasked, next', htodo'⟩ := h.waiting l' w hw
    have hwi : w.1 ≠ i := fun hwi => htodo _ _ _ (hwi ▸ htodo')
    exact ⟨hasked, next', by simpa [hwi] using htodo'⟩
  nodup := h.nodup
  exclusive := h.exclusive

theorem step (h : Inv rank s) (hs : Steps s i s') : Inv rank s' := by
  have htwo := h.twoPhase i
  cases hs with
  | ask htodo hasked => exact h.ask htodo hasked
  | take htodo _ hqueue hfree => exact h.take htodo hqueue hfree
  | giveBack htodo => exact h.giveBack htodo
  | get htodo =>
    rw [htodo] at htwo
    exact h.goOn (by simp [htodo]) (htwo.2 _) s.data
  | set htodo =>
    rw [htodo] at htwo
    exact h.goOn (by simp [htodo]) htwo.2 _

end Inv

/-! ### Progress -/

/-- A program that waits for a lock waits, in the end, for one that can take a step or has
failed. -/
theorem Inv.exists_step_of_lock (h : Inv rank s) (hrank : ∀ l, rank l < bound)
    (htodo : s.todo i = .lock l mode next) :
    (∃ j, s.todo j = .fail) ∨ ∃ j s', Steps s j s' := by
  induction hd : bound - rank l using Nat.strong_induction_on generalizing i l mode next with
  | _ d ih =>
    by_cases hasked : s.asked i = false
    · exact .inr ⟨i, _, .ask htodo hasked⟩
    obtain ⟨l', mode', next', htodo', hmem⟩ := h.asking i (by simpa using hasked)
    rw [htodo] at htodo'
    cases htodo'
    -- the first of the queue is given the lock unless somebody holds it
    obtain ⟨w, waiting, hqueue⟩ := List.exists_cons_of_ne_nil (List.ne_nil_of_mem hmem)
    obtain ⟨hwasked, wnext, hwtodo⟩ := h.waiting l w (by rw [hqueue]; exact List.mem_cons_self)
    by_cases hfree : ∀ j, ∀ h ∈ s.held j, h.1 = l → Compatible w.2 h.2
    · exact .inr ⟨w.1, _, .take hwtodo hwasked hqueue hfree⟩
    · simp only [not_forall] at hfree
      obtain ⟨j, held, hheld, rfl, -⟩ := hfree
      have htwo := h.twoPhase j
      cases hj : s.todo j with
      | done =>
        rw [hj, TwoPhase] at htwo
        rw [htwo] at hheld
        cases hheld
      | fail => exact .inl ⟨j, hj⟩
      | unlock => exact .inr ⟨j, _, .giveBack hj⟩
      | get => exact .inr ⟨j, _, .get hj⟩
      | set => exact .inr ⟨j, _, .set hj⟩
      | lock l' mode'' next'' =>
        rw [hj, TwoPhase] at htwo
        have hlt : rank held.1 < rank l' := htwo.1 _ hheld
        have := hrank l'
        exact ih _ (by omega) hj rfl

/-- While programs have something left, one can take a step or has failed. -/
theorem Inv.exists_step (h : Inv rank s) (hrank : ∀ l, rank l < bound) :
    (∀ i, ∃ answer, s.todo i = .done answer) ∨ (∃ i, s.todo i = .fail) ∨
      ∃ i s', Steps s i s' := by
  by_cases hdone : ∀ i, ∃ answer, s.todo i = .done answer
  · exact .inl hdone
  right
  obtain ⟨i, hi⟩ := not_forall.mp hdone
  cases htodo : s.todo i with
  | done answer => exact absurd ⟨answer, htodo⟩ hi
  | fail => exact .inl ⟨i, htodo⟩
  | lock => exact h.exists_step_of_lock hrank htodo
  | unlock => exact .inr ⟨i, _, .giveBack htodo⟩
  | get => exact .inr ⟨i, _, .get htodo⟩
  | set => exact .inr ⟨i, _, .set htodo⟩

/-! ### The length of a run -/

section

variable [Fintype ι] {n : ℕ} {progs : ι → Prog κ V R} {data : ∀ l, V l}

/-- At most `n` steps are left: one for each that a program takes, and one for each lock that it
has yet to ask for. -/
def Left (s : State ι κ V R) (n : ℕ) : Prop :=
  ∃ b : ι → ℕ, (∀ i, (s.todo i).Within (b i)) ∧ ∑ i, (2 * b i - (s.asked i).toNat) ≤ n

omit [DecidableEq ι] [DecidableEq κ] in
theorem left_start {b : ι → ℕ} (h : ∀ i, (progs i).Within (b i)) :
    Left (State.start progs data) (2 * ∑ i, b i) :=
  ⟨b, h, by simp [State.start, Finset.mul_sum]⟩

omit [DecidableEq κ] in
/-- A step takes from what one program has left, and leaves the others as they are. -/
theorem left_of_one (b' : ℕ → ℕ) (h : Left s n)
    (hothers : ∀ j, j ≠ i → s'.todo j = s.todo j ∧ s'.asked j = s.asked j)
    (hwithin : ∀ b, (s.todo i).Within b → (s'.todo i).Within (b' b) ∧
      2 * b' b - (s'.asked i).toNat < 2 * b - (s.asked i).toNat) :
    ∃ m, m < n ∧ Left s' m := by
  obtain ⟨b, hb, hsum⟩ := h
  obtain ⟨hi, hlt⟩ := hwithin (b i) (hb i)
  refine ⟨∑ j, (2 * Function.update b i (b' (b i)) j - (s'.asked j).toNat), ?_,
    Function.update b i (b' (b i)), fun j => ?_, le_rfl⟩
  · refine lt_of_lt_of_le (Finset.sum_lt_sum (fun j _ => ?_) ⟨i, Finset.mem_univ i, ?_⟩) hsum
    · by_cases hj : j = i
      · subst hj
        simpa using hlt.le
      · simp [hj, (hothers j hj).2]
    · simpa using hlt
  · by_cases hj : j = i
    · subst hj
      simpa using hi
    · simpa [hj, (hothers j hj).1] using hb j

theorem Inv.left_step (h : Inv rank s) (hleft : Left s n) (hs : Steps s i s') :
    ∃ m, m < n ∧ Left s' m := by
  -- only a program that has asked for a lock counts as one step further
  have hasked : ∀ {p}, s.todo i = p → (∀ l mode next, p ≠ .lock l mode next) →
      s.asked i = false := by
    rintro p rfl hp
    by_contra hne
    obtain ⟨l, mode, next, htodo, -⟩ := h.asking i (by simpa using hne)
    exact hp l mode next htodo
  cases hs with
  | ask htodo hfalse =>
    refine left_of_one (i := i) id hleft
      (fun j hj => ⟨rfl, by simp [State.ask, hj]⟩) fun b hb => ⟨hb, ?_⟩
    rw [htodo] at hb
    have := hb.1
    simp [State.ask, hfalse]
    omega
  | take htodo htrue _ _ =>
    refine left_of_one (i := i) (fun b => b - 1) hleft
      (fun j hj => by simp [State.take, hj]) fun b hb => ?_
    rw [htodo] at hb
    have := hb.1
    refine ⟨by simpa [State.take] using hb.2, ?_⟩
    simp [State.take, htrue]
    omega
  | giveBack htodo =>
    have hfalse := hasked htodo (by simp)
    refine left_of_one (i := i) (fun b => b - 1) hleft
      (fun j hj => by simp [State.giveBack, hj]) fun b hb => ?_
    rw [htodo] at hb
    have := hb.1
    refine ⟨by simpa [State.giveBack] using hb.2, ?_⟩
    simp [State.giveBack, hfalse]
    omega
  | get htodo =>
    have hfalse := hasked htodo (by simp)
    refine left_of_one (i := i) (fun b => b - 1) hleft
      (fun j hj => by simp [State.goOn, hj]) fun b hb => ?_
    rw [htodo] at hb
    have := hb.1
    refine ⟨by simpa [State.goOn] using hb.2 _, ?_⟩
    simp [State.goOn, hfalse]
    omega
  | set htodo =>
    have hfalse := hasked htodo (by simp)
    refine left_of_one (i := i) (fun b => b - 1) hleft
      (fun j hj => by simp [State.store, hj]) fun b hb => ?_
    rw [htodo] at hb
    have := hb.1
    refine ⟨by simpa [State.store] using hb.2, ?_⟩
    simp [State.store, hfalse]
    omega

theorem Inv.left_run (h : Inv rank s) (hleft : Left s n) {is : List ι}
    (run : Runs.Run Steps s is s') : ∃ m, is.length + m ≤ n ∧ Left s' m := by
  induction run generalizing n with
  | nil => exact ⟨n, by simp, hleft⟩
  | cons hs _ ih =>
    obtain ⟨m, hm, hleft⟩ := h.left_step hleft hs
    obtain ⟨k, hk, hleft⟩ := ih (h.step hs) hleft
    exact ⟨k, by rw [List.length_cons]; omega, hleft⟩

/-- A run can go on until every program is done or one has failed. -/
theorem Inv.finishes (h : Inv rank s) (hrank : ∀ l, rank l < bound) (hleft : Left s n) :
    ∃ is t, Runs.Run Steps s is t ∧
      ((∀ i, ∃ answer, t.todo i = .done answer) ∨ ∃ i, t.todo i = .fail) := by
  induction n using Nat.strong_induction_on generalizing s with
  | _ n ih =>
    rcases h.exists_step hrank with hdone | hfail | ⟨i, s', hs⟩
    · exact ⟨[], s, .nil s, .inl hdone⟩
    · exact ⟨[], s, .nil s, .inr hfail⟩
    · obtain ⟨m, hm, hleft⟩ := h.left_step hleft hs
      obtain ⟨is, t, hrun, hend⟩ := ih m hm (h.step hs) hleft
      exact ⟨i :: is, t, .cons hs hrun, hend⟩

/-- No run of programs that take their locks in one order is longer than twice the steps of the
programs, and each can go on until every program is done or one has failed. -/
theorem finishes_of_run (htwo : ∀ i, TwoPhase rank [] (progs i)) (hrank : ∀ l, rank l < bound)
    {b : ι → ℕ} (hb : ∀ i, (progs i).Within (b i)) {is : List ι}
    (run : Runs.Run Steps (State.start progs data) is s) :
    is.length ≤ 2 * ∑ i, b i ∧ ∃ js t, Runs.Run Steps s js t ∧
      ((∀ i, ∃ answer, t.todo i = .done answer) ∨ ∃ i, t.todo i = .fail) := by
  have hstart := inv_start htwo data
  obtain ⟨m, hm, hleft⟩ := hstart.left_run (left_start hb) run
  have h := run.invariant (fun hs hi => Inv.step hi hs) hstart
  exact ⟨by omega, h.finishes hrank hleft⟩

end

/-! ### The order of the programs -/

section

variable {progs : ι → Prog κ V R} {data data' T : ∀ l, V l} {order : List (ι × R)}

/-- A program runs alone and answers. -/
def Commits (progs : ι → Prog κ V R) (data : ∀ l, V l) (e : ι × R) (data' : ∀ l, V l) : Prop :=
  (progs e.1).exec data = some (e.2, data')

/-- What a program sees of variables: where it is the writer, what they have become. -/
def State.seenBy (s : State ι κ V R) (i : ι) (data : ∀ l, V l) : ∀ l, V l :=
  fun l => if (l, .write) ∈ s.held i then s.data l else data l

/-- The programs in `order` have run one after another and left `S`, which the variables show but
for those that another program has to write. Each other program is where it would be had it begun
there and run alone. -/
structure Serial (progs : ι → Prog κ V R) (data : ∀ l, V l) (s : State ι κ V R)
    (order : List (ι × R)) (S : ∀ l, V l) : Prop where
  run : Runs.Run (Commits progs) data order S
  nodup : (order.map Prod.fst).Nodup
  settled : ∀ e ∈ order, (s.todo e.1).settled = some e.2
  data : ∀ l, (∀ i, (l, .write) ∈ s.held i → i ∈ order.map Prod.fst) → s.data l = S l
  pending : ∀ i, i ∉ order.map Prod.fst → ∀ T : ∀ l, V l, (∀ h ∈ s.held i, T h.1 = S h.1) →
    (progs i).exec T = (s.todo i).exec (s.seenBy i T)

omit [DecidableEq ι] in
theorem serial_start : Serial progs data (State.start progs data) [] data where
  run := .nil _
  nodup := .nil
  settled e he := nomatch he
  data l _ := rfl
  pending i _ T _ := by
    have hseen : (State.start progs data).seenBy i T = T := by
      funext l
      simp [State.seenBy, State.start]
    rw [hseen]
    rfl

namespace Serial

variable {S : ∀ l, V l}

omit [DecidableEq ι] in
/-- A program that has nothing more to read or write comes next in the order. -/
theorem commit (h : Serial progs data s order S) (hi : Inv rank s)
    (hnew : i ∉ order.map Prod.fst) (hsettled : (s.todo i).settled = some answer) :
    Serial progs data s (order ++ [(i, answer)]) (s.seenBy i S) where
  run := by
    refine h.run.snoc ?_
    rw [Commits, h.pending i hnew S fun _ _ => rfl, exec_of_settled hsettled]
  nodup := by
    rw [List.map_append, List.map_cons, List.map_nil]
    refine List.nodup_append.mpr ⟨h.nodup, List.nodup_singleton _, ?_⟩
    rintro a ha b hb rfl
    rw [List.mem_singleton.mp hb] at ha
    exact hnew ha
  settled e he := by
    rcases List.mem_append.mp he with he | he
    · exact h.settled e he
    · rw [List.mem_singleton.mp he]
      exact hsettled
  data l hwriters := by
    rw [State.seenBy]
    split
    · rfl
    · rename_i hl
      refine h.data l fun j hj => ?_
      have hmem := hwriters j hj
      rw [List.map_append, List.mem_append, List.map_cons, List.map_nil,
        List.mem_singleton] at hmem
      refine hmem.resolve_right fun hji => hl ?_
      rwa [hji] at hj
  pending j hj T hT := by
    rw [List.map_append, List.mem_append, not_or, List.map_cons, List.map_nil,
      List.mem_singleton] at hj
    refine h.pending j hj.1 T fun held hheld => ?_
    rw [hT held hheld, State.seenBy, if_neg]
    exact fun hw => hj.2 (hi.exclusive i j held.1 held.2 hw hheld).symm

omit [DecidableEq ι] in
theorem not_mem (h : Serial progs data s order S) (hi : (s.todo i).settled = none) :
    i ∉ order.map Prod.fst := by
  intro hmem
  obtain ⟨e, he, rfl⟩ := List.mem_map.mp hmem
  rw [h.settled e he] at hi
  cases hi

/-- A step of a program that is not in the order, after which it is where it would be alone. -/
theorem go (h : Serial progs data s order S) (hnew : i ∉ order.map Prod.fst)
    (htodo : ∀ j, j ≠ i → s'.todo j = s.todo j) (hheld : ∀ j, j ≠ i → s'.held j = s.held j)
    (hkeeps : ∀ held ∈ s.held i, held ∈ s'.held i)
    (hdata : ∀ l, (l, .write) ∉ s'.held i → s'.data l = s.data l)
    (hsame : ∀ j, j ≠ i → ∀ l, (l, .write) ∈ s.held j → s'.data l = s.data l)
    (hexec : ∀ T : ∀ l, V l, (∀ h ∈ s'.held i, T h.1 = S h.1) →
      (s.todo i).exec (s.seenBy i T) = (s'.todo i).exec (s'.seenBy i T)) :
    Serial progs data s' order S where
  run := h.run
  nodup := h.nodup
  settled e he := by
    rw [htodo e.1 fun hei => hnew (hei ▸ List.mem_map_of_mem he)]
    exact h.settled e he
  data l hwriters := by
    rw [hdata l fun hl => hnew (hwriters i hl)]
    refine h.data l fun j hj => hwriters j ?_
    by_cases hji : j = i
    · subst hji
      exact hkeeps _ hj
    · rwa [hheld j hji]
  pending j hj T hT := by
    by_cases hji : j = i
    · subst hji
      rw [h.pending j hj T fun held hh => hT held (hkeeps held hh)]
      exact hexec T hT
    · have hseen : s'.seenBy j T = s.seenBy j T := by
        funext l
        rw [State.seenBy, State.seenBy, hheld j hji]
        split
        · rename_i hl
          exact hsame j hji l hl
        · rfl
      rw [htodo j hji, hseen]
      exact h.pending j hj T (by rwa [← hheld j hji])

theorem take (h : Serial progs data s order S) {waiting : List (ι × Mode)}
    (htodo : s.todo i = .lock l mode next)
    (hfree : ∀ j, ∀ h ∈ s.held j, h.1 = l → Compatible mode h.2) :
    Serial progs data (s.take i l mode next waiting) order S := by
  have hnew := h.not_mem (i := i) (by simp [htodo, Prog.settled])
  refine h.go hnew (fun j hj => by simp [State.take, hj]) (fun j hj => by simp [State.take, hj])
    (fun held hheld => by simp [State.take, hheld]) (fun _ _ => rfl) (fun _ _ _ _ => rfl) ?_
  intro T hT
  have hseen : (s.take i l mode next waiting).seenBy i T = s.seenBy i T := by
    funext l'
    simp only [State.seenBy, State.take, Function.update_self, List.mem_cons, Prod.mk.injEq]
    by_cases hl : l' = l ∧ .write = mode
    · -- nobody has held the lock that is written under from now on
      obtain ⟨rfl, rfl⟩ := hl
      have hnobody : ∀ j, (l', .write) ∉ s.held j := fun j hj =>
        absurd (hfree j _ hj rfl).2 (by simp)
      rw [if_pos (.inl ⟨rfl, rfl⟩), if_neg (hnobody i),
        h.data l' fun j hj => absurd hj (hnobody j)]
      exact (hT (l', .write) (by simp [State.take])).symm
    · simp [hl]
  rw [hseen, htodo]
  simp [State.take, exec]

theorem get (h : Serial progs data s order S) (hi : Inv rank s) {next : V l → Prog κ V R}
    (htodo : s.todo i = .get l next) : Serial progs data (s.goOn i (next (s.data l))) order S := by
  have hnew := h.not_mem (i := i) (by simp [htodo, Prog.settled])
  refine h.go hnew (fun j hj => by simp [State.goOn, hj]) (fun _ _ => rfl) (fun _ hheld => hheld)
    (fun _ _ => rfl) (fun _ _ _ _ => rfl) ?_
  intro T hT
  have htwo := hi.twoPhase i
  rw [htodo] at htwo
  obtain ⟨mode, hmode⟩ := htwo.1
  have hvalue : s.seenBy i T l = s.data l := by
    rw [State.seenBy]
    split
    · rfl
    · rename_i hl
      -- who reads a variable shares it with no writer
      rw [h.data l fun j hj => absurd (hi.exclusive j i l mode hj hmode ▸ hj) hl]
      exact hT _ hmode
  have hseen : (s.goOn i (next (s.data l))).seenBy i T = s.seenBy i T := rfl
  rw [htodo, hseen, exec, hvalue]
  simp [State.goOn]

theorem set (h : Serial progs data s order S) (hi : Inv rank s) {value : V l}
    (htodo : s.todo i = .set l value next) :
    Serial progs data (s.store i l value next) order S := by
  have hnew := h.not_mem (i := i) (by simp [htodo, Prog.settled])
  have htwo := hi.twoPhase i
  rw [htodo] at htwo
  refine h.go hnew (fun j hj => by simp [State.store, hj]) (fun _ _ => rfl) (fun _ hheld => hheld)
    (fun l' hl => ?_) (fun j hj l' hl => ?_) fun T hT => ?_
  · refine Function.update_of_ne ?_ _ _
    rintro rfl
    exact hl htwo.1
  · refine Function.update_of_ne ?_ _ _
    rintro rfl
    exact hj (hi.exclusive j i l' .write hl htwo.1)
  · have hseen : (s.store i l value next).seenBy i T =
        Function.update (s.seenBy i T) l value := by
      funext l'
      by_cases hl : l' = l
      · subst hl
        simp [State.seenBy, State.store, htwo.1]
      · simp [State.seenBy, State.store, hl]
    rw [htodo, hseen, exec]
    simp [State.store]

/-- A program of the order gives a lock back. -/
theorem giveBack (h : Serial progs data s order S) (hold : i ∈ order.map Prod.fst)
    (htodo : s.todo i = .unlock l next) :
    Serial progs data (s.giveBack i l next) order S where
  run := h.run
  nodup := h.nodup
  settled e he := by
    have hsettled := h.settled e he
    by_cases hei : e.1 = i
    · rw [hei, htodo] at hsettled
      rw [hei]
      simpa [State.giveBack, Prog.settled] using hsettled
    · simpa [State.giveBack, hei] using hsettled
  data l' hwriters := by
    refine h.data l' fun j hj => ?_
    by_cases hji : j = i
    · rwa [hji]
    · exact hwriters j (by simpa [State.giveBack, hji] using hj)
  pending j hj T hT := by
    have hji : j ≠ i := fun hji => hj (hji ▸ hold)
    have hheld : (s.giveBack i l next).held j = s.held j := by simp [State.giveBack, hji]
    have hseen : (s.giveBack i l next).seenBy j T = s.seenBy j T := by
      funext l'
      simp only [State.seenBy, hheld]
      rfl
    rw [hseen, show (s.giveBack i l next).todo j = s.todo j by simp [State.giveBack, hji]]
    exact h.pending j hj T (hheld ▸ hT)

/-- A step adds at most one program to the order. -/
theorem step (h : Serial progs data s order S) (hi : Inv rank s) (hs : Steps s i s') :
    ∃ later S', Serial progs data s' (order ++ later) S' := by
  cases hs with
  | ask =>
    exact ⟨[], S, by rw [List.append_nil]; exact ⟨h.run, h.nodup, h.settled, h.data, h.pending⟩⟩
  | take htodo _ _ hfree => exact ⟨[], S, by rw [List.append_nil]; exact h.take htodo hfree⟩
  | get htodo => exact ⟨[], S, by rw [List.append_nil]; exact h.get hi htodo⟩
  | set htodo => exact ⟨[], S, by rw [List.append_nil]; exact h.set hi htodo⟩
  | giveBack htodo =>
    by_cases hold : i ∈ order.map Prod.fst
    · exact ⟨[], S, by rw [List.append_nil]; exact h.giveBack hold htodo⟩
    · have htwo := hi.twoPhase i
      rw [htodo] at htwo
      obtain ⟨answer, hsettled⟩ := exists_settled_of_closing htwo
      refine ⟨[(i, answer)], _, (h.commit hi hold (htodo ▸ hsettled)).giveBack ?_ htodo⟩
      simp

theorem of_run (h : Serial progs data s order S) (hi : Inv rank s) {is : List ι}
    (run : Runs.Run Steps s is t) : ∃ later S', Serial progs data t (order ++ later) S' := by
  induction run generalizing order S with
  | nil => exact ⟨[], S, by rwa [List.append_nil]⟩
  | cons hs _ ih =>
    obtain ⟨new, S', h'⟩ := h.step hi hs
    obtain ⟨later, S'', h''⟩ := ih h' (hi.step hs)
    exact ⟨new ++ later, S'', by rwa [List.append_assoc] at h''⟩

/-- Programs that have nothing more to read or write can be added to the order. -/
theorem commit_all (h : Serial progs data s order S) (hi : Inv rank s) (A : Finset ι) :
    ∃ later S', Serial progs data s (order ++ later) S' ∧
      ∀ i ∈ A, ∀ answer, (s.todo i).settled = some answer → (i, answer) ∈ order ++ later := by
  induction A using Finset.induction_on with
  | empty => exact ⟨[], S, by rwa [List.append_nil], by simp⟩
  | insert i A _ ih =>
    obtain ⟨later, S', h', hall⟩ := ih
    by_cases hold : i ∈ (order ++ later).map Prod.fst
    · refine ⟨later, S', h', fun j hj answer hsettled => ?_⟩
      rcases Finset.mem_insert.mp hj with rfl | hj
      · obtain ⟨⟨_, answer'⟩, he, rfl⟩ := List.mem_map.mp hold
        rw [h'.settled _ he] at hsettled
        cases hsettled
        exact he
      · exact hall j hj answer hsettled
    · cases hi' : (s.todo i).settled with
      | none =>
        refine ⟨later, S', h', fun j hj answer hsettled => ?_⟩
        rcases Finset.mem_insert.mp hj with rfl | hj
        · rw [hi'] at hsettled
          cases hsettled
        · exact hall j hj answer hsettled
      | some answer =>
        have h'' := h'.commit hi hold hi'
        rw [List.append_assoc] at h''
        refine ⟨_, _, h'', fun j hj answer' hsettled => ?_⟩
        rw [← List.append_assoc]
        rcases Finset.mem_insert.mp hj with rfl | hj
        · rw [hi'] at hsettled
          cases hsettled
          simp
        · exact List.mem_append_left _ (hall j hj answer' hsettled)

end Serial

/-- The variables in a state of an interleaving that no writer holds, and the answers given, are
those of programs that have run one after another: those that were done or giving locks back in an
earlier state come first. -/
theorem serial_of_run [Fintype ι] (htwo : ∀ i, TwoPhase rank [] (progs i)) {is js : List ι}
    (run : Runs.Run Steps (State.start progs data) is s) (run' : Runs.Run Steps s js t) :
    ∃ order later S S', Serial progs data s order S ∧ Serial progs data t (order ++ later) S' ∧
      (∀ i answer, (i, answer) ∈ order ↔ (s.todo i).settled = some answer) ∧
      ∀ i answer, (i, answer) ∈ order ++ later ↔ (t.todo i).settled = some answer := by
  have hi := run.invariant (fun hs hi => Inv.step hi hs) (inv_start htwo data)
  have hi' := run'.invariant (fun hs hi => Inv.step hi hs) hi
  obtain ⟨new, S₁, h₁⟩ := serial_start.of_run (inv_start htwo data) run
  obtain ⟨more, S, h, hall⟩ := h₁.commit_all hi Finset.univ
  obtain ⟨later, S₂, h₂⟩ := h.of_run hi run'
  obtain ⟨rest, S', h', hall'⟩ := h₂.commit_all hi' Finset.univ
  rw [List.append_assoc] at h' hall'
  exact ⟨_, later ++ rest, S, S', h, h',
    fun i answer => ⟨h.settled (i, answer), hall i (Finset.mem_univ i) answer⟩,
    fun i answer => ⟨h'.settled (i, answer), hall' i (Finset.mem_univ i) answer⟩⟩

end

end Locks
