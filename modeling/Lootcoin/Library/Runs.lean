import Mathlib.Logic.Function.Basic
import Mathlib.Tactic.TypeStar

/-! Labelled transition systems: the runs of a step relation, the rule that carries an invariant
from one step to a run, the interleavings of systems side by side, and computations that may fail
and change the state only by steps. -/

namespace Runs

variable {σ ι : Type*}

/-- A run takes the steps labelled by a list, in order. -/
inductive Run (step : σ → ι → σ → Prop) : σ → List ι → σ → Prop
  | nil (s : σ) : Run step s [] s
  | cons {s s' s'' : σ} {i : ι} {is : List ι} :
      step s i s' → Run step s' is s'' → Run step s (i :: is) s''

variable {step step' : σ → ι → σ → Prop}

/-- What every step with a label of a run preserves, the run preserves. -/
theorem Run.invariant_mem {P : σ → Prop} {s s' : σ} {is : List ι} (run : Run step s is s')
    (hstep : ∀ {s i s'}, i ∈ is → step s i s' → P s → P s') (hs : P s) : P s' := by
  induction run with
  | nil => exact hs
  | cons h _ ih =>
    exact ih (fun hi => hstep (List.mem_cons_of_mem _ hi)) (hstep List.mem_cons_self h hs)

/-- What every step preserves, every run preserves. -/
theorem Run.invariant {P : σ → Prop} {s s' : σ} {is : List ι} (run : Run step s is s')
    (hstep : ∀ {s i s'}, step s i s' → P s → P s') (hs : P s) : P s' :=
  run.invariant_mem (fun _ => hstep) hs

theorem Run.snoc {s s' s'' : σ} {i : ι} {is : List ι} (run : Run step s is s')
    (h : step s' i s'') : Run step s (is ++ [i]) s'' := by
  induction run with
  | nil => exact .cons h (.nil _)
  | cons h' _ ih => exact .cons h' (ih h)

theorem Run.append {s s' s'' : σ} {is js : List ι} (run : Run step s is s')
    (run' : Run step s' js s'') : Run step s (is ++ js) s'' := by
  induction run with
  | nil => exact run'
  | cons h _ ih => exact .cons h (ih run')

/-- A run over two lists passes through a state between them. -/
theorem Run.split {s s' : σ} {is js : List ι} (run : Run step s (is ++ js) s') :
    ∃ t, Run step s is t ∧ Run step t js s' := by
  induction is generalizing s with
  | nil => exact ⟨s, .nil _, run⟩
  | cons i is ih =>
    cases run with
    | cons h run =>
      obtain ⟨t, hfirst, hrest⟩ := ih run
      exact ⟨t, .cons h hfirst, hrest⟩

/-- Two step relations that agree from every state of an invariant of the first have the same runs
from there. -/
theorem Run.iff_of_invariant {I : σ → Prop} {s s' : σ} {is : List ι}
    (hiff : ∀ {s i s'}, i ∈ is → I s → (step s i s' ↔ step' s i s'))
    (hinv : ∀ {s i s'}, i ∈ is → I s → step s i s' → I s') (hs : I s) :
    Run step s is s' ↔ Run step' s is s' := by
  induction is generalizing s with
  | nil =>
    constructor
    · rintro ⟨⟩
      exact .nil _
    · rintro ⟨⟩
      exact .nil _
  | cons i is ih =>
    have hlater : ∀ {t}, I t → (Run step t is s' ↔ Run step' t is s') := fun ht =>
      ih (fun hi => hiff (List.mem_cons_of_mem _ hi))
        (fun hi => hinv (List.mem_cons_of_mem _ hi)) ht
    constructor
    · rintro (_ | ⟨h, run⟩)
      exact .cons ((hiff List.mem_cons_self hs).mp h)
        ((hlater (hinv List.mem_cons_self hs h)).mp run)
    · rintro (_ | ⟨h, run⟩)
      have h' := (hiff List.mem_cons_self hs).mpr h
      exact .cons h' ((hlater (hinv List.mem_cons_self hs h')).mpr run)

/-- Where every step is determined by its label, so is a run by its labels. -/
theorem Run.unique {s t t' : σ} {is : List ι} (run : Run step s is t) (run' : Run step s is t')
    (h : ∀ {s i t t'}, step s i t → step s i t' → t = t') : t = t' := by
  induction run with
  | nil =>
    cases run'
    rfl
  | cons hs _ ih =>
    cases run' with
    | cons hs' run' => exact ih (h hs hs' ▸ run')

/-- Labels whose steps change nothing can be left out of a run. -/
theorem Run.filter {keep : ι → Bool} {s s' : σ} {is : List ι} (run : Run step s is s')
    (hskip : ∀ {s i s'}, keep i = false → step s i s' → s' = s) :
    Run step s (is.filter keep) s' := by
  induction run with
  | nil => exact .nil _
  | @cons s _ _ i _ h _ ih =>
    cases hk : keep i with
    | true =>
      rw [List.filter_cons_of_pos hk]
      exact .cons h ih
    | false =>
      rw [List.filter_cons_of_neg (by simp [hk])]
      exact hskip hk h ▸ ih

/-- Where every step is computed, a fold is the run. -/
theorem run_foldl (next : σ → ι → σ) (s : σ) (is : List ι) :
    Run (fun s i s' => s' = next s i) s is (is.foldl next s) := by
  induction is generalizing s with
  | nil => exact .nil _
  | cons i is ih => exact .cons rfl (ih (next s i))

/-- A fold of computed steps is a run. -/
theorem run_of_foldlM {next : σ → ι → Option σ} {s s' : σ} {is : List ι}
    (hnext : ∀ {s i s'}, next s i = some s' → step s i s') (h : is.foldlM next s = some s') :
    Run step s is s' := by
  induction is generalizing s with
  | nil =>
    cases h
    exact .nil _
  | cons i is ih =>
    obtain ⟨t, ht, h⟩ := Option.bind_eq_some_iff.mp h
    exact .cons (hnext ht) (ih h)

theorem Run.mono (h : ∀ {s i s'}, step s i s' → step' s i s') {s s' : σ} {is : List ι}
    (run : Run step s is s') : Run step' s is s' := by
  induction run with
  | nil => exact .nil _
  | cons hs _ ih => exact .cons (h hs) ih

/-- Where another system follows every step of a run, it follows the run. -/
theorem Run.simulate {τ κ : Type*} {next : τ → κ → τ → Prop} {R : σ → τ → Prop} {f : ι → List κ}
    {s s' : σ} {t : τ} {is : List ι} (run : Run step s is s')
    (hsim : ∀ {s i s' t}, i ∈ is → step s i s' → R s t → ∃ t', Run next t (f i) t' ∧ R s' t')
    (ht : R s t) : ∃ t', Run next t (is.flatMap f) t' ∧ R s' t' := by
  induction run generalizing t with
  | nil => exact ⟨t, .nil _, ht⟩
  | cons h _ ih =>
    obtain ⟨u, hfirst, hu⟩ := hsim List.mem_cons_self h ht
    obtain ⟨t', hrest, ht'⟩ := ih (fun hi => hsim (List.mem_cons_of_mem _ hi)) hu
    exact ⟨t', hfirst.append hrest, ht'⟩

/-! ### Interleavings -/

/-- One of the systems side by side takes a step and the others stay as they are. -/
def Interleaves {κ : Type*} (step : σ → ι → σ → Prop) (s : κ → σ) (e : κ × ι) (s' : κ → σ) : Prop :=
  step (s e.1) e.2 (s' e.1) ∧ ∀ k, k ≠ e.1 → s' k = s k

/-- In an interleaved run, each system takes a run of its own. -/
theorem Run.component {κ : Type*} {s s' : κ → σ} {es : List (κ × ι)}
    (run : Run (Interleaves step) s es s') (k : κ) : ∃ is, Run step (s k) is (s' k) := by
  induction run with
  | nil s => exact ⟨[], .nil _⟩
  | @cons s _ _ e _ h _ ih =>
    obtain ⟨is, hrun⟩ := ih
    by_cases hk : k = e.1
    · subst hk
      exact ⟨e.2 :: is, .cons h.1 hrun⟩
    · rw [h.2 k hk] at hrun
      exact ⟨is, hrun⟩

/-- The run of one system, while the others wait. -/
theorem Run.lift {κ : Type*} [DecidableEq κ] {s : κ → σ} {k : κ} {t t' : σ} {is : List ι}
    (run : Run step t is t') (hs : s k = t) :
    Run (Interleaves step) s (is.map fun i => (k, i)) (Function.update s k t') := by
  induction run generalizing s with
  | nil t =>
    rw [← hs, Function.update_eq_self]
    exact .nil _
  | @cons t u _ _ _ h _ ih =>
    have hrest := ih (s := Function.update s k u) (Function.update_self k u s)
    rw [Function.update_idem] at hrest
    refine .cons ⟨?_, fun j hj => Function.update_of_ne hj u s⟩ hrest
    show step (s k) _ (Function.update s k u k)
    rwa [hs, Function.update_self]

/-! ### Computations that take steps -/

section Computations

universe u v

variable {ε : Type u} {α β : Type v} {fails : σ → ι → ε → Prop} {offered : ι → Prop}

/-- A computation takes a state by steps with offered labels to the one that its value shows, or to
one where an offered label fails as it does. -/
def Takes (step : σ → ι → σ → Prop) (fails : σ → ι → ε → Prop) (offered : ι → Prop) (out : α → σ)
    (s : σ) : Except ε α → Prop
  | .ok a => ∃ is, Run step s is (out a) ∧ ∀ i ∈ is, offered i
  | .error e => ∃ is t i, Run step s is t ∧ (∀ j ∈ is, offered j) ∧ offered i ∧ fails t i e

theorem Takes.here {out : α → σ} (a : α) : Takes step fails offered out (out a) (.ok a) :=
  ⟨[], .nil _, by simp⟩

/-- What takes a state on after offered steps, takes it on before them. -/
theorem Takes.of_run {out : α → σ} {s t : σ} {is : List ι} {x : Except ε α}
    (h : Takes step fails offered out t x) (run : Run step s is t) (his : ∀ i ∈ is, offered i) :
    Takes step fails offered out s x := by
  cases x with
  | ok a =>
    obtain ⟨js, hrest, hjs⟩ := h
    exact ⟨is ++ js, run.append hrest, List.forall_mem_append.mpr ⟨his, hjs⟩⟩
  | error e =>
    obtain ⟨js, u, i, hrest, hjs, hi, hfails⟩ := h
    exact ⟨is ++ js, u, i, run.append hrest, List.forall_mem_append.mpr ⟨his, hjs⟩, hi, hfails⟩

theorem Takes.bind {out : α → σ} {out' : β → σ} {s : σ} {x : Except ε α} {f : α → Except ε β}
    (hx : Takes step fails offered out s x)
    (hf : ∀ a, x = .ok a → Takes step fails offered out' (out a) (f a)) :
    Takes step fails offered out' s (x >>= f) := by
  cases x with
  | ok a =>
    obtain ⟨is, run, his⟩ := hx
    exact (hf a rfl).of_run run his
  | error e => exact hx

theorem Takes.mono {out : α → σ} {offered' : ι → Prop} {s : σ} {x : Except ε α}
    (hx : Takes step fails offered out s x) (h : ∀ i, offered i → offered' i) :
    Takes step fails offered' out s x := by
  cases x with
  | ok a =>
    obtain ⟨is, run, his⟩ := hx
    exact ⟨is, run, fun i hi => h i (his i hi)⟩
  | error e =>
    obtain ⟨is, t, i, run, his, hi, hfails⟩ := hx
    exact ⟨is, t, i, run, fun j hj => h j (his j hj), h i hi, hfails⟩

end Computations

end Runs
