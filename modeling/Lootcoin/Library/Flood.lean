import Mathlib.Data.Finset.Basic
import Mathlib.Logic.Relation
import Lootcoin.Library.Runs

/-! Flooding.  Every party keeps a log of what it knows, without repetitions, and along every edge
of a graph one party reads the log of another in order.  What it reads and does not know goes to the
end of its own log.  Whatever the order of the steps, the logs hold what can reach them and no more,
and when all has been read they hold all of it. -/

namespace Flood

variable {ι α : Type*} [DecidableEq ι] [DecidableEq α]

/-- The log of each party, and how much of the log of one party another has read. -/
structure State (ι α : Type*) where
  log : ι → List α
  read : ι → ι → ℕ

/-- Something originates at a party, or `q` reads it in the log of `p`. -/
inductive Event (ι α : Type*)
  | originate (i : ι) (a : α)
  | read (p q : ι) (a : α)

namespace State

/-- Nobody knows anything. -/
def start : State ι α := ⟨fun _ => [], fun _ _ => 0⟩

/-- A party comes to know something. -/
def learn (s : State ι α) (i : ι) (a : α) : State ι α :=
  if a ∈ s.log i then s else { s with log := Function.update s.log i (s.log i ++ [a]) }

/-- One more entry of the log of `p` is read by `q`. -/
def advance (s : State ι α) (p q : ι) : State ι α :=
  { s with read := fun p' q' => if p' = p ∧ q' = q then s.read p' q' + 1 else s.read p' q' }

end State

/-- Something originates at a party, or one reads the next entry of another's log and learns it. -/
inductive Steps (edges : Finset (ι × ι)) : State ι α → Event ι α → State ι α → Prop
  | originate (s : State ι α) (i : ι) (a : α) : Steps edges s (.originate i a) (s.learn i a)
  | read {s : State ι α} {p q : ι} {a : α} (hedge : (p, q) ∈ edges)
      (ha : (s.log p)[s.read p q]? = some a) :
      Steps edges s (.read p q a) ((s.advance p q).learn q a)

variable {edges : Finset (ι × ι)} {s s' : State ι α} {e : Event ι α} {es : List (Event ι α)}
  {i j p q : ι} {a x : α}

/-! ### What a party learns -/

@[simp] theorem read_learn : (s.learn i a).read = s.read := by
  unfold State.learn
  split <;> rfl

omit [DecidableEq α] in
@[simp] theorem log_advance : (s.advance p q).log = s.log := rfl

omit [DecidableEq α] in
theorem read_advance (s : State ι α) (p q p' q' : ι) : (s.advance p q).read p' q' =
    if p' = p ∧ q' = q then s.read p' q' + 1 else s.read p' q' := rfl

theorem learn_of_mem (h : a ∈ s.log i) : s.learn i a = s := by
  rw [State.learn, if_pos h]

theorem log_learn_of_not_mem (h : a ∉ s.log i) :
    (s.learn i a).log = Function.update s.log i (s.log i ++ [a]) := by
  rw [State.learn, if_neg h]

/-- A log only grows at its end. -/
theorem log_prefix_learn : s.log j <+: (s.learn i a).log j := by
  by_cases h : a ∈ s.log i
  · rw [learn_of_mem h]
  · rw [log_learn_of_not_mem h]
    by_cases hj : j = i
    · rw [hj, Function.update_self]
      exact List.prefix_append _ _
    · rw [Function.update_of_ne hj]

theorem mem_log_learn : x ∈ (s.learn i a).log j ↔ x ∈ s.log j ∨ (j = i ∧ x = a) := by
  by_cases h : a ∈ s.log i
  · rw [learn_of_mem h]
    constructor
    · exact .inl
    · rintro (hx | ⟨rfl, rfl⟩)
      · exact hx
      · exact h
  · rw [log_learn_of_not_mem h]
    by_cases hj : j = i
    · simp [hj]
    · simp [hj]

/-! ### The invariant -/

/-- No log repeats an entry, and what a party has read it knows. -/
structure Sound (edges : Finset (ι × ι)) (s : State ι α) : Prop where
  nodup : ∀ i, (s.log i).Nodup
  read : ∀ p q, s.read p q ≤ (s.log p).length
  passed : ∀ p q, (p, q) ∈ edges → (s.log p).take (s.read p q) ⊆ s.log q

omit [DecidableEq ι] [DecidableEq α] in
theorem sound_start : Sound edges (State.start : State ι α) :=
  ⟨fun _ => List.nodup_nil, fun _ _ => Nat.le_refl _, fun _ _ _ => List.nil_subset _⟩

theorem Sound.learn (hs : Sound edges s) (i : ι) (a : α) : Sound edges (s.learn i a) where
  nodup j := by
    by_cases h : a ∈ s.log i
    · rw [learn_of_mem h]
      exact hs.nodup j
    · rw [log_learn_of_not_mem h]
      by_cases hj : j = i
      · rw [hj, Function.update_self]
        exact List.nodup_append.mpr ⟨hs.nodup i, List.nodup_singleton a, by
          rintro x hx y hy rfl
          exact h (List.mem_singleton.mp hy ▸ hx)⟩
      · rw [Function.update_of_ne hj]
        exact hs.nodup j
  read p q := by
    rw [read_learn]
    exact (hs.read p q).trans log_prefix_learn.length_le
  passed p q hedge := by
    have htake : ((s.learn i a).log p).take (s.read p q) = (s.log p).take (s.read p q) := by
      obtain ⟨rest, hrest⟩ := log_prefix_learn (s := s) (i := i) (a := a) (j := p)
      rw [← hrest, List.take_append_of_le_length (hs.read p q)]
    rw [read_learn, htake]
    exact List.Subset.trans (hs.passed p q hedge) log_prefix_learn.subset

omit [DecidableEq α] in
/-- A party that has read one more entry, and has learned it, knows what it has read. -/
theorem Sound.advance (hs : Sound edges s) (ha : (s.log p)[s.read p q]? = some a)
    (hknown : a ∈ s.log q) : Sound edges (s.advance p q) where
  nodup := hs.nodup
  read p' q' := by
    show (if p' = p ∧ q' = q then s.read p' q' + 1 else s.read p' q') ≤ (s.log p').length
    split
    · rename_i h
      obtain ⟨rfl, rfl⟩ := h
      exact (List.getElem?_eq_some_iff.mp ha).1
    · exact hs.read p' q'
  passed p' q' hedge := by
    show (s.log p').take (if p' = p ∧ q' = q then s.read p' q' + 1 else s.read p' q') ⊆ s.log q'
    split
    · rename_i h
      obtain ⟨rfl, rfl⟩ := h
      rw [List.take_add_one, ha, Option.toList_some]
      exact List.append_subset.mpr ⟨hs.passed p' q' hedge, by simpa using hknown⟩
    · exact hs.passed p' q' hedge

theorem advance_learn : (s.advance p q).learn i a = (s.learn i a).advance p q := by
  by_cases h : a ∈ s.log i
  · rw [learn_of_mem h, learn_of_mem (s := s.advance p q) h]
  · rw [State.learn, State.learn, if_neg h, if_neg (show a ∉ (s.advance p q).log i from h)]
    rfl

theorem Steps.sound (h : Steps edges s e s') (hs : Sound edges s) : Sound edges s' := by
  cases h with
  | originate i a => exact hs.learn i a
  | @read p q a hedge ha =>
    rw [advance_learn]
    refine (hs.learn q a).advance (a := a) ?_ (mem_log_learn.mpr (.inr ⟨rfl, rfl⟩))
    obtain ⟨rest, hrest⟩ := log_prefix_learn (s := s) (i := q) (a := a) (j := p)
    rw [read_learn, ← hrest, List.getElem?_append_left (List.getElem?_eq_some_iff.mp ha).1, ha]

theorem sound_of_run (run : Runs.Run (Steps edges) .start es s) : Sound edges s :=
  run.invariant Steps.sound sound_start

/-! ### What the logs hold -/

/-- One party reads, directly or through others, what another logs. -/
def Reaches (edges : Finset (ι × ι)) : ι → ι → Prop :=
  Relation.ReflTransGen fun p q => (p, q) ∈ edges

/-- All that was logged has been read. -/
def Quiet (edges : Finset (ι × ι)) (s : State ι α) : Prop :=
  ∀ p q, (p, q) ∈ edges → s.read p q = (s.log p).length

/-- Nothing is known that did not originate where it can come from. -/
theorem originated_of_mem_log (run : Runs.Run (Steps edges) .start es s) :
    ∀ j, ∀ x ∈ s.log j, ∃ i, Event.originate i x ∈ es ∧ Reaches edges i j := by
  refine run.invariant_mem
    (P := fun s => ∀ j, ∀ x ∈ s.log j, ∃ i, Event.originate i x ∈ es ∧ Reaches edges i j) ?_
    (fun _ _ => nofun)
  intro s e s' he h hs j x hx
  cases h with
  | originate i a =>
    rcases mem_log_learn.mp hx with hx | ⟨rfl, rfl⟩
    · exact hs j x hx
    · exact ⟨j, he, .refl⟩
  | @read p q a hedge ha =>
    rcases mem_log_learn.mp hx with hx | ⟨rfl, rfl⟩
    · exact hs j x hx
    · obtain ⟨i, hi, hreach⟩ := hs p x (List.mem_of_getElem? ha)
      exact ⟨i, hi, hreach.tail hedge⟩

theorem Steps.log_prefix (h : Steps edges s e s') : s.log i <+: s'.log i := by
  cases h with
  | originate => exact log_prefix_learn
  | read => exact log_prefix_learn (s := s.advance _ _)

/-- What originates stays known. -/
theorem mem_log_of_originated (run : Runs.Run (Steps edges) s es s')
    (h : Event.originate i x ∈ es) : x ∈ s'.log i := by
  induction run with
  | nil => cases h
  | @cons s t s' e es hstep hrun ih =>
    rcases List.mem_cons.mp h with rfl | h
    · cases hstep
      have hgrows := hrun.invariant (P := fun u => (s.learn i x).log i <+: u.log i)
        (fun hu hprefix => hprefix.trans hu.log_prefix) (List.prefix_refl _)
      exact hgrows.subset (mem_log_learn.mpr (.inr ⟨rfl, rfl⟩))
    · exact ih h

omit [DecidableEq ι] [DecidableEq α] in
/-- When all has been read, what one party knows, those that it reaches know. -/
theorem Sound.log_subset (hs : Sound edges s) (hquiet : Quiet edges s) (h : Reaches edges i j) :
    s.log i ⊆ s.log j := by
  induction h with
  | refl => exact List.Subset.refl _
  | @tail p q _ hedge ih =>
    have hread := hs.passed p q hedge
    rw [hquiet p q hedge, List.take_length] at hread
    exact List.Subset.trans ih hread

/-- When all has been read, a party knows exactly what originated where it can come from. -/
theorem mem_log_iff (run : Runs.Run (Steps edges) .start es s) (hquiet : Quiet edges s) :
    x ∈ s.log j ↔ ∃ i, Event.originate i x ∈ es ∧ Reaches edges i j := by
  constructor
  · exact originated_of_mem_log run j x
  · rintro ⟨i, hi, hreach⟩
    exact (sound_of_run run).log_subset hquiet hreach (mem_log_of_originated run hi)

/-! ### What is read along an edge -/

/-- What one party has read of the log of another. -/
def State.readAlong (s : State ι α) (p q : ι) : List α := (s.log p).take (s.read p q)

/-- What an event reads along an edge. -/
def Event.readAlong (p q : ι) : Event ι α → Option α
  | .originate _ _ => none
  | .read p' q' a => if p' = p ∧ q' = q then some a else none

theorem readAlong_learn (hs : Sound edges s) : (s.learn i a).readAlong p q = s.readAlong p q := by
  obtain ⟨rest, hrest⟩ := log_prefix_learn (s := s) (i := i) (a := a) (j := p)
  rw [State.readAlong, read_learn, ← hrest, List.take_append_of_le_length (hs.read p q),
    State.readAlong]

/-- A step adds to what was read along an edge what it reads there. -/
theorem Steps.readAlong (h : Steps edges s e s') (hs : Sound edges s) :
    s'.readAlong p q = s.readAlong p q ++ (e.readAlong p q).toList := by
  cases h with
  | originate i a => rw [readAlong_learn hs, Event.readAlong, Option.toList_none, List.append_nil]
  | @read p' q' a hedge ha =>
    have hadvanced : ((s.learn q' a).advance p' q').readAlong p q =
        if p' = p ∧ q' = q then s.readAlong p q ++ [a] else s.readAlong p q := by
      rw [State.readAlong, read_advance, log_advance, read_learn]
      by_cases heq : p' = p ∧ q' = q
      · obtain ⟨rfl, rfl⟩ := heq
        have hlearned : ((s.learn q' a).log p')[s.read p' q']? = some a := by
          obtain ⟨rest, hrest⟩ := log_prefix_learn (s := s) (i := q') (a := a) (j := p')
          rw [← hrest, List.getElem?_append_left (List.getElem?_eq_some_iff.mp ha).1, ha]
        have hbefore := readAlong_learn (p := p') (q := q') (i := q') (a := a) hs
        rw [State.readAlong, read_learn] at hbefore
        rw [if_pos ⟨rfl, rfl⟩, if_pos ⟨rfl, rfl⟩, List.take_add_one, hbefore, hlearned,
          Option.toList_some]
      · have hbefore := readAlong_learn (p := p) (q := q) (i := q') (a := a) hs
        rw [State.readAlong, read_learn] at hbefore
        rw [if_neg fun heq' => heq ⟨heq'.1.symm, heq'.2.symm⟩, if_neg heq, hbefore]
    rw [advance_learn, hadvanced, Event.readAlong]
    split
    · rfl
    · exact (List.append_nil _).symm

/-- What a run reads along an edge is what has been read of the log in its last state, in order. -/
theorem filterMap_readAlong (run : Runs.Run (Steps edges) s es s') (hs : Sound edges s) :
    s'.readAlong p q = s.readAlong p q ++ es.filterMap (Event.readAlong p q) := by
  induction run with
  | nil => exact (List.append_nil _).symm
  | @cons s t s' e es h _ ih =>
    rw [ih (h.sound hs), h.readAlong hs, List.append_assoc]
    congr 1
    rw [List.filterMap_cons]
    cases e.readAlong p q <;> rfl

/-- Nothing is read twice along an edge. -/
theorem nodup_readAlong (run : Runs.Run (Steps edges) .start es s) :
    (es.filterMap (Event.readAlong p q)).Nodup := by
  have hread := filterMap_readAlong (p := p) (q := q) run sound_start
  rw [show (State.start : State ι α).readAlong p q = [] from List.take_nil, List.nil_append]
    at hread
  rw [← hread]
  exact ((sound_of_run run).nodup p).sublist (List.take_sublist _ _)

end Flood
