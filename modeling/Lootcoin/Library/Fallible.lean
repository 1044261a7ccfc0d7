import Mathlib.Tactic.Common

/-! Computations that may fail: the inversion of a bind, and folds whose steps may fail. -/

namespace Fallible

universe u v

variable {ε : Type u} {α β : Type v}

/-- A bind returns a value exactly when both of its parts do. -/
theorem bind_eq_ok {x : Except ε α} {f : α → Except ε β} {b : β} :
    (x >>= f) = .ok b ↔ ∃ a, x = .ok a ∧ f a = .ok b := by
  cases x with
  | error e => simp [bind, Except.bind]
  | ok a => simp [bind, Except.bind]

@[simp] theorem pure_eq_ok {a b : α} : (pure a : Except ε α) = .ok b ↔ a = b := by
  simp [pure, Except.pure]

@[simp] theorem throw_eq_ok {e : ε} {a : α} : (throw e : Except ε α) = .ok a ↔ False := by
  simp [throw, throwThe, MonadExceptOf.throw]

theorem toOption_eq_some {x : Except ε α} {a : α} : x.toOption = some a ↔ x = .ok a := by
  cases x <;> simp [Except.toOption]

/-- What can be observed of a result, some value has. -/
theorem exists_of_toOption_map {γ : Type*} {x : Except ε α} {f : α → γ} {y : γ}
    (h : x.toOption.map f = some y) : ∃ a, x = .ok a ∧ f a = y := by
  obtain ⟨a, ha, hy⟩ := Option.map_eq_some_iff.mp h
  exact ⟨a, toOption_eq_some.mp ha, hy⟩

/-- A fold that computes something from every element and combines it into an accumulator returns
when every computation does, and then folds their results. -/
theorem foldlM_eq_ok {γ : Type v} {f : α → Except ε γ} {g : β → γ → β} {l : List α} {s s' : β} :
    l.foldlM (fun s a => do let x ← f a; return g s x) s = .ok s' ↔
      ∃ xs, List.Forall₂ (fun a x => f a = .ok x) l xs ∧ s' = xs.foldl g s := by
  induction l generalizing s with
  | nil =>
    rw [List.foldlM_nil, pure_eq_ok]
    constructor
    · rintro rfl
      exact ⟨[], .nil, rfl⟩
    · rintro ⟨xs, h, rfl⟩
      cases h
      rfl
  | cons a l ih =>
    rw [List.foldlM_cons, bind_eq_ok]
    constructor
    · rintro ⟨t, ht, h⟩
      obtain ⟨x, hx, ht⟩ := bind_eq_ok.mp ht
      obtain rfl := pure_eq_ok.mp ht
      obtain ⟨xs, hxs, rfl⟩ := ih.mp h
      exact ⟨x :: xs, .cons hx hxs, rfl⟩
    · rintro ⟨_, h, rfl⟩
      obtain _ | ⟨hx, hxs⟩ := h
      exact ⟨_, bind_eq_ok.mpr ⟨_, hx, rfl⟩, ih.mpr ⟨_, hxs, rfl⟩⟩

/-- A computation that returns on every element of a list returns on the list. -/
theorem mapM_eq_ok_map {f : α → Except ε β} {g : α → β} {l : List α}
    (h : ∀ a ∈ l, f a = .ok (g a)) : l.mapM f = .ok (l.map g) := by
  induction l with
  | nil => rfl
  | cons a l ih =>
    rw [List.mapM_cons, bind_eq_ok]
    refine ⟨g a, h a List.mem_cons_self, bind_eq_ok.mpr ⟨l.map g, ?_, rfl⟩⟩
    exact ih fun b hb => h b (List.mem_cons_of_mem a hb)

theorem length_of_mapM_eq_ok {f : α → Except ε β} {l : List α} {r : List β}
    (h : l.mapM f = .ok r) : r.length = l.length := by
  induction l generalizing r with
  | nil =>
    obtain rfl := pure_eq_ok.mp h
    rfl
  | cons a l ih =>
    rw [List.mapM_cons] at h
    obtain ⟨b, -, h⟩ := bind_eq_ok.mp h
    obtain ⟨bs, hbs, h⟩ := bind_eq_ok.mp h
    obtain rfl := pure_eq_ok.mp h
    rw [List.length_cons, List.length_cons, ih hbs]

end Fallible
