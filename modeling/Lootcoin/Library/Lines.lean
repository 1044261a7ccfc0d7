import Mathlib.Data.List.Basic

/-! Splitting a list at every occurrence of a symbol: the complete lines, and what follows the last
symbol.  A text that comes in parts is split part by part, and a translation that keeps the symbol
translates line by line. -/

namespace Lines

variable {α β : Type*} [DecidableEq α] [DecidableEq β]

/-- The complete lines and the rest, where a part of the first line has been read before. -/
def split (x : α) : List α → List α → List (List α) × List α
  | line, [] => ([], line)
  | line, y :: l =>
    if y = x then (line :: (split x [] l).1, (split x [] l).2) else split x (line ++ [y]) l

variable {x : α} {y : β} {line l l' : List α}

theorem split_append (x : α) (line l l' : List α) : split x line (l ++ l') =
    ((split x line l).1 ++ (split x (split x line l).2 l').1,
      (split x (split x line l).2 l').2) := by
  induction l generalizing line with
  | nil => rfl
  | cons y l ih =>
    rw [List.cons_append, split, split]
    split
    · rw [ih]
      rfl
    · exact ih _

/-- A line that is not complete. -/
theorem split_of_notMem (hx : x ∉ l) : split x line l = ([], line ++ l) := by
  induction l generalizing line with
  | nil => rw [split, List.append_nil]
  | cons y l ih =>
    rw [List.mem_cons, not_or] at hx
    rw [split, if_neg (Ne.symm hx.1), ih hx.2, List.append_assoc, List.singleton_append]

/-- The first line. -/
theorem split_line (hx : x ∉ l) (l' : List α) : split x line (l ++ x :: l') =
    ((line ++ l) :: (split x [] l').1, (split x [] l').2) := by
  rw [split_append, split_of_notMem hx, List.nil_append, split, if_pos rfl]

theorem split_append_of_notMem (hx : x ∉ line) (l : List α) :
    split x [] (line ++ l) = split x line l := by
  rw [split_append, split_of_notMem hx]
  rfl

/-- Every list is a line that is not complete, or a complete line before another list. -/
theorem induction {motive : List α → Prop} (x : α) (rest : ∀ l, x ∉ l → motive l)
    (line : ∀ l l', x ∉ l → motive l' → motive (l ++ x :: l')) (l : List α) : motive l := by
  induction hn : l.length using Nat.strongRecOn generalizing l with
  | ind n ih =>
    by_cases hx : x ∈ l
    · obtain ⟨l₁, l₂, rfl, hfirst⟩ := List.eq_append_cons_of_mem hx
      have hlt : l₂.length < n := by
        rw [← hn, List.length_append, List.length_cons]
        omega
      exact line l₁ l₂ hfirst (ih l₂.length hlt l₂ rfl)
    · exact rest l hx

/-- The rest holds no separator. -/
theorem notMem_split (l : List α) : x ∉ (split x [] l).2 := by
  induction l using Lines.induction x with
  | rest l hx => rwa [split_of_notMem hx]
  | line l l' hx ih => rwa [split_line hx]

/-- A translation that turns the separators, and only these, into separators goes line by line. -/
theorem split_map (f : List α → List β) (hsep : ∀ l l', f (l ++ x :: l') = f l ++ y :: f l')
    (hline : ∀ l, x ∉ l → y ∉ f l) (l : List α) :
    split y [] (f l) = ((split x [] l).1.map f, f (split x [] l).2) := by
  induction l using Lines.induction x with
  | rest l hx =>
    rw [split_of_notMem hx, split_of_notMem (hline l hx)]
    rfl
  | line l l' hx ih =>
    rw [hsep, split_line hx, split_line (hline l hx), ih]
    rfl

end Lines
