import Mathlib.Data.List.Lex
import Mathlib.Order.Cover

/-! The lexicographic order of lists, as the keys of a database are ordered.  Keys of equal length
in front decide before what comes after them, and the keys from a prefix to the next prefix are
those that begin with it. -/

namespace Lexicographic

variable {α : Type*} [LinearOrder α]

theorem cons_lt_cons_iff {a b : α} {l l' : List α} :
    a :: l < b :: l' ↔ a < b ∨ a = b ∧ l < l' :=
  List.cons_lt_cons_iff

/-- Of lists that begin with lists of one length, the beginnings are compared first. -/
theorem append_lt_append_iff {l l' r r' : List α} (h : l.length = l'.length) :
    l ++ r < l' ++ r' ↔ l < l' ∨ l = l' ∧ r < r' := by
  induction l generalizing l' with
  | nil =>
    obtain rfl := List.length_eq_zero_iff.mp h.symm
    simp
  | cons a l ih =>
    cases l' with
    | nil => simp at h
    | cons b l' =>
      rw [List.cons_append, List.cons_append, cons_lt_cons_iff, cons_lt_cons_iff,
        ih (Nat.succ.inj h), List.cons.injEq]
      tauto

/-- The lists from `p ++ [a]` to before `p ++ [b]`, where `b` comes right after `a`, are those that
begin with `p ++ [a]`. -/
theorem mem_range_iff_prefix {a b : α} (hab : a ⋖ b) {p l : List α} :
    p ++ [a] ≤ l ∧ l < p ++ [b] ↔ p ++ [a] <+: l := by
  induction p generalizing l with
  | nil =>
    cases l with
    | nil => simp
    | cons c l =>
      rw [← not_lt, List.nil_append, List.nil_append, cons_lt_cons_iff, cons_lt_cons_iff,
        List.cons_prefix_cons]
      have hcover : c < b → ¬ a < c := fun hcb hac => hab.2 hac hcb
      have hlt := hab.lt
      simp only [List.not_lt_nil, and_false, or_false, List.nil_prefix, and_true]
      constructor
      · rintro ⟨hle, hcb⟩
        exact le_antisymm (not_lt.mp hle) (not_lt.mp (hcover hcb))
      · rintro rfl
        exact ⟨by simp, hlt⟩
  | cons d p ih =>
    cases l with
    | nil => simp
    | cons c l =>
      rw [← not_lt, List.cons_append, List.cons_append, cons_lt_cons_iff, cons_lt_cons_iff,
        List.cons_prefix_cons, ← ih, ← not_lt]
      constructor
      · rintro ⟨hle, hlt⟩
        rw [not_or, not_and] at hle
        rcases hlt with hlt | ⟨rfl, hlt⟩
        · exact absurd hlt hle.1
        · exact ⟨rfl, hle.2 rfl, hlt⟩
      · rintro ⟨rfl, hle, hlt⟩
        exact ⟨by simpa using hle, .inr ⟨rfl, hlt⟩⟩

end Lexicographic
