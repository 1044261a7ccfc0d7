import Mathlib.Algebra.BigOperators.Group.Finset.Basic
import Mathlib.Algebra.BigOperators.Ring.Finset
import Mathlib.Algebra.Order.Group.Int
import Mathlib.Data.Finset.Basic
import Mathlib.Data.List.Basic

/-! Double-entry bookkeeping over the integers: a ledger gives every account a balance, an entry is
a list of postings, and posting an entry changes the sum of all balances by the net of the
entry. -/

namespace Ledger

variable {α : Type*}

/-- The sum of the postings of an entry. -/
def net (e : List (α × ℤ)) : ℤ := (e.map Prod.snd).sum

@[simp] theorem net_nil : net ([] : List (α × ℤ)) = 0 := rfl

@[simp] theorem net_cons (p : α × ℤ) (e : List (α × ℤ)) : net (p :: e) = p.2 + net e := by
  simp [net]

theorem net_append (e e' : List (α × ℤ)) : net (e ++ e') = net e + net e' := by
  simp [net]

variable [DecidableEq α]

/-- The sum of the postings of an entry to an account. -/
def posted (e : List (α × ℤ)) (a : α) : ℤ := (e.map fun p => if p.1 = a then p.2 else 0).sum

/-- A ledger with the postings of an entry added. -/
def post (l : α → ℤ) (e : List (α × ℤ)) (a : α) : ℤ := l a + posted e a

@[simp] theorem post_nil (l : α → ℤ) : post l [] = l := by
  funext a
  simp [post, posted]

theorem post_append (l : α → ℤ) (e e' : List (α × ℤ)) : post l (e ++ e') = post (post l e) e' := by
  funext a
  simp [post, posted, add_assoc]

/-- The order of the postings in an entry does not matter. -/
theorem post_perm (l : α → ℤ) {e e' : List (α × ℤ)} (h : e.Perm e') : post l e = post l e' := by
  funext a
  rw [post, post, posted, posted, (h.map _).sum_eq]

/-- Over accounts that include those of an entry, the sum of the balances changes by its net. -/
theorem sum_post (l : α → ℤ) {S : Finset α} {e : List (α × ℤ)} (h : ∀ p ∈ e, p.1 ∈ S) :
    ∑ a ∈ S, post l e a = ∑ a ∈ S, l a + net e := by
  simp only [post, Finset.sum_add_distrib, add_right_inj]
  induction e with
  | nil => simp [posted]
  | cons p e ih =>
    have hp : p.1 ∈ S := h p List.mem_cons_self
    have hsingle : ∑ a ∈ S, (if p.1 = a then p.2 else 0) = p.2 := by simp [hp]
    simp only [posted, List.map_cons, List.sum_cons, Finset.sum_add_distrib, hsingle, net_cons]
    rw [add_right_inj]
    exact ih fun q hq => h q (List.mem_cons_of_mem _ hq)

end Ledger
