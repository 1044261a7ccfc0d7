import Mathlib.Data.List.ReduceOption

/-! Machines that read symbols one by one, write others, and hold some back until they have seen
more.  A decoder either goes on with a symbol or begins anew with it.  Where its input is cut, it
writes what it holds back, so it writes the same as without the cuts exactly when no cut comes
before a symbol with which it would have gone on. -/

/-- A machine, with what it writes when the input ends. -/
structure Transducer (σ β γ : Type*) where
  start : σ
  step : σ → β → List γ × σ
  flush : σ → List γ

namespace Transducer

variable {σ β γ : Type*} (d : Transducer σ β γ)

/-- What the machine writes from a state on. -/
def run : σ → List β → List γ
  | s, [] => d.flush s
  | s, b :: bs => (d.step s b).1 ++ run (d.step s b).2 bs

/-- The machine that ends its input at each cut, `none`, and begins anew. -/
def cut : Transducer σ (Option β) γ where
  start := d.start
  step
    | s, none => (d.flush s, d.start)
    | s, some b => d.step s b
  flush := d.flush

/-- A symbol at which the machine begins anew. -/
theorem run_append_of_reset {b : β} {w : List γ} (hb : ∀ s, d.step s b = (d.flush s ++ w, d.start))
    (s : σ) (bs bs' : List β) :
    d.run s (bs ++ b :: bs') = d.run s bs ++ (w ++ d.run d.start bs') := by
  induction bs generalizing s with
  | nil => rw [List.nil_append, run, run, hb, List.append_assoc]
  | cons b' bs ih => rw [List.cons_append, run, run, ih, List.append_assoc]

theorem cut_run_append (s : σ) (l l' : List (Option β)) :
    d.cut.run s (l ++ none :: l') = d.cut.run s l ++ d.cut.run d.start l' :=
  d.cut.run_append_of_reset (w := []) (fun s => by rw [List.append_nil]; rfl) s l l'

theorem cut_run_map_some (s : σ) (bs : List β) : d.cut.run s (bs.map some) = d.run s bs := by
  induction bs generalizing s with
  | nil => rfl
  | cons b bs ih =>
    rw [List.map_cons, run, run, ih]
    rfl

end Transducer

/-- A machine that goes on with some symbols and begins anew with all others.  A symbol with which
it could go on is written in fewer symbols if it does. -/
structure Decoder (σ β γ : Type*) extends Transducer σ β γ where
  Continues : σ → β → Prop
  flush_start : flush start = []
  restart : ∀ s b, ¬ Continues s b → step s b = (flush s ++ (step start b).1, (step start b).2)
  alone : ∀ s b, Continues s b → (step start b).2 = start
  shorter : ∀ s b, Continues s b → (step s b).1.length + (flush (step s b).2).length <
    (flush s).length + (step start b).1.length

namespace Decoder

variable {σ β γ : Type*} (d : Decoder σ β γ) {s : σ} {b : β} {bs : List β} {l : List (Option β)}

theorem not_continues_start (b : β) : ¬ d.Continues d.start b := by
  intro h
  have := d.shorter d.start b h
  rw [d.flush_start, List.length_nil] at this
  omega

theorem run_cons_of_not_continues (h : ¬ d.Continues s b) (bs : List β) :
    d.run s (b :: bs) = d.flush s ++ d.run d.start (b :: bs) := by
  rw [Transducer.run, Transducer.run, d.restart s b h, List.append_assoc]

/-- To end the input at some place never makes what is written shorter. -/
theorem length_run_le (s : σ) (bs : List β) :
    (d.run s bs).length ≤ (d.flush s).length + (d.run d.start bs).length := by
  induction bs generalizing s with
  | nil => exact Nat.le_add_right _ _
  | cons b bs ih =>
    by_cases h : d.Continues s b
    · have hshort := d.shorter s b h
      have hrest := ih (d.step s b).2
      rw [Transducer.run, Transducer.run, d.alone s b h, List.length_append, List.length_append]
      omega
    · have heq := congrArg List.length (d.run_cons_of_not_continues h bs)
      rw [List.length_append] at heq
      exact Nat.le_of_eq heq

theorem length_run_lt (h : d.Continues s b) (bs : List β) :
    (d.run s (b :: bs)).length < (d.flush s).length + (d.run d.start (b :: bs)).length := by
  have hshort := d.shorter s b h
  have hrest := d.length_run_le (d.step s b).2 bs
  rw [Transducer.run, Transducer.run, d.alone s b h, List.length_append, List.length_append]
  omega

theorem length_run_le_cut (s : σ) (l : List (Option β)) :
    (d.run s l.reduceOption).length ≤ (d.cut.run s l).length := by
  induction l generalizing s with
  | nil => exact Nat.le_refl _
  | cons o l ih =>
    cases o with
    | none =>
      rw [List.reduceOption_cons_of_none, Transducer.run, List.length_append]
      exact Nat.le_trans (d.length_run_le s _) (Nat.add_le_add_left (ih d.start) _)
    | some b =>
      rw [List.reduceOption_cons_of_some, Transducer.run, Transducer.run, List.length_append,
        List.length_append]
      exact Nat.add_le_add_left (ih _) _

/-- No cut comes before a symbol that continues what has been read. -/
def Seamless : σ → List (Option β) → Prop
  | _, [] => True
  | s, none :: l => (∀ b ∈ l.reduceOption.head?, ¬ d.Continues s b) ∧ Seamless s l
  | s, some b :: l => Seamless (d.step s b).2 l

theorem seamless_restart (h : ∀ b ∈ l.reduceOption.head?, ¬ d.Continues s b) :
    d.Seamless s l ↔ d.Seamless d.start l := by
  induction l with
  | nil => exact Iff.rfl
  | cons o l ih =>
    cases o with
    | none =>
      rw [List.reduceOption_cons_of_none] at h
      rw [Seamless, Seamless, ih h]
      exact and_congr_left fun _ => iff_of_true h fun b _ => d.not_continues_start b
    | some b =>
      have hb := h b (by simp)
      rw [Seamless, Seamless, d.restart s b hb]

theorem cut_run_of_reduceOption_eq_nil (h : l.reduceOption = []) : d.cut.run d.start l = [] := by
  induction l with
  | nil => exact d.flush_start
  | cons o l ih =>
    cases o with
    | none =>
      rw [List.reduceOption_cons_of_none] at h
      rw [Transducer.run]
      exact List.append_eq_nil_iff.mpr ⟨d.flush_start, ih h⟩
    | some b => simp at h

/-- The cuts change nothing exactly when none comes before a symbol that continues what has been
read. -/
theorem cut_run_eq_iff (s : σ) (l : List (Option β)) :
    d.cut.run s l = d.run s l.reduceOption ↔ d.Seamless s l := by
  induction l generalizing s with
  | nil => exact iff_of_true rfl trivial
  | cons o l ih =>
    cases o with
    | some b =>
      rw [List.reduceOption_cons_of_some, Seamless, ← ih, Transducer.run, Transducer.run]
      exact List.append_right_inj _
    | none =>
      have hcut : d.cut.run s (none :: l) = d.flush s ++ d.cut.run d.start l := rfl
      rw [List.reduceOption_cons_of_none, Seamless, hcut]
      cases hl : l.reduceOption with
      | nil =>
        have hseam : d.Seamless s l := by
          rw [d.seamless_restart (by simp [hl]), ← ih, d.cut_run_of_reduceOption_eq_nil hl, hl]
          exact d.flush_start.symm
        rw [d.cut_run_of_reduceOption_eq_nil hl]
        exact iff_of_true (List.append_nil _) ⟨by simp, hseam⟩
      | cons b bs =>
        by_cases h : d.Continues s b
        · refine iff_of_false (fun heq => ?_) fun hseam => hseam.1 b rfl h
          have hlt := d.length_run_lt h bs
          have hle := d.length_run_le_cut d.start l
          have hlen := congrArg List.length heq
          rw [hl] at hle
          rw [List.length_append] at hlen
          omega
        · rw [d.run_cons_of_not_continues h, List.append_right_inj, ← hl, ih]
          have hhead : ∀ b ∈ l.reduceOption.head?, ¬ d.Continues s b := by
            intro b' hb'
            rw [hl] at hb'
            cases hb'
            exact h
          rw [d.seamless_restart hhead]
          exact (and_iff_right hhead).symm

end Decoder
