import Mathlib.Tactic.Ring
import Lootcoin.Library.Transducer

/-! The decoding of UTF-8 that replaces what is not well formed.  A sequence that ends early, and
every byte that can begin no sequence, is written as one replacement character.  A character below
128 is written for its own byte and for no other. -/

namespace Utf8

/-- What has been read of a sequence: how many bytes come after the next, the bounds of the next,
and the bits so far, which suffice for a character from 128 on. -/
structure Pending where
  more : ℕ
  low : ℕ
  high : ℕ
  code : ℕ
  tail : 128 ≤ low ∧ high < 192
  wide : 128 ≤ (code * 64 + (low - 128)) * 64 ^ more

def replacement : Char := Char.ofNat 0xFFFD

/-- The first byte of a sequence. -/
def lead (b : Fin 256) : List Char × Option Pending :=
  if b.val < 0x80 then ([Char.ofNat b.val], none)
  else if h : 0xC2 ≤ b.val ∧ b.val < 0xE0 then
    ([], some ⟨0, 0x80, 0xBF, b.val - 0xC0, by omega, by omega⟩)
  else if b.val = 0xE0 then ([], some ⟨1, 0xA0, 0xBF, 0, by omega, by omega⟩)
  else if b.val = 0xED then ([], some ⟨1, 0x80, 0x9F, 0xD, by omega, by omega⟩)
  else if h : 0xE1 ≤ b.val ∧ b.val < 0xF0 then
    ([], some ⟨1, 0x80, 0xBF, b.val - 0xE0, by omega, by omega⟩)
  else if b.val = 0xF0 then ([], some ⟨2, 0x90, 0xBF, 0, by omega, by omega⟩)
  else if h : 0xF1 ≤ b.val ∧ b.val < 0xF4 then
    ([], some ⟨2, 0x80, 0xBF, b.val - 0xF0, by omega, by omega⟩)
  else if b.val = 0xF4 then ([], some ⟨2, 0x80, 0x8F, 4, by omega, by omega⟩)
  else ([replacement], none)

/-- A sequence goes on with a byte between the bounds. -/
def Continues : Option Pending → Fin 256 → Prop
  | none, _ => False
  | some p, b => p.low ≤ b.val ∧ b.val ≤ p.high

instance (s : Option Pending) (b : Fin 256) : Decidable (Continues s b) := by
  cases s <;> unfold Continues <;> infer_instance

def flush : Option Pending → List Char
  | none => []
  | some _ => [replacement]

/-- A sequence with its next byte. -/
def Pending.next (p : Pending) (b : Fin 256) (h : p.low ≤ b.val) : List Char × Option Pending :=
  match hm : p.more with
  | 0 => ([Char.ofNat (p.code * 64 + (b.val - 128))], none)
  | more + 1 => ([], some ⟨more, 0x80, 0xBF, p.code * 64 + (b.val - 128), by omega, by
      have hwide := p.wide
      rw [hm, Nat.pow_succ] at hwide
      have hle : (p.code * 64 + (p.low - 128)) * (64 ^ more * 64) ≤
          (p.code * 64 + (b.val - 128)) * (64 ^ more * 64) :=
        Nat.mul_le_mul_right _ (by omega)
      calc 128 ≤ (p.code * 64 + (b.val - 128)) * (64 ^ more * 64) := hwide.trans hle
        _ = _ := by ring⟩)

def step (s : Option Pending) (b : Fin 256) : List Char × Option Pending :=
  match s with
  | none => lead b
  | some p =>
    if h : Continues (some p) b then p.next b h.1
    else (replacement :: (lead b).1, (lead b).2)

theorem lead_tail {b : Fin 256} (h : 128 ≤ b.val ∧ b.val < 192) :
    lead b = ([replacement], none) := by
  unfold lead
  rw [if_neg (by omega), dif_neg (by omega), if_neg (by omega), if_neg (by omega),
    dif_neg (by omega), if_neg (by omega), dif_neg (by omega), if_neg (by omega)]

theorem Pending.length_next (p : Pending) (b : Fin 256) (h : p.low ≤ b.val) :
    (p.next b h).1.length + (flush (p.next b h).2).length = 1 := by
  unfold next
  split <;> rfl

def decoder : Decoder (Option Pending) (Fin 256) Char where
  start := none
  step := step
  flush := flush
  Continues := Continues
  flush_start := rfl
  restart := by
    intro s b h
    cases s with
    | none => rfl
    | some p => exact dif_neg h
  alone := by
    intro s b h
    cases s with
    | none => exact h.elim
    | some p =>
      have htail := p.tail
      have hb : 128 ≤ b.val ∧ b.val < 192 := ⟨htail.1.trans h.1, h.2.trans_lt htail.2⟩
      exact congrArg Prod.snd (lead_tail hb)
  shorter := by
    intro s b h
    cases s with
    | none => exact h.elim
    | some p =>
      have htail := p.tail
      have hb : 128 ≤ b.val ∧ b.val < 192 := ⟨htail.1.trans h.1, h.2.trans_lt htail.2⟩
      have hstep : step (some p) b = p.next b h.1 := dif_pos h
      have hlead : step none b = ([replacement], none) := lead_tail hb
      rw [hstep, hlead, p.length_next]
      show 1 < 1 + 1
      omega

/-- The text of some bytes. -/
def decodeLossy (bs : List (Fin 256)) : List Char := decoder.run none bs

/-! ### Characters below 128 -/

variable {a : Fin 256} {s : Option Pending} {l : List (Option (Fin 256))}

/-- A byte that is a character of its own, other than zero. -/
def IsAscii (a : Fin 256) : Prop := 0 < a.val ∧ a.val < 128

instance (a : Fin 256) : Decidable (IsAscii a) := by
  unfold IsAscii
  infer_instance

def ascii (a : Fin 256) : Char := Char.ofNat a.val

theorem toNat_ofNat (n : ℕ) : (Char.ofNat n).toNat = n ∨ (Char.ofNat n).toNat = 0 := by
  by_cases h : n.isValidChar
  · have heq : Char.ofNat n = Char.ofNatAux n h := dif_pos h
    exact .inl (congrArg Char.toNat heq)
  · have heq : Char.ofNat n = Char.ofNat 0 := dif_neg h
    exact .inr (congrArg Char.toNat heq)

theorem toNat_ascii (h : a.val < 128) : (ascii a).toNat = a.val := by
  have hvalid : a.val.isValidChar := .inl (by omega)
  have heq : ascii a = Char.ofNatAux a.val hvalid := dif_pos hvalid
  exact congrArg Char.toNat heq

theorem ofNat_ne_ascii (h : IsAscii a) {n : ℕ} (hn : 128 ≤ n) : Char.ofNat n ≠ ascii a := by
  intro heq
  have hnat := congrArg Char.toNat heq
  rw [toNat_ascii h.2] at hnat
  unfold IsAscii at h
  rcases toNat_ofNat n with hn' | hn' <;> omega

theorem ascii_inj {b : Fin 256} (ha : a.val < 128) (hb : b.val < 128) (h : ascii b = ascii a) :
    b = a := by
  have hnat := congrArg Char.toNat h
  rw [toNat_ascii ha, toNat_ascii hb] at hnat
  exact Fin.ext hnat

theorem count_replacement (h : IsAscii a) : [replacement].count (ascii a) = 0 :=
  List.count_eq_zero_of_not_mem fun hmem =>
    ofNat_ne_ascii h (by decide) (List.mem_singleton.mp hmem).symm

/-- A first byte is a character of its own, begins a sequence, or is replaced. -/
theorem lead_cases (b : Fin 256) : (b.val < 128 ∧ lead b = ([ascii b], none)) ∨
    (128 ≤ b.val ∧ ((∃ p, lead b = ([], some p)) ∨ lead b = ([replacement], none))) := by
  by_cases hb : b.val < 128
  · exact .inl ⟨hb, if_pos hb⟩
  · refine .inr ⟨by omega, ?_⟩
    unfold lead
    rw [if_neg hb]
    repeat' split
    all_goals first | exact .inl ⟨_, rfl⟩ | exact .inr rfl

/-- The last byte of a sequence completes a character from 128 on. -/
theorem Pending.next_cases (p : Pending) (b : Fin 256) (h : p.low ≤ b.val) :
    (∃ n, 128 ≤ n ∧ p.next b h = ([Char.ofNat n], none)) ∨ ∃ p', p.next b h = ([], some p') := by
  unfold next
  split
  · rename_i hm
    have hwide := p.wide
    rw [hm, Nat.pow_zero, Nat.mul_one] at hwide
    exact .inl ⟨_, by omega, rfl⟩
  · exact .inr ⟨_, rfl⟩

theorem step_some {p : Pending} {b : Fin 256} (h : Continues (some p) b) :
    step (some p) b = p.next b h.1 :=
  dif_pos h

theorem step_of_not_continues {b : Fin 256} (h : ¬ Continues s b) :
    step s b = (flush s ++ (lead b).1, (lead b).2) :=
  decoder.restart s b h

theorem le_of_continues {b : Fin 256} (h : Continues s b) : 128 ≤ b.val := by
  cases s with
  | none => exact h.elim
  | some p => exact p.tail.1.trans h.1

theorem count_flush (h : IsAscii a) (s : Option Pending) : (flush s).count (ascii a) = 0 := by
  cases s with
  | none => rfl
  | some p => exact count_replacement h

theorem count_lead (h : IsAscii a) (b : Fin 256) :
    (lead b).1.count (ascii a) = if b = a then 1 else 0 := by
  rcases lead_cases b with ⟨hb, heq⟩ | ⟨hb, hcase⟩
  · rw [heq, List.count_singleton]
    by_cases hba : b = a
    · rw [hba, if_pos (beq_self_eq_true _), if_pos rfl]
    · have hne : ascii b ≠ ascii a := fun heq => hba (ascii_inj h.2 hb heq)
      rw [if_neg (by simpa using hne), if_neg hba]
  · have hba : b ≠ a := fun heq => absurd h.2 (by omega)
    rw [if_neg hba]
    rcases hcase with ⟨p, heq⟩ | heq
    · rw [heq]
      rfl
    · rw [heq]
      exact count_replacement h

theorem count_step (h : IsAscii a) (s : Option Pending) (b : Fin 256) :
    (step s b).1.count (ascii a) = if b = a then 1 else 0 := by
  by_cases hc : Continues s b
  · have hb := le_of_continues hc
    have hba : b ≠ a := fun heq => absurd h.2 (by omega)
    cases s with
    | none => exact hc.elim
    | some p =>
      rw [step_some hc, if_neg hba]
      rcases p.next_cases b hc.1 with ⟨n, hn, heq⟩ | ⟨p', heq⟩
      · rw [heq]
        exact List.count_eq_zero_of_not_mem fun hmem =>
          ofNat_ne_ascii h hn (List.mem_singleton.mp hmem).symm
      · rw [heq]
        rfl
  · rw [step_of_not_continues hc, List.count_append, count_flush h, count_lead h, Nat.zero_add]

/-- A character below 128 is written as often as its byte is read, however the bytes are cut. -/
theorem count_cut_run (h : IsAscii a) (s : Option Pending) (l : List (Option (Fin 256))) :
    (decoder.cut.run s l).count (ascii a) = l.reduceOption.count a := by
  induction l generalizing s with
  | nil => exact count_flush h s
  | cons o l ih =>
    rw [Transducer.run, List.count_append, ih]
    cases o with
    | none => exact (congrArg (· + _) (count_flush h s)).trans (Nat.zero_add _)
    | some b =>
      rw [List.reduceOption_cons_of_some, List.count_cons, Nat.add_comm]
      exact congrArg _ ((count_step h s b).trans (by simp))

/-- What follows a begun sequence does not begin with a character below 128. -/
theorem cut_run_some (p : Pending) (l : List (Option (Fin 256))) : ∃ c cs,
    decoder.cut.run (some p) l = c :: cs ∧ ∀ a, IsAscii a → c ≠ ascii a := by
  have hreplacement : ∀ cs : List Char, ∃ c cs', [replacement] ++ cs = c :: cs' ∧
      ∀ a, IsAscii a → c ≠ ascii a := fun cs =>
    ⟨_, cs, rfl, fun a h => ofNat_ne_ascii h (by decide)⟩
  induction l generalizing p with
  | nil => exact hreplacement []
  | cons o l ih =>
    rw [Transducer.run]
    cases o with
    | none => exact hreplacement _
    | some b =>
      show ∃ c cs, (step (some p) b).1 ++ decoder.cut.run (step (some p) b).2 l = c :: cs ∧ _
      by_cases hc : Continues (some p) b
      · rw [step_some hc]
        rcases p.next_cases b hc.1 with ⟨n, hn, heq⟩ | ⟨p', heq⟩
        · rw [heq]
          exact ⟨_, _, rfl, fun a h => ofNat_ne_ascii h hn⟩
        · rw [heq]
          exact ih p'
      · rw [step_of_not_continues hc, List.append_assoc]
        exact hreplacement _

/-- Characters below 128 come first exactly when their bytes do, however the bytes are cut. -/
theorem map_ascii_isPrefix_cut_run {as : List (Fin 256)} (has : ∀ a ∈ as, IsAscii a)
    (l : List (Option (Fin 256))) :
    as.map ascii <+: decoder.cut.run none l ↔ as <+: l.reduceOption := by
  induction l generalizing as with
  | nil => exact (List.prefix_nil.trans List.map_eq_nil_iff).trans List.prefix_nil.symm
  | cons o l ih =>
    cases o with
    | none => exact ih has
    | some b =>
      cases as with
      | nil => simp
      | cons a as =>
        have ha := has a List.mem_cons_self
        have hrest := ih fun a' ha' => has a' (List.mem_cons_of_mem _ ha')
        rw [List.reduceOption_cons_of_some, Transducer.run, List.cons_prefix_cons, List.map_cons]
        show ascii a :: _ <+: (lead b).1 ++ decoder.cut.run (lead b).2 l ↔ _
        rcases lead_cases b with ⟨hb, heq⟩ | ⟨hb, hcase⟩
        · rw [heq, List.singleton_append, List.cons_prefix_cons, hrest]
          exact and_congr_left fun _ =>
            ⟨fun h => (ascii_inj hb ha.2 h).symm ▸ rfl, fun h => h ▸ rfl⟩
        · have hab : a ≠ b := fun heq => absurd ha.2 (by omega)
          refine iff_of_false (fun hpre => ?_) fun h => hab h.1
          have hhead : ∃ c cs, (lead b).1 ++ decoder.cut.run (lead b).2 l = c :: cs ∧
              c ≠ ascii a := by
            rcases hcase with ⟨p, heq⟩ | heq
            · rw [heq]
              obtain ⟨c, cs, hrun, hc⟩ := cut_run_some p l
              exact ⟨c, cs, hrun, hc a ha⟩
            · rw [heq]
              exact ⟨_, _, rfl, ofNat_ne_ascii ha (by decide)⟩
          obtain ⟨c, cs, hrun, hc⟩ := hhead
          rw [hrun, List.cons_prefix_cons] at hpre
          exact hc hpre.1.symm

end Utf8
