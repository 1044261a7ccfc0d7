import Lootcoin.Library.Decimal

/-! JSON values, and how records are read from them: each field from the member of its name, which
has to be there once, and other members are ignored.  An integer is written without a point, and a
double with one or with an exponent.  A double is read from its decimal digits with best effort, and
what is read may differ from it in the last bit. -/

/-- A JSON value. A number is an integer, or has a point or an exponent. -/
inductive Json where
  | null
  | bool (b : Bool)
  | integer (n : ℤ)
  | decimal (d : Decimal)
  | string (s : String)
  | array (items : List Json)
  | object (members : List (String × Json))

namespace Json

variable {α : Type*}

/-! ### Values -/

def ofOption (write : α → Json) : Option α → Json
  | none => null
  | some v => write v

def ofDouble (q : ℚ) : Json := decimal (.ofDouble q)

def readString : Json → Option String
  | string s => some s
  | _ => none

/-- An unsigned integer of a width. A number with a point or an exponent is none. -/
def readUnsigned (w : ℕ) : Json → Option ℕ
  | integer n => if 0 ≤ n ∧ n < 2 ^ w then some n.toNat else none
  | _ => none

/-- Any number. -/
def readDouble : Json → Option ℚ
  | integer n => some (Double.nearest n)
  | decimal d => some d.read
  | _ => none

theorem readUnsigned_natCast {w n : ℕ} (h : n < 2 ^ w) :
    readUnsigned w (integer n) = some n := by
  rw [readUnsigned, if_pos ⟨Int.natCast_nonneg n, by exact_mod_cast h⟩, Int.toNat_natCast]

/-- Some double is read where there is one. -/
theorem readDouble_ofOption (v : Option ℚ) :
    readDouble (ofOption ofDouble v) = v.map fun q => (Decimal.ofDouble q).read := by
  cases v <;> rfl

/-! ### Fields -/

/-- The value of a field of a record. -/
def field (name : String) (read : Json → Option α) : Json → Option α
  | object members =>
    match members.filter fun m => m.1 = name with
    | [m] => read m.2
    | _ => none
  | _ => none

/-- A field is read from the member of its name, if the names differ. -/
theorem field_eq {members : List (String × Json)} (h : (members.map Prod.fst).Nodup)
    {m : String × Json} (hm : m ∈ members) (read : Json → Option α) :
    field m.1 read (object members) = read m.2 := by
  have hfilter : (members.filter fun m' => m'.1 = m.1) = [m] := by
    induction members with
    | nil => cases hm
    | cons first members ih =>
      rw [List.map_cons, List.nodup_cons] at h
      rcases List.mem_cons.mp hm with rfl | hm
      · have hnone : (members.filter fun m' => m'.1 = m.1) = [] :=
          List.filter_eq_nil_iff.mpr fun m' hm' heq =>
            h.1 (List.mem_map.mpr ⟨m', hm', of_decide_eq_true heq⟩)
        rw [List.filter_cons_of_pos (by simp), hnone]
      · have hne : first.1 ≠ m.1 := fun heq => h.1 (heq ▸ List.mem_map_of_mem hm)
        rw [List.filter_cons_of_neg (by simpa using hne), ih h.2 hm]
  rw [field, hfilter]

end Json
