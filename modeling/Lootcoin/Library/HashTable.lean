import Mathlib.Data.List.AList
import Mathlib.Data.List.Perm.Subperm
import Mathlib.Algebra.GroupWithZero.Nat
import Mathlib.Algebra.Order.BigOperators.Group.List
import Lootcoin.Library.Words

/-! Hash tables as association lists without duplicate keys.  The order of the entries stands for
the order in which a table happens to be iterated. -/

/-- A finite map with one value for each key. -/
abbrev HashTable (κ ν : Type) : Type := AList fun _ : κ => ν

namespace HashTable

section Entries

variable {κ ν : Type}

/-- The value at `k`, or `d` where the table has none. -/
def getD [DecidableEq κ] (t : HashTable κ ν) (k : κ) (d : ν) : ν := (t.lookup k).getD d

def values (t : HashTable κ ν) : List ν := t.entries.map fun e => e.2

def size (t : HashTable κ ν) : ℕ := t.entries.length

/-- The entries that pass a test. -/
def retain (test : κ → ν → Bool) (t : HashTable κ ν) : HashTable κ ν :=
  ⟨t.entries.filter fun e => test e.1 e.2, t.nodupKeys.sublist List.filter_sublist⟩

variable [DecidableEq κ]

@[simp] theorem getD_insert (t : HashTable κ ν) (k : κ) (v d : ν) :
    getD (t.insert k v) k d = v := by
  simp [getD]

@[simp] theorem getD_insert_ne {t : HashTable κ ν} {k k' : κ} (h : k' ≠ k) (v d : ν) :
    getD (t.insert k v) k' d = getD t k' d := by
  rw [getD, AList.lookup_insert_ne h, getD]

/-- A function that differs from a default at few keys is what a table holds. -/
theorem exists_getD_eq {f : κ → ν} {d : ν} {l : List κ} (h : ∀ k, k ∉ l → f k = d) :
    ∃ t : HashTable κ ν, ∀ k, getD t k d = f k := by
  induction l generalizing f with
  | nil => exact ⟨∅, fun k => (h k List.not_mem_nil).symm⟩
  | cons k l ih =>
    obtain ⟨t, ht⟩ := @ih (Function.update f k d) fun k' hk' => by
      by_cases hkk : k' = k
      · rw [hkk, Function.update_self]
      · rw [Function.update_of_ne hkk]
        exact h k' (by simp [hkk, hk'])
    refine ⟨t.insert k (f k), fun k' => ?_⟩
    by_cases hkk : k' = k
    · rw [hkk, getD_insert]
    · rw [getD_insert_ne hkk, ht, Function.update_of_ne hkk]

/-- The table of the entries of a list, the last one for each key. -/
def collect (es : List (κ × ν)) : HashTable κ ν := es.foldl (fun t e => t.insert e.1 e.2) ∅

/-- Entries with keys of their own can all be looked up, and nothing else can. -/
theorem lookup_collect {es : List (κ × ν)} (hnodup : (es.map Prod.fst).Nodup) {k : κ} {v : ν} :
    (collect es).lookup k = some v ↔ (k, v) ∈ es := by
  suffices h : ∀ t : HashTable κ ν, (es.foldl (fun t e => t.insert e.1 e.2) t).lookup k = some v ↔
      (k, v) ∈ es ∨ (k ∉ es.map Prod.fst ∧ t.lookup k = some v) by
    rw [collect, h, AList.lookup_empty]
    simp
  induction es with
  | nil => simp
  | cons e es ih =>
    obtain ⟨hnot, hnodup⟩ := List.nodup_cons.mp hnodup
    intro t
    rw [List.foldl_cons, ih hnodup, List.mem_cons, List.map_cons, List.mem_cons, or_assoc,
      or_left_comm, not_or]
    refine or_congr_right ?_
    by_cases hk : k = e.1
    · subst hk
      rw [AList.lookup_insert, Option.some.injEq, Prod.ext_iff]
      simp [hnot, eq_comm]
    · rw [AList.lookup_insert_ne hk]
      simp [hk, Prod.ext_iff]

theorem lookup_insert_eq_some {t : HashTable κ ν} {k k' : κ} {v w : ν} :
    (t.insert k w).lookup k' = some v ↔
      (k' = k ∧ v = w) ∨ (k' ≠ k ∧ t.lookup k' = some v) := by
  by_cases hk : k' = k
  · rw [hk, AList.lookup_insert, Option.some.injEq]
    simp [eq_comm]
  · rw [AList.lookup_insert_ne hk]
    simp [hk]

theorem lookup_erase_eq_some {t : HashTable κ ν} {k k' : κ} {v : ν} :
    (t.erase k).lookup k' = some v ↔ k' ≠ k ∧ t.lookup k' = some v := by
  by_cases hk : k' = k
  · rw [hk, AList.lookup_erase]
    simp
  · rw [AList.lookup_erase_ne hk]
    simp [hk]

theorem mem_entries {t : HashTable κ ν} {e : Σ _ : κ, ν} :
    e ∈ t.entries ↔ t.lookup e.1 = some e.2 := by
  obtain ⟨k, v⟩ := e
  exact AList.mem_lookup_iff.symm

theorem mem_values {t : HashTable κ ν} {v : ν} : v ∈ values t ↔ ∃ k, t.lookup k = some v := by
  simp only [values, List.mem_map, Sigma.exists]
  exact ⟨fun ⟨k, w, hm, hw⟩ => ⟨k, by rw [← hw]; exact mem_entries.mp hm⟩,
    fun ⟨k, h⟩ => ⟨k, v, mem_entries.mpr h, rfl⟩⟩

theorem size_le_insert (t : HashTable κ ν) (k : κ) (v : ν) : size t ≤ size (t.insert k v) := by
  simp only [size, AList.entries_insert, List.length_cons]
  by_cases hk : k ∈ t.keys
  · obtain ⟨w, l, m, -, hl, hrest⟩ := List.exists_of_kerase hk
    rw [hrest, hl, List.length_append, List.length_append, List.length_cons]
    omega
  · rw [List.kerase_of_notMem_keys hk]
    omega

/-- Values stored under different keys are no more than the entries. -/
theorem length_le_size {α : Type} {t : HashTable κ ν} {key : α → κ} {l : List α}
    (hl : (l.map key).Nodup) (h : ∀ x ∈ l, ∃ v, t.lookup (key x) = some v) : l.length ≤ size t := by
  have hsub : l.map key ⊆ t.keys := by
    intro k hk
    obtain ⟨x, hx, rfl⟩ := List.mem_map.mp hk
    obtain ⟨v, hv⟩ := h x hx
    exact AList.mem_keys.mpr (AList.lookup_isSome.mp (by rw [hv]; rfl))
  have hle := (hl.subperm hsub).length_le
  rwa [List.length_map, AList.keys, List.keys, List.length_map] at hle

/-- Tables that agree on every key are of one size. -/
theorem size_congr {t t' : HashTable κ ν} (h : ∀ k, t.lookup k = t'.lookup k) :
    size t = size t' := by
  have hle : ∀ {t t' : HashTable κ ν}, (∀ k, t.lookup k = t'.lookup k) → size t ≤ size t' := by
    intro t t' h
    have hkeys : (t.entries.map Sigma.fst).Nodup := t.nodupKeys
    exact length_le_size hkeys fun e he => ⟨e.2, (h e.1).symm.trans (mem_entries.mp he)⟩
  exact Nat.le_antisymm (hle h) (hle fun k => (h k).symm)

theorem values_insert (t : HashTable κ ν) (k : κ) (v : ν) :
    values (t.insert k v) = v :: values (t.erase k) := rfl

/-- What passes a test in a table is what does without one entry, and perhaps that entry. -/
theorem countP_values_erase {t : HashTable κ ν} {k : κ} {v : ν} (h : t.lookup k = some v)
    (p : ν → Bool) :
    (values t).countP p = (values (t.erase k)).countP p + if p v then 1 else 0 := by
  have hk : k ∈ t.keys := AList.mem_keys.mpr (AList.lookup_isSome.mp (by rw [h]; rfl))
  obtain ⟨w, l, m, hl, hentries, herase⟩ := List.exists_of_kerase hk
  have hw : w = v := by
    have hmem : (⟨k, w⟩ : Σ _ : κ, ν) ∈ t.entries := by simp [hentries]
    exact Option.some.inj ((mem_entries.mp hmem).symm.trans h)
  have hrest : (t.erase k).entries = l ++ m := herase
  rw [values, values, hentries, hrest, hw]
  simp only [List.map_append, List.map_cons, List.countP_append, List.countP_cons]
  omega

theorem size_erase {t : HashTable κ ν} {k : κ} {v : ν} (h : t.lookup k = some v) :
    size t = size (t.erase k) + 1 := by
  have hcount := countP_values_erase h fun _ => true
  simpa [size, values] using hcount

theorem countP_values_erase_le (t : HashTable κ ν) (k : κ) (p : ν → Bool) :
    (values (t.erase k)).countP p ≤ (values t).countP p := by
  have hsub : (t.erase k).entries.Sublist t.entries := List.kerase_sublist k t.entries
  exact (hsub.map _).countP_le

theorem size_erase_le (t : HashTable κ ν) (k : κ) : size (t.erase k) ≤ size t := by
  have hcount := countP_values_erase_le t k fun _ => true
  simpa [size, values] using hcount

theorem size_insert (t : HashTable κ ν) (k : κ) (v : ν) :
    size (t.insert k v) = size (t.erase k) + 1 := rfl

theorem lookup_retain {test : κ → ν → Bool} {t : HashTable κ ν} {k : κ} {v : ν} :
    (t.retain test).lookup k = some v ↔ t.lookup k = some v ∧ test k v = true := by
  rw [← mem_entries (t := t.retain test) (e := ⟨k, v⟩), ← mem_entries (t := t) (e := ⟨k, v⟩),
    retain, List.mem_filter]

end Entries

section Numbers

variable {κ : Type} [DecidableEq κ]

/-- The sum of the values of a table. -/
def total (t : HashTable κ ℕ) : ℕ := (values t).sum

/-- The table with `v` added to the value at `k`, in arithmetic that wraps at width `w`. -/
def addAt (w : ℕ) (t : HashTable κ ℕ) (k : κ) (v : ℕ) : HashTable κ ℕ :=
  t.insert k (Word.wrappingAdd w (getD t k 0) v)

theorem getD_addAt {w : ℕ} {t : HashTable κ ℕ} {k : κ} {v : ℕ} (h : getD t k 0 + v < 2 ^ w)
    (k' : κ) : getD (addAt w t k v) k' 0 = getD t k' 0 + if k' = k then v else 0 := by
  rw [addAt, Word.wrappingAdd_of_lt h]
  by_cases hk : k' = k
  · subst hk
    simp
  · simp [hk]

end Numbers

end HashTable
