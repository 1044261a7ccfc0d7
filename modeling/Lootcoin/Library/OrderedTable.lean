import Mathlib.Data.List.Sort
import Mathlib.Data.List.Range
import Mathlib.Data.List.Nodup
import Mathlib.Data.List.Perm.Subperm
import Mathlib.Order.Nat

/-! Ordered tables: finite maps whose entries are listed by increasing key, as a database keeps
them, with point reads, inserts, removals, and reads of a range of keys.  A table is determined by
its point reads. -/

/-- A finite map with its entries in increasing order of the keys. -/
structure OrderedTable (κ ν : Type) [LinearOrder κ] where
  entries : List (κ × ν)
  sorted : entries.Pairwise fun a b => a.1 < b.1

namespace OrderedTable

variable {κ ν : Type} [LinearOrder κ]

def empty : OrderedTable κ ν := ⟨[], List.Pairwise.nil⟩

/-- The value at `k`. -/
def get (t : OrderedTable κ ν) (k : κ) : Option ν :=
  (t.entries.find? fun e => e.1 = k).map Prod.snd

/-- The entries with the one at `k` added or replaced. -/
def insertEntry (k : κ) (v : ν) : List (κ × ν) → List (κ × ν)
  | [] => [(k, v)]
  | e :: l =>
    if k < e.1 then (k, v) :: e :: l
    else if k = e.1 then (k, v) :: l
    else e :: insertEntry k v l

theorem mem_insertEntry {k : κ} {v : ν} {l : List (κ × ν)} {e : κ × ν} :
    e ∈ insertEntry k v l → e = (k, v) ∨ e ∈ l := by
  induction l with
  | nil => simp [insertEntry]
  | cons e' l ih =>
    simp only [insertEntry]
    split
    · simp
    · split
      · simp only [List.mem_cons]
        tauto
      · simp only [List.mem_cons]
        rintro (h | h)
        · exact .inr (.inl h)
        · rcases ih h with h | h
          · exact .inl h
          · exact .inr (.inr h)

theorem sorted_insertEntry (k : κ) (v : ν) {l : List (κ × ν)}
    (h : l.Pairwise fun a b => a.1 < b.1) :
    (insertEntry k v l).Pairwise fun a b => a.1 < b.1 := by
  induction l with
  | nil => simp [insertEntry]
  | cons e l ih =>
    obtain ⟨he, hl⟩ := List.pairwise_cons.mp h
    simp only [insertEntry]
    split
    · rename_i hk
      refine List.pairwise_cons.mpr ⟨fun e' h' => ?_, h⟩
      rcases List.mem_cons.mp h' with rfl | h'
      · exact hk
      · exact hk.trans (he e' h')
    · split
      · rename_i hk
        exact List.pairwise_cons.mpr ⟨fun e' h' => hk ▸ he e' h', hl⟩
      · rename_i hlt hne
        refine List.pairwise_cons.mpr ⟨fun e' h' => ?_, ih hl⟩
        rcases mem_insertEntry h' with rfl | h'
        · exact lt_of_le_of_ne (not_lt.mp hlt) (Ne.symm hne)
        · exact he e' h'

def insert (t : OrderedTable κ ν) (k : κ) (v : ν) : OrderedTable κ ν :=
  ⟨insertEntry k v t.entries, sorted_insertEntry k v t.sorted⟩

def remove (t : OrderedTable κ ν) (k : κ) : OrderedTable κ ν :=
  ⟨t.entries.filter fun e => e.1 ≠ k, t.sorted.filter _⟩

/-- The table without the keys from `lo` on. -/
def removeFrom (t : OrderedTable κ ν) (lo : κ) : OrderedTable κ ν :=
  ⟨t.entries.filter fun e => e.1 < lo, t.sorted.filter _⟩

/-- The entries with keys from `lo` up to but not including `hi`, in the order of the keys. -/
def entriesBetween (t : OrderedTable κ ν) (lo hi : κ) : List (κ × ν) :=
  t.entries.filter fun e => lo ≤ e.1 ∧ e.1 < hi

/-- The values at the keys from `lo` up to but not including `hi`, in the order of the keys. -/
def range (t : OrderedTable κ ν) (lo hi : κ) : List ν :=
  (t.entries.filter fun e => lo ≤ e.1 ∧ e.1 < hi).map Prod.snd

/-- The values at the keys from `lo` on, in the order of the keys. -/
def rangeFrom (t : OrderedTable κ ν) (lo : κ) : List ν :=
  (t.entries.filter fun e => lo ≤ e.1).map Prod.snd

/-- Every value, in the order of the keys. -/
def values (t : OrderedTable κ ν) : List ν := t.entries.map Prod.snd

/-- The entry with the largest key. -/
def last (t : OrderedTable κ ν) : Option (κ × ν) := t.entries.getLast?

theorem nodup_keys (t : OrderedTable κ ν) : (t.entries.map Prod.fst).Nodup := by
  rw [List.nodup_iff_pairwise_ne, List.pairwise_map]
  exact t.sorted.imp fun h => h.ne

theorem nodup_entries (t : OrderedTable κ ν) : t.entries.Nodup := t.nodup_keys.of_map

theorem mem_entries {t : OrderedTable κ ν} {k : κ} {v : ν} :
    (k, v) ∈ t.entries ↔ t.get k = some v := by
  simp only [get, Option.map_eq_some_iff]
  constructor
  · intro h
    cases hf : t.entries.find? fun e => e.1 = k with
    | none => simpa using List.find?_eq_none.mp hf _ h
    | some e =>
      have hm := List.mem_of_find?_eq_some hf
      have hk : e.1 = k := by simpa using List.find?_some hf
      exact ⟨e, rfl, by rw [List.inj_on_of_nodup_map t.nodup_keys hm h hk]⟩
  · rintro ⟨e, hf, rfl⟩
    have hk : e.1 = k := by simpa using List.find?_some hf
    exact hk ▸ List.mem_of_find?_eq_some hf

theorem insertEntry_of_lt {k : κ} {v : ν} {l : List (κ × ν)} (h : ∀ e ∈ l, e.1 < k) :
    insertEntry k v l = l ++ [(k, v)] := by
  induction l with
  | nil => rfl
  | cons e l ih =>
    have he := h e List.mem_cons_self
    rw [insertEntry, if_neg he.le.not_gt, if_neg he.ne',
      ih fun e' h' => h e' (List.mem_cons_of_mem _ h'), List.cons_append]

/-- Entries that are inserted by increasing key are listed in that order. -/
theorem entries_foldl_insert {α : Type} {key : α → κ} {value : α → ν} {l : List α}
    (h : l.Pairwise fun a b => key a < key b) {t : OrderedTable κ ν}
    (ht : ∀ e ∈ t.entries, ∀ a ∈ l, e.1 < key a) :
    (l.foldl (fun t a => t.insert (key a) (value a)) t).entries =
      t.entries ++ l.map fun a => (key a, value a) := by
  induction l generalizing t with
  | nil => simp
  | cons a l ih =>
    obtain ⟨ha, hl⟩ := List.pairwise_cons.mp h
    have hinsert : (t.insert (key a) (value a)).entries = t.entries ++ [(key a, value a)] :=
      insertEntry_of_lt fun e he => ht e he a List.mem_cons_self
    rw [List.foldl_cons, ih hl, hinsert, List.append_assoc, List.map_cons, List.singleton_append]
    intro e he b hb
    rw [hinsert] at he
    rcases List.mem_append.mp he with he | he
    · exact ht e he b (List.mem_cons_of_mem _ hb)
    · rw [List.mem_singleton.mp he]
      exact ha b hb

theorem mem_insertEntry_self (k : κ) (v : ν) (l : List (κ × ν)) : (k, v) ∈ insertEntry k v l := by
  induction l with
  | nil => simp [insertEntry]
  | cons e l ih =>
    simp only [insertEntry]
    split
    · simp
    · split
      · simp
      · simp [ih]

theorem mem_insertEntry_of_ne {k : κ} {v : ν} {l : List (κ × ν)} {e : κ × ν} (he : e ∈ l)
    (hk : e.1 ≠ k) : e ∈ insertEntry k v l := by
  induction l with
  | nil => simp at he
  | cons e' l ih =>
    simp only [insertEntry]
    rcases List.mem_cons.mp he with rfl | he'
    · split
      · simp
      · split
        · rename_i h
          exact absurd h.symm hk
        · simp
    · split
      · simp [he']
      · split
        · simp [he']
        · simp [ih he']

@[simp] theorem get_empty (k : κ) : (empty : OrderedTable κ ν).get k = none := rfl

@[simp] theorem get_insert (t : OrderedTable κ ν) (k : κ) (v : ν) : (t.insert k v).get k = some v :=
  mem_entries.mp (mem_insertEntry_self k v t.entries)

theorem get_insert_ne (t : OrderedTable κ ν) {k k' : κ} (v : ν) (h : k' ≠ k) :
    (t.insert k v).get k' = t.get k' := by
  apply Option.ext
  intro w
  rw [← mem_entries, ← mem_entries]
  constructor
  · intro hm
    rcases mem_insertEntry hm with he | he
    · exact absurd (congrArg Prod.fst he) h
    · exact he
  · exact fun hm => mem_insertEntry_of_ne hm h

/-- A new entry comes beside those that are there. -/
theorem perm_insertEntry {k : κ} {v : ν} {l : List (κ × ν)} (h : ∀ e ∈ l, e.1 ≠ k) :
    (insertEntry k v l).Perm ((k, v) :: l) := by
  induction l with
  | nil => exact .refl _
  | cons e l ih =>
    have hne := h e List.mem_cons_self
    rw [insertEntry]
    split
    · exact .refl _
    · rw [if_neg hne.symm]
      exact ((ih fun e' he' => h e' (List.mem_cons_of_mem _ he')).cons e).trans (.swap _ _ _)

theorem perm_values_insert {t : OrderedTable κ ν} {k : κ} (h : t.get k = none) (v : ν) :
    (t.insert k v).values.Perm (v :: t.values) := by
  refine (perm_insertEntry fun e he hk => ?_).map Prod.snd
  have hget := mem_entries.mp (show (k, e.2) ∈ t.entries from hk ▸ he)
  rw [h] at hget
  cases hget

/-- What a table of one entry holds. -/
theorem get_insert_empty {k k' : κ} {v v' : ν} :
    ((empty : OrderedTable κ ν).insert k v).get k' = some v' ↔ k' = k ∧ v' = v := by
  by_cases hk : k' = k
  · rw [hk, get_insert, Option.some.injEq]
    exact ⟨fun h => ⟨rfl, h.symm⟩, fun h => h.2.symm⟩
  · rw [get_insert_ne _ _ hk, get_empty]
    exact ⟨nofun, fun h => absurd h.1 hk⟩

theorem get_remove (t : OrderedTable κ ν) (k k' : κ) :
    (t.remove k).get k' = if k' = k then none else t.get k' := by
  apply Option.ext
  intro w
  rw [← mem_entries]
  split
  · simp [remove, *]
  · rename_i h
    simp [remove, h, mem_entries]

theorem get_removeFrom (t : OrderedTable κ ν) (lo k : κ) :
    (t.removeFrom lo).get k = if k < lo then t.get k else none := by
  apply Option.ext
  intro w
  rw [← mem_entries]
  split
  · rename_i h
    simp [removeFrom, h, mem_entries]
  · rename_i h
    simpa [removeFrom] using fun _ => not_lt.mp h

/-- A table is determined by its point reads. -/
theorem ext_get {t t' : OrderedTable κ ν} (h : ∀ k, t.get k = t'.get k) : t = t' := by
  have hentries : t.entries = t'.entries := by
    refine List.Perm.eq_of_pairwise (fun _ _ _ _ h1 h2 => absurd h1 (not_lt.mpr h2.le)) t.sorted
      t'.sorted ((List.perm_ext_iff_of_nodup t.nodup_entries t'.nodup_entries).mpr fun e => ?_)
    rw [← Prod.mk.eta (p := e), mem_entries, mem_entries, h]
  cases t
  cases t'
  cases hentries
  rfl

/-! ### Several writes -/

/-- Inserts entries, one after the other. -/
def insertAll (t : OrderedTable κ ν) (es : List (κ × ν)) : OrderedTable κ ν :=
  es.foldl (fun t e => t.insert e.1 e.2) t

/-- Removes keys, one after the other. -/
def removeAll (t : OrderedTable κ ν) (ks : List κ) : OrderedTable κ ν := ks.foldl remove t

@[simp] theorem insertAll_nil (t : OrderedTable κ ν) : t.insertAll [] = t := rfl

theorem insertAll_append (t : OrderedTable κ ν) (es es' : List (κ × ν)) :
    t.insertAll (es ++ es') = (t.insertAll es).insertAll es' :=
  List.foldl_append

/-- A key reads what the writes gave it last, or what it held before. -/
theorem get_insertAll (t : OrderedTable κ ν) (es : List (κ × ν)) (k : κ) :
    (t.insertAll es).get k = ((empty.insertAll es).get k).or (t.get k) := by
  induction es using List.reverseRecOn with
  | nil => simp
  | append_singleton es e ih =>
    rw [insertAll_append, insertAll_append]
    show ((t.insertAll es).insert e.1 e.2).get k =
      (((empty.insertAll es).insert e.1 e.2).get k).or (t.get k)
    by_cases hk : k = e.1
    · rw [hk, get_insert, get_insert, Option.some_or]
    · rw [get_insert_ne _ _ hk, get_insert_ne _ _ hk, ih]

/-- A key that is not among the written ones reads what it held before. -/
theorem get_insertAll_of_notMem {t : OrderedTable κ ν} {es : List (κ × ν)} {k : κ}
    (h : k ∉ es.map Prod.fst) : (t.insertAll es).get k = t.get k := by
  induction es using List.reverseRecOn with
  | nil => rfl
  | append_singleton es e ih =>
    rw [List.map_append, List.mem_append, not_or, List.map_singleton, List.mem_singleton] at h
    rw [insertAll_append]
    exact (get_insert_ne _ _ h.2).trans (ih h.1)

/-- A key that is among the written ones reads a value. -/
theorem exists_get_insertAll_of_mem {t : OrderedTable κ ν} {es : List (κ × ν)} {k : κ}
    (h : k ∈ es.map Prod.fst) : ∃ v, (t.insertAll es).get k = some v := by
  induction es using List.reverseRecOn with
  | nil => simp at h
  | append_singleton es e ih =>
    rw [insertAll_append]
    show ∃ v, ((t.insertAll es).insert e.1 e.2).get k = some v
    by_cases hk : k = e.1
    · exact ⟨e.2, by rw [hk, get_insert]⟩
    · rw [get_insert_ne _ _ hk]
      rw [List.map_append, List.mem_append, List.map_singleton, List.mem_singleton] at h
      exact ih (h.resolve_right hk)

/-- What an empty table reads after writes is one of the values written at the key. -/
theorem mem_of_get_insertAll_empty {es : List (κ × ν)} {k : κ} {v : ν}
    (h : (empty.insertAll es).get k = some v) : (k, v) ∈ es := by
  induction es using List.reverseRecOn with
  | nil => simp at h
  | append_singleton es e ih =>
    rw [insertAll_append] at h
    replace h : ((empty.insertAll es).insert e.1 e.2).get k = some v := h
    by_cases hk : k = e.1
    · rw [hk, get_insert, Option.some.injEq] at h
      simp [hk, ← h]
    · rw [get_insert_ne _ _ hk] at h
      exact List.mem_append_left _ (ih h)

/-- Writes in groups: a key that only one group can write reads what that group gives it. -/
theorem get_insertAll_flatMap_of_mem {α : Type} {l : List α} {entries : α → List (κ × ν)} {a : α}
    {k : κ} (ha : a ∈ l) (honly : ∀ a' ∈ l, k ∈ (entries a').map Prod.fst → a' = a) :
    (empty.insertAll (l.flatMap entries)).get k = (empty.insertAll (entries a)).get k := by
  induction l with
  | nil => simp at ha
  | cons b l ih =>
    have hrest := fun a' h => honly a' (List.mem_cons_of_mem b h)
    rw [List.flatMap_cons, insertAll_append, get_insertAll]
    by_cases hmem : a ∈ l
    · rw [ih hmem hrest]
      by_cases hb : k ∈ (entries b).map Prod.fst
      · rw [honly b List.mem_cons_self hb, Option.or_self]
      · rw [get_insertAll_of_notMem hb, get_empty, Option.or_none]
    · obtain rfl := (List.mem_cons.mp ha).resolve_right hmem
      have hnone : k ∉ (l.flatMap entries).map Prod.fst := by
        rw [List.map_flatMap, List.mem_flatMap]
        rintro ⟨a', ha', hk⟩
        exact hmem (hrest a' ha' hk ▸ ha')
      rw [get_insertAll_of_notMem hnone, get_empty, Option.none_or]

/-- Where no group but that of `o` can write a key, the key reads what `o` gives it. -/
theorem get_insertAll_flatMap {α : Type} {l : List α} {entries : α → List (κ × ν)} {k : κ}
    {o : Option α} (ho : ∀ a ∈ o, a ∈ l)
    (honly : ∀ a ∈ l, k ∈ (entries a).map Prod.fst → o = some a) :
    (empty.insertAll (l.flatMap entries)).get k =
      o.bind fun a => (empty.insertAll (entries a)).get k := by
  cases o with
  | none =>
    have hnone : k ∉ (l.flatMap entries).map Prod.fst := by
      rw [List.map_flatMap, List.mem_flatMap]
      rintro ⟨a, ha, hk⟩
      simpa using honly a ha hk
    rw [get_insertAll_of_notMem hnone, get_empty, Option.bind_none]
  | some a =>
    exact get_insertAll_flatMap_of_mem (ho a rfl) fun a' ha' hk =>
      (Option.some.inj (honly a' ha' hk)).symm

theorem get_removeAll (t : OrderedTable κ ν) (ks : List κ) (k : κ) :
    (t.removeAll ks).get k = if k ∈ ks then none else t.get k := by
  induction ks using List.reverseRecOn with
  | nil => simp [removeAll]
  | append_singleton ks k' ih =>
    have hsnoc : t.removeAll (ks ++ [k']) = (t.removeAll ks).remove k' := List.foldl_append
    rw [hsnoc, get_remove, ih]
    by_cases hk : k = k'
    · simp [hk]
    · simp [hk]

theorem mem_entriesBetween {t : OrderedTable κ ν} {lo hi : κ} {e : κ × ν} :
    e ∈ t.entriesBetween lo hi ↔ t.get e.1 = some e.2 ∧ lo ≤ e.1 ∧ e.1 < hi := by
  rw [entriesBetween, List.mem_filter, decide_eq_true_eq, ← mem_entries]

theorem mem_range {t : OrderedTable κ ν} {lo hi : κ} {v : ν} :
    v ∈ t.range lo hi ↔ ∃ k, lo ≤ k ∧ k < hi ∧ t.get k = some v := by
  simp only [range, List.mem_map, List.mem_filter, decide_eq_true_eq, Prod.exists]
  constructor
  · rintro ⟨k, w, ⟨hm, h1, h2⟩, rfl⟩
    exact ⟨k, h1, h2, mem_entries.mp hm⟩
  · rintro ⟨k, h1, h2, hg⟩
    exact ⟨k, v, ⟨mem_entries.mpr hg, h1, h2⟩, rfl⟩

/-! ### Tables whose keys are numbers -/

section Numbered

/-- A range of numbered entries lists the values at the numbers of the range. -/
theorem range_eq_filterMap (t : OrderedTable ℕ ν) (lo n : ℕ) :
    t.range lo (lo + n) = (List.range' lo n).filterMap t.get := by
  have hmap : ∀ l : List ℕ, (l.filterMap fun k => (t.get k).map fun v => (k, v)).map Prod.snd =
      l.filterMap t.get := by
    intro l
    rw [List.map_filterMap]
    congr 1
    funext k
    cases t.get k <;> rfl
  rw [← hmap, range]
  congr 1
  have hright : ((List.range' lo n).filterMap fun k => (t.get k).map fun v => (k, v)).Pairwise
      fun a b => a.1 < b.1 := by
    have hlt : (List.range' lo n).Pairwise fun a b => a < b :=
      List.pairwise_lt_range' 1 Nat.one_pos
    apply hlt.filterMap _
    intro a b hab x hx y hy
    simp only [Option.map_eq_some_iff] at hx hy
    obtain ⟨_, _, rfl⟩ := hx
    obtain ⟨_, _, rfl⟩ := hy
    exact hab
  refine List.Perm.eq_of_pairwise (fun _ _ _ _ h1 h2 => absurd h1 (not_lt.mpr h2.le))
    (t.sorted.filter _) hright ?_
  refine (List.perm_ext_iff_of_nodup (t.nodup_entries.filter _)
    (hright.imp fun h => fun e => absurd (congrArg Prod.fst e) h.ne)).mpr ?_
  rintro ⟨k, v⟩
  simp only [List.mem_filter, decide_eq_true_eq, List.mem_filterMap, List.mem_range'_1,
    Option.map_eq_some_iff, Prod.mk.injEq, mem_entries]
  constructor
  · rintro ⟨hg, h⟩
    exact ⟨k, h, v, hg, rfl, rfl⟩
  · rintro ⟨k', h, v', hg, rfl, rfl⟩
    exact ⟨hg, h⟩

theorem range_of_le (t : OrderedTable ℕ ν) {lo hi : ℕ} (h : lo ≤ hi) :
    t.range lo hi = (List.range' lo (hi - lo)).filterMap t.get := by
  rw [← range_eq_filterMap, Nat.add_sub_cancel' h]

/-- A table that holds a list and nothing else reads its segments, as far as the list goes. -/
theorem range_eq_take {t : OrderedTable ℕ ν} {l : List ν} (h : ∀ i, t.get i = l[i]?) (lo n : ℕ) :
    t.range lo (lo + n) = (l.drop lo).take n := by
  rw [range_eq_filterMap]
  induction n generalizing lo with
  | zero => rfl
  | succ n ih =>
    rw [List.range'_succ]
    cases hlo : l[lo]? with
    | none =>
      have hdrop : ∀ k, lo ≤ k → l.drop k = [] := fun k hk =>
        List.drop_eq_nil_iff.mpr ((List.getElem?_eq_none_iff.mp hlo).trans hk)
      rw [List.filterMap_cons_none ((h lo).trans hlo), ih, hdrop lo le_rfl,
        hdrop (lo + 1) (Nat.le_succ lo), List.take_nil, List.take_nil]
    | some v =>
      obtain ⟨hlt, rfl⟩ := List.getElem?_eq_some_iff.mp hlo
      rw [List.filterMap_cons_some ((h lo).trans hlo), ih, List.drop_eq_getElem_cons hlt,
        List.take_succ_cons]

/-- A table that holds a list at the positions of the list reads its segments. -/
theorem range_eq_drop_take {t : OrderedTable ℕ ν} {l : List ν} {lo hi : ℕ} (hlo : lo ≤ hi)
    (hhi : hi ≤ l.length) (h : ∀ i < l.length, t.get i = l[i]?) :
    t.range lo hi = (l.take hi).drop lo := by
  rw [range_of_le t hlo]
  induction hi with
  | zero =>
    obtain rfl : lo = 0 := by omega
    simp
  | succ n ih =>
    by_cases hn : lo = n + 1
    · subst hn
      rw [Nat.sub_self, List.range'_zero, List.drop_eq_nil_of_le (by simp)]
      rfl
    · rw [show n + 1 - lo = (n - lo) + 1 by omega, List.range'_concat, List.filterMap_append,
        ih (by omega) (by omega), List.take_add_one,
        List.drop_append_of_le_length (by simp; omega)]
      have hget : t.get n = some l[n] := by
        rw [h n (by omega)]
        exact List.getElem?_eq_getElem (by omega)
      rw [show lo + 1 * (n - lo) = n by omega, List.getElem?_eq_getElem (by omega)]
      simp [hget]

theorem range_zero {t : OrderedTable ℕ ν} {l : List ν} {hi : ℕ} (hhi : hi ≤ l.length)
    (h : ∀ i < l.length, t.get i = l[i]?) : t.range 0 hi = l.take hi := by
  rw [range_eq_drop_take (Nat.zero_le _) hhi h, List.drop_zero]

/-- A table whose values are a list that it holds at the positions of the list holds nothing
else. -/
theorem get_of_values {t : OrderedTable ℕ ν} {l : List ν} (hv : t.values = l)
    (h : ∀ i < l.length, t.get i = l[i]?) (i : ℕ) : t.get i = l[i]? := by
  by_cases hi : i < l.length
  · exact h i hi
  rw [List.getElem?_eq_none (Nat.not_lt.mp hi)]
  by_contra hne
  obtain ⟨v, hv'⟩ := Option.ne_none_iff_exists'.mp hne
  -- the positions of the list and one more key would be too many keys
  have hsub : List.range l.length ++ [i] ⊆ t.entries.map Prod.fst := by
    intro k hk
    rcases List.mem_append.mp hk with hk | hk
    · have hlt := List.mem_range.mp hk
      exact List.mem_map.mpr
        ⟨_, mem_entries.mpr ((h k hlt).trans (List.getElem?_eq_getElem hlt)), rfl⟩
    · exact List.mem_map.mpr ⟨_, mem_entries.mpr hv', (List.mem_singleton.mp hk).symm⟩
  have hnodup : (List.range l.length ++ [i]).Nodup := by
    rw [List.nodup_append]
    refine ⟨List.nodup_range, List.nodup_singleton i, fun a ha b hb => ?_⟩
    have := List.mem_range.mp ha
    have := List.mem_singleton.mp hb
    omega
  have hle := (hnodup.subperm hsub).length_le
  have hlen := congrArg List.length hv
  simp only [values, List.length_append, List.length_range, List.length_map,
    List.length_singleton] at hle hlen
  omega

/-- Such a table reads the rest of the list from a position on. -/
theorem rangeFrom_eq_drop {t : OrderedTable ℕ ν} {l : List ν} (h : ∀ i, t.get i = l[i]?) (lo : ℕ) :
    t.rangeFrom lo = l.drop lo := by
  have hkeys : ∀ e ∈ t.entries, e.1 < l.length := fun e he => by
    have := (h e.1).symm.trans (mem_entries.mp he)
    exact (List.getElem?_eq_some_iff.mp this).1
  have hrange : t.rangeFrom lo = t.range lo (max lo l.length) := by
    unfold rangeFrom range
    congr 1
    apply List.filter_congr
    intro e he
    have := hkeys e he
    simp only [decide_eq_decide]
    omega
  rw [hrange]
  by_cases hlo : lo ≤ l.length
  · rw [Nat.max_eq_right hlo, range_eq_drop_take hlo (Nat.le_refl _) fun i _ => h i,
      List.take_length]
  · rw [Nat.max_eq_left (Nat.le_of_not_le hlo), range_of_le t (Nat.le_refl _), Nat.sub_self,
      List.drop_eq_nil_of_le (Nat.le_of_not_le hlo)]
    rfl

end Numbered

/-- The values of a table begin with the one at key zero, if there is one. -/
theorem values_of_get_zero {t : OrderedTable ℕ ν} {v : ν}
    (h : t.get 0 = some v) : ∃ rest, t.values = v :: rest := by
  have hmem := mem_entries.mpr h
  obtain ⟨e, entries, hentries⟩ := List.exists_cons_of_ne_nil (List.ne_nil_of_mem hmem)
  have hsorted := t.sorted
  rw [hentries] at hmem hsorted
  rcases List.mem_cons.mp hmem with rfl | hmem
  · exact ⟨entries.map Prod.snd, by rw [values, hentries, List.map_cons]⟩
  · exact absurd ((List.pairwise_cons.mp hsorted).1 _ hmem) (Nat.not_lt_zero _)

end OrderedTable
