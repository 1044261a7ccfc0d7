import Mathlib.Data.List.DropRight
import Lootcoin.Gossip

/-! What a cache of seen keys remembers: the keys that it took in last, as many as it has room for.
A key that comes again while it is remembered moves nothing, and so takes no key's place. -/

namespace Lootcoin

namespace SeenCache

variable {cache : SeenCache} {key : Bytes} {log : List Bytes}

/-- The keys of a sequence that are taken in, in order. -/
def accepted : SeenCache → List Bytes → List Bytes
  | _, [] => []
  | cache, key :: keys =>
    match cache.insert key with
    | (true, cache') => key :: accepted cache' keys
    | (false, cache') => accepted cache' keys

def insertAll (cache : SeenCache) (keys : List Bytes) : SeenCache :=
  keys.foldl (fun cache key => (cache.insert key).2) cache

theorem insert_eq_false : (cache.insert key).1 = false ↔ key ∈ cache.set := by
  unfold SeenCache.insert
  split <;> simp_all

/-- The cache holds the last keys of the log, in both of its parts and each once. -/
structure Remembers (cache : SeenCache) (log : List Bytes) : Prop where
  set : cache.set = cache.order.toFinset
  nodup : cache.order.Nodup
  order : cache.order = log.rtake cache.capacity

theorem Remembers.mem_set (h : Remembers cache log) :
    key ∈ cache.set ↔ key ∈ log.rtake cache.capacity := by
  rw [h.set, List.mem_toFinset, h.order]

theorem Remembers.card (h : Remembers cache log) : cache.set.card = cache.order.length := by
  rw [h.set, List.toFinset_card_of_nodup h.nodup]

theorem Remembers.length_le (h : Remembers cache log) : cache.order.length ≤ cache.capacity := by
  rw [h.order, List.rtake, List.length_drop]
  omega

theorem remembers_new (capacity : ℕ) : Remembers (new capacity) [] :=
  ⟨rfl, List.nodup_nil, (List.rtake_nil _).symm⟩

/-- The last elements of a list without the first of them. -/
theorem tail_rtake {l : List Bytes} {n : ℕ} (h : n < l.length) :
    (l.rtake (n + 1)).tail = l.rtake n := by
  rw [List.rtake, List.rtake, List.tail_drop]
  congr 1
  omega

/-- Where the cache is full, the oldest of its keys makes room. -/
theorem Remembers.evictOldest (h : Remembers cache log) (hcap : 0 < cache.capacity)
    (hfull : cache.capacity ≤ cache.set.card) : cache.evictOldest.capacity = cache.capacity ∧
      cache.evictOldest.set = cache.evictOldest.order.toFinset ∧
      cache.evictOldest.order = log.rtake (cache.capacity - 1) := by
  have hlength : cache.order.length = cache.capacity :=
    le_antisymm h.length_le (h.card ▸ hfull)
  unfold SeenCache.evictOldest
  split
  · rename_i hnil
    rw [hnil, List.length_nil] at hlength
    omega
  · rename_i oldest rest horder
    have hold : oldest ∉ rest := (List.nodup_cons.mp (horder ▸ h.nodup)).1
    refine ⟨rfl, ?_, ?_⟩
    · show cache.set.erase oldest = rest.toFinset
      rw [h.set, horder, List.toFinset_cons, Finset.erase_insert (by simpa using hold)]
    · show rest = _
      have htail : (log.rtake cache.capacity).tail = rest := by
        rw [← h.order, horder, List.tail_cons]
      have hlog : cache.capacity - 1 < log.length := by
        have := congrArg List.length h.order
        rw [hlength, List.rtake, List.length_drop] at this
        omega
      rw [← htail, ← tail_rtake hlog, Nat.sub_add_cancel hcap]

/-- A known key changes nothing, and a new one is remembered as the last. -/
theorem Remembers.insert (h : Remembers cache log) (hcap : 0 < cache.capacity) (key : Bytes) :
    (cache.insert key).2.capacity = cache.capacity ∧
      Remembers (cache.insert key).2 (log ++ if (cache.insert key).1 then [key] else []) := by
  unfold SeenCache.insert
  split
  · simpa using h
  rename_i hnew
  set room := if cache.capacity ≤ cache.set.card then cache.evictOldest else cache with hroom
  have hkept : room.capacity = cache.capacity ∧ room.set = room.order.toFinset ∧
      room.order = log.rtake (cache.capacity - 1) := by
    rw [hroom]
    split
    · rename_i hfull
      exact h.evictOldest hcap hfull
    · rename_i hlt
      rw [h.card, h.order, List.rtake, List.length_drop] at hlt
      refine ⟨rfl, h.set, ?_⟩
      rw [h.order, List.rtake, List.rtake]
      congr 1
      omega
  obtain ⟨hcapacity, hset, horder⟩ := hkept
  -- the keys that are kept were remembered before, and the new one was not
  have hfresh : key ∉ room.order := by
    intro hmem
    refine hnew (h.mem_set.mpr ?_)
    rw [horder, List.rtake] at hmem
    exact List.drop_subset_drop_left _ (by omega) hmem
  have hnodup : room.order.Nodup := by
    rw [horder]
    refine List.Nodup.sublist ?_ h.nodup
    rw [h.order, List.rtake, List.rtake]
    exact List.drop_sublist_drop_left _ (by omega)
  refine ⟨hcapacity, ?_, ?_, ?_⟩
  · ext k
    simp [hset]
  · show (room.order ++ [key]).Nodup
    exact List.nodup_append.mpr ⟨hnodup, List.nodup_singleton _, by grind⟩
  · show room.order ++ [key] = (log ++ [key]).rtake room.capacity
    rw [hcapacity, ← Nat.sub_add_cancel hcap, List.rtake_concat_succ, ← horder]

theorem Remembers.insertAll (h : Remembers cache log) (hcap : 0 < cache.capacity)
    (keys : List Bytes) : (cache.insertAll keys).capacity = cache.capacity ∧
      Remembers (cache.insertAll keys) (log ++ accepted cache keys) := by
  induction keys generalizing cache log with
  | nil => simpa [SeenCache.insertAll, accepted] using h
  | cons key keys ih =>
    obtain ⟨hcapacity, hstep⟩ := h.insert hcap key
    obtain ⟨hcapacity', hrest⟩ := ih hstep (hcapacity ▸ hcap)
    refine ⟨hcapacity'.trans hcapacity, ?_⟩
    have hlog : log ++ accepted cache (key :: keys) =
        log ++ (if (cache.insert key).1 then [key] else []) ++
          accepted (cache.insert key).2 keys := by
      rw [accepted, List.append_assoc]
      split <;> simp_all
    rw [hlog]
    exact hrest

/-- A cache with room for a key holds the last keys that it took in, each once in both of its parts,
and refuses a key exactly when that is one of them. -/
theorem remembers_last (capacity : ℕ) (hcap : 1 ≤ capacity) (keys : List Bytes) (key : Bytes) :
    let cache := (new capacity).insertAll keys
    cache.set = cache.order.toFinset ∧ cache.order.Nodup ∧ cache.order.length ≤ capacity ∧
      cache.set.card ≤ capacity ∧
      ((cache.insert key).1 = false ↔ key ∈ (accepted (new capacity) keys).rtake capacity) := by
  obtain ⟨hcapacity, h⟩ := (remembers_new capacity).insertAll hcap keys
  rw [List.nil_append] at h
  have hlength : ((new capacity).insertAll keys).order.length ≤ capacity :=
    h.length_le.trans hcapacity.le
  refine ⟨h.set, h.nodup, hlength, h.card.trans_le hlength, ?_⟩
  have hmem : key ∈ ((new capacity).insertAll keys).set ↔
      key ∈ (accepted (new capacity) keys).rtake capacity := by
    rw [h.mem_set, hcapacity]
    rfl
  exact insert_eq_false.trans hmem

end SeenCache

namespace Sample

open SeenCache

/-- The fourth key takes the place of the first, which is then new, and a repeated key changes
nothing. -/
theorem fourKeys_remembered :
    accepted (new 3) [[1], [2], [2], [3], [4]] = [[1], [2], [3], [4]] ∧
    (((new 3).insertAll [[1], [2], [2], [3], [4]]).insert [2]).1 = false ∧
    (((new 3).insertAll [[1], [2], [2], [3], [4]]).insert [1]).1 = true := by
  have haccepted : accepted (new 3) [[1], [2], [2], [3], [4]] = [[1], [2], [3], [4]] := by decide
  refine ⟨haccepted, ?_, ?_⟩
  · refine (remembers_last 3 (by decide) [[1], [2], [2], [3], [4]] [2]).2.2.2.2.mpr ?_
    rw [haccepted]
    decide
  · have hold := (remembers_last 3 (by decide) [[1], [2], [2], [3], [4]] [1]).2.2.2.2
    rw [haccepted] at hold
    exact Bool.eq_true_of_not_eq_false (fun h => absurd (hold.mp h) (by decide))

end Sample

end Lootcoin
