import Mathlib.Data.Finset.Card
import Lootcoin.Library.Runs
import Lootcoin.Library.Words

/-! The limit on event streams.  A handler counts itself before it knows whether the limit was
reached; then it takes itself off again, or its guard does so when the stream is dropped.  However
the handlers come between each other, no more streams are open than the limit allows, and the
counter is the number of handlers that have yet to take themselves off. -/

namespace Lootcoin

namespace Sse

def maxSseSubscribers : ℕ := 100

/-- The counter, with the handlers whose streams hold a guard and those that were above the limit
and have yet to take themselves off. -/
structure Subscribers (ι : Type) where
  counter : ℕ
  guards : Finset ι
  above : Finset ι

namespace Subscribers

variable {ι : Type} [DecidableEq ι]

inductive Event (ι : Type)
  | fetchAdd (i : ι)
  | reject (i : ι)
  | drop (i : ι)

/-- One atomic operation on the counter. A handler that counts itself has not done so before. -/
inductive Steps : Subscribers ι → Event ι → Subscribers ι → Prop
  | enter {s : Subscribers ι} {i : ι} : i ∉ s.guards → i ∉ s.above →
      s.counter < maxSseSubscribers → Steps s (.fetchAdd i)
        ⟨Word.wrappingAdd 64 s.counter 1, insert i s.guards, s.above⟩
  | exceed {s : Subscribers ι} {i : ι} : i ∉ s.guards → i ∉ s.above →
      maxSseSubscribers ≤ s.counter → Steps s (.fetchAdd i)
        ⟨Word.wrappingAdd 64 s.counter 1, s.guards, insert i s.above⟩
  | reject {s : Subscribers ι} {i : ι} : i ∈ s.above →
      Steps s (.reject i) ⟨Word.wrappingSub 64 s.counter 1, s.guards, s.above.erase i⟩
  | drop {s : Subscribers ι} {i : ι} : i ∈ s.guards →
      Steps s (.drop i) ⟨Word.wrappingSub 64 s.counter 1, s.guards.erase i, s.above⟩

def empty : Subscribers ι := ⟨0, ∅, ∅⟩

variable {s s' : Subscribers ι} {e : Event ι} {es : List (Event ι)} {i : ι}

/-- The counter counts the handlers, and no more of them have guards than the limit allows. -/
structure Counted (s : Subscribers ι) : Prop where
  counter : s.counter = s.guards.card + s.above.card
  guards : s.guards.card ≤ maxSseSubscribers

/-- A step keeps the count, and adds one to it at most, as long as it fits. -/
theorem Steps.counted (h : Steps s e s') (hs : s.Counted) (hfits : s.counter + 1 < 2 ^ 64) :
    s'.Counted ∧ s'.counter ≤ s.counter + 1 := by
  have hcounter := hs.counter
  have hguards := hs.guards
  cases h with
  | @enter i hnew _ hbelow =>
    rw [Word.wrappingAdd_of_lt hfits]
    refine ⟨⟨?_, ?_⟩, Nat.le_refl _⟩
    · show s.counter + 1 = (insert i s.guards).card + s.above.card
      rw [Finset.card_insert_of_notMem hnew]
      omega
    · show (insert i s.guards).card ≤ _
      rw [Finset.card_insert_of_notMem hnew]
      omega
  | @exceed i _ hnew habove =>
    rw [Word.wrappingAdd_of_lt hfits]
    refine ⟨⟨?_, hguards⟩, Nat.le_refl _⟩
    show s.counter + 1 = s.guards.card + (insert i s.above).card
    rw [Finset.card_insert_of_notMem hnew]
    omega
  | @reject i hmem =>
    have hpos := Finset.card_pos.mpr ⟨_, hmem⟩
    rw [Word.wrappingSub_of_le (by omega) (by omega)]
    refine ⟨⟨?_, hguards⟩, (Nat.sub_le _ _).trans (Nat.le_succ _)⟩
    show s.counter - 1 = s.guards.card + (s.above.erase i).card
    rw [Finset.card_erase_of_mem hmem]
    omega
  | @drop i hmem =>
    have hpos := Finset.card_pos.mpr ⟨_, hmem⟩
    rw [Word.wrappingSub_of_le (by omega) (by omega)]
    refine ⟨⟨?_, ?_⟩, (Nat.sub_le _ _).trans (Nat.le_succ _)⟩
    · show s.counter - 1 = (s.guards.erase i).card + s.above.card
      rw [Finset.card_erase_of_mem hmem]
      omega
    · exact (Finset.card_erase_le).trans hguards

theorem counted_of_run (run : Runs.Run Steps s es s') (hs : s.Counted)
    (hfits : s.counter + es.length < 2 ^ 64) : s'.Counted := by
  induction run with
  | nil => exact hs
  | cons h _ ih =>
    rw [List.length_cons] at hfits
    obtain ⟨hcounted, hle⟩ := h.counted hs (by omega)
    exact ih hcounted (by omega)

/-- However the handlers come between each other, no more streams are open than the limit allows,
the counter is exact, and the next handler is let in exactly when the streams and the handlers that
were above the limit and have yet to take themselves off are fewer than that. -/
theorem limited_of_run (run : Runs.Run Steps empty es s) (hfits : es.length < 2 ^ 64) :
    s.guards.card ≤ maxSseSubscribers ∧ s.counter = s.guards.card + s.above.card ∧
      ∀ i s', Steps s (.fetchAdd i) s' →
        (i ∈ s'.guards ↔ s.guards.card + s.above.card < maxSseSubscribers) := by
  have hempty : (empty : Subscribers ι).Counted := ⟨rfl, Nat.zero_le _⟩
  obtain ⟨hcounter, hguards⟩ := counted_of_run run hempty (by simpa [empty] using hfits)
  refine ⟨hguards, hcounter, fun i s' hstep => ?_⟩
  rw [← hcounter]
  cases hstep with
  | enter _ _ hbelow => exact iff_of_true (Finset.mem_insert_self _ _) hbelow
  | exceed hnew _ habove => exact iff_of_false hnew (by omega)

/-- As many handlers as the limit allows are let in, one after the other. -/
theorem run_of_range {n : ℕ} (hn : n ≤ maxSseSubscribers) :
    Runs.Run Steps (empty : Subscribers ℕ) ((List.range n).map .fetchAdd)
      ⟨n, Finset.range n, ∅⟩ := by
  induction n with
  | zero => exact .nil _
  | succ n ih =>
    have hlimit : maxSseSubscribers = 100 := rfl
    rw [List.range_succ, List.map_append]
    apply (ih (by omega)).snoc
    have hstep : Steps (⟨n, Finset.range n, ∅⟩ : Subscribers ℕ) (.fetchAdd n) _ :=
      .enter Finset.notMem_range_self (Finset.notMem_empty n) (show n < maxSseSubscribers from hn)
    rwa [Word.wrappingAdd_of_lt (show n + 1 < 2 ^ 64 by omega), ← Finset.range_add_one] at hstep

/-- A handler above the limit has yet to take itself off when a stream is dropped: the next one is
refused, with one stream fewer than the limit allows. -/
theorem refused_below_limit : ∃ (es : List (Event ℕ)) (s s' : Subscribers ℕ),
    Runs.Run Steps empty es s ∧ Steps s (.fetchAdd 101) s' ∧ 101 ∉ s'.guards ∧
    s.guards.card = 99 ∧ s.guards.card ≤ maxSseSubscribers ∧
    s.counter = s.guards.card + s.above.card := by
  have hlimit : maxSseSubscribers = 100 := rfl
  have hexceed : Steps (⟨100, Finset.range 100, ∅⟩ : Subscribers ℕ) (.fetchAdd 100) _ :=
    .exceed Finset.notMem_range_self (Finset.notMem_empty _) (Nat.le_refl _)
  have hdrop : Steps _ (.drop 0) _ := .drop (s := ⟨101, Finset.range 100, {100}⟩)
    (Finset.mem_range.mpr (by omega))
  have hnext : Steps _ (.fetchAdd 101) _ :=
    .exceed (s := ⟨100, (Finset.range 100).erase 0, {100}⟩) (i := 101) (by simp) (by simp)
      (Nat.le_refl _)
  have hrun := ((run_of_range (Nat.le_refl _)).snoc hexceed).snoc hdrop
  have hcard : ((Finset.range 100).erase 0).card = 99 := by
    rw [Finset.card_erase_of_mem (Finset.mem_range.mpr (by omega)), Finset.card_range]
  obtain ⟨hle, hcounter, hiff⟩ := limited_of_run hrun (by simp [hlimit])
  exact ⟨_, _, _, hrun, hnext, by simp, hcard, hle, hcounter⟩

end Subscribers

end Sse

end Lootcoin
