import Lootcoin.Library.Runs
import Lootcoin.Faucet

/-! The rate limit of the faucet.  The cooldown of an address is checked before its handler waits
for the node and recorded after, so the dispenses to an address are a cooldown apart as long as
every check comes after the record of the dispenses before, no accepted transaction goes unsaved at
a restart, and the wall clock does not run ahead. -/

namespace Lootcoin

variable {config : FaucetConfig} {address : Address} {s s' : Faucet}

/-! ### The stored cooldowns -/

theorem Instant.elapsed_checkedSub (earliest now : Instant) (duration : ℕ) :
    ((Instant.checkedSub earliest now duration).getD now).elapsed now ≤ duration := by
  unfold Instant.checkedSub Instant.elapsed
  split <;> simp

theorem Instant.elapsed_add (last now : Instant) (duration : ℕ) :
    last.elapsed now ≤ last.elapsed (now + duration) ∧
      last.elapsed (now + duration) ≤ last.elapsed now + duration := by
  have h : ∀ (a b : ℤ) (n : ℕ), (a - b).toNat ≤ (a + n - b).toNat ∧
      (a + n - b).toNat ≤ (a - b).toNat + n := by
    omega
  exact h now last duration

@[simp] theorem Instant.elapsed_self (now : Instant) : now.elapsed now = 0 := by
  simp [Instant.elapsed]

section Load

variable {earliest now : Instant} {nowSecs cooldownSecs ts : ℕ} {entries : List (Address × ℕ)}
  {map : Cooldowns}

theorem lookup_foldl_loadCooldown_of_notMem (h : address ∉ entries.map Prod.fst) :
    (entries.foldl (loadCooldown earliest now nowSecs cooldownSecs) map).lookup address =
      map.lookup address := by
  induction entries generalizing map with
  | nil => rfl
  | cons entry entries ih =>
    rw [List.map_cons, List.mem_cons, not_or] at h
    rw [List.foldl_cons, ih h.2]
    unfold loadCooldown
    dsimp only
    split
    · rfl
    · exact AList.lookup_insert_ne h.1

/-- An entry that is not expired is loaded, with its age taken from the present. -/
theorem lookup_foldl_loadCooldown (hkeys : (entries.map Prod.fst).Nodup)
    (hmem : (address, ts) ∈ entries) (hage : nowSecs - ts < cooldownSecs) :
    (entries.foldl (loadCooldown earliest now nowSecs cooldownSecs) map).lookup address =
      some ((Instant.checkedSub earliest now ((nowSecs - ts) * nanosPerSec)).getD now) := by
  induction entries generalizing map with
  | nil => cases hmem
  | cons entry entries ih =>
    rw [List.map_cons, List.nodup_cons] at hkeys
    rw [List.foldl_cons]
    rcases List.mem_cons.mp hmem with rfl | hmem
    · rw [lookup_foldl_loadCooldown_of_notMem hkeys.1]
      simp [loadCooldown, Nat.not_le.mpr hage]
    · exact ih hkeys.2 hmem

end Load

/-- A stored cooldown is found after the load, unless it is expired. -/
theorem lookup_loadCooldowns (config : FaucetConfig) (now : Instant) {db : CooldownDb}
    {unix ts : ℕ} (h : db.get address = some ts) (hage : nowUnix unix - ts < config.cooldownSecs) :
    ∃ last, (loadCooldowns config.earliest now unix config.cooldownSecs db).lookup address =
      some last ∧ last.elapsed now ≤ (nowUnix unix - ts) * nanosPerSec :=
  ⟨_, lookup_foldl_loadCooldown db.nodup_keys (OrderedTable.mem_entries.mpr h) hage,
    Instant.elapsed_checkedSub _ _ _⟩

/-- A check that passes has seen no cooldown, or one that is over. -/
theorem FaucetConfig.checkCooldown_eq_ok {now : Instant} {cooldowns : Cooldowns}
    {seen : Option Instant} (h : config.checkCooldown now cooldowns address = .ok seen) :
    cooldowns.lookup address = seen ∧ ∀ last ∈ seen, config.cooldown ≤ last.elapsed now := by
  unfold FaucetConfig.checkCooldown at h
  split at h
  · cases h
  split at h
  · rename_i hnone
    cases h
    exact ⟨hnone, nofun⟩
  · rename_i last hlast
    dsimp only at h
    split at h
    · cases h
    · rename_i helapsed
      cases h
      refine ⟨hlast, fun last' h' => ?_⟩
      cases h'
      exact Nat.not_lt.mp helapsed

namespace Phase

theorem unrecorded_of_pending {phase : Phase} (h : phase.pending = true) :
    phase.unrecorded = false := by
  cases phase with
  | checked | signed => rfl
  | confirmed | recorded => cases h

theorem unsaved_of_pending {phase : Phase} (h : phase.pending = true) : phase.unsaved = false := by
  cases phase with
  | checked | signed => rfl
  | confirmed | recorded => cases h

end Phase

namespace Faucet

/-! ### Handlers -/

/-- A handler for the address is in such a phase. -/
def Awaits (s : Faucet) (p : Phase → Bool) (address : Address) : Prop :=
  ∃ e ∈ s.handlers.entries, e.2.address = address ∧ p e.2.phase = true

instance (s : Faucet) (p : Phase → Bool) (address : Address) : Decidable (s.Awaits p address) :=
  inferInstanceAs (Decidable (∃ e ∈ s.handlers.entries, e.2.address = address ∧ p e.2.phase = true))

variable {p : Phase → Bool} {id : ℕ} {handler : Handler}

theorem awaits_iff_lookup : s.Awaits p address ↔ ∃ id handler,
    s.handlers.lookup id = some handler ∧ handler.address = address ∧ p handler.phase = true := by
  constructor
  · rintro ⟨e, he, h⟩
    exact ⟨e.1, e.2, HashTable.mem_entries.mp he, h⟩
  · rintro ⟨id, handler, hlookup, h⟩
    exact ⟨⟨id, handler⟩, HashTable.mem_entries.mpr hlookup, h⟩

theorem awaits_await_self (s : Faucet) (id : ℕ) (h : p handler.phase = true) :
    (s.await id handler).Awaits p handler.address :=
  awaits_iff_lookup.mpr ⟨id, handler, AList.lookup_insert _, rfl, h⟩

/-- The other handlers are where they were. -/
theorem Awaits.await (ha : s.Awaits p address)
    (hold : ∀ old ∈ s.handlers.lookup id, p old.phase = true →
      old.address = handler.address ∧ p handler.phase = true) :
    (s.await id handler).Awaits p address := by
  obtain ⟨id', handler', hlookup, rfl, hp⟩ := awaits_iff_lookup.mp ha
  by_cases hid : id' = id
  · subst hid
    obtain ⟨haddress, hphase⟩ := hold handler' hlookup hp
    exact haddress ▸ awaits_await_self s id' hphase
  · exact awaits_iff_lookup.mpr ⟨id', handler', (AList.lookup_insert_ne hid).trans hlookup, rfl, hp⟩

theorem Awaits.await_ne (ha : s.Awaits p address)
    (hold : ∀ old ∈ s.handlers.lookup id, old.address ≠ address) :
    (s.await id handler).Awaits p address := by
  obtain ⟨id', handler', hlookup, haddress, hp⟩ := awaits_iff_lookup.mp ha
  have hid : id' ≠ id := by
    rintro rfl
    exact hold handler' hlookup haddress
  exact awaits_iff_lookup.mpr
    ⟨id', handler', (AList.lookup_insert_ne hid).trans hlookup, haddress, hp⟩

theorem Awaits.erase (ha : s.Awaits p address)
    (hold : ∀ old ∈ s.handlers.lookup id, old.address = address → p old.phase = false) :
    ({ s with handlers := s.handlers.erase id } : Faucet).Awaits p address := by
  obtain ⟨id', handler', hlookup, rfl, hp⟩ := awaits_iff_lookup.mp ha
  by_cases hid : id' = id
  · subst hid
    cases (hold handler' hlookup rfl).symm.trans hp
  · exact awaits_iff_lookup.mpr ⟨id', handler', (AList.lookup_erase_ne hid).trans hlookup, rfl, hp⟩

/-! ### Steps -/

/-- What an event can do. -/
inductive Effect (config : FaucetConfig) (s : Faucet) : FaucetEvent → Faucet → Prop
  | idle (e : FaucetEvent) : Effect config s e s
  | checked {id : ℕ} {address : Address} {seen : Option Instant}
      (hfree : s.handlers.lookup id = none)
      (hcheck : config.checkCooldown s.instant s.cooldowns address = .ok seen) :
      Effect config s (.request id address) (s.await id ⟨address, seen, .checked⟩)
  | failed {e : FaucetEvent} {id : ℕ} {handler : Handler}
      (hlookup : s.handlers.lookup id = some handler) (hpending : handler.phase.pending = true) :
      Effect config s e { s with handlers := s.handlers.erase id }
  | signed {id : ℕ} {answer : BalanceAnswer} {txid : String} {address : Address}
      {seen : Option Instant} (hlookup : s.handlers.lookup id = some ⟨address, seen, .checked⟩) :
      Effect config s (.balance id answer txid) (s.await id ⟨address, seen, .signed txid⟩)
  | confirmed {id : ℕ} {txid : String} {address : Address} {seen : Option Instant}
      (hlookup : s.handlers.lookup id = some ⟨address, seen, .signed txid⟩) :
      Effect config s (.relay id .accepted)
        ((s.dispense address).await id ⟨address, seen, .confirmed txid⟩)
  | recorded {id : ℕ} {txid : String} {address : Address} {seen : Option Instant}
      (hlookup : s.handlers.lookup id = some ⟨address, seen, .confirmed txid⟩) :
      Effect config s (.record id)
        ((s.insertCooldown address).await id ⟨address, seen, .recorded txid⟩)
  | persisted {id : ℕ} {txid : String} {address : Address} {seen : Option Instant}
      (hlookup : s.handlers.lookup id = some ⟨address, seen, .recorded txid⟩) :
      Effect config s (.persist id)
        { s.persist address with handlers := s.handlers.erase id }
  | ticked (elapsed gained : ℕ) :
      Effect config s (.tick elapsed gained)
        { s with
          time := s.time + elapsed
          instant := s.instant + elapsed
          unix := s.unix + gained }
  | restarted (instant : Instant) :
      Effect config s (.restart instant) (s.restart config instant)

theorem effect_handleDispense (config : FaucetConfig) (s : Faucet) (id : ℕ) (address : Address) :
    Effect config s (.request id address) (s.handleDispense config id address).2 := by
  unfold handleDispense
  split
  · exact .idle _
  · rename_i hfree
    split
    · exact .idle _
    · rename_i seen hcheck
      exact .checked hfree hcheck

theorem effect_afterBalance (config : FaucetConfig) (s : Faucet) (id : ℕ) (answer : BalanceAnswer)
    (txid : String) :
    Effect config s (.balance id answer txid) (s.afterBalance config id answer txid).2 := by
  unfold afterBalance
  split
  · rename_i address seen hlookup
    split
    · exact .failed hlookup rfl
    · exact .signed hlookup
  · exact .idle _

theorem effect_afterRelay (config : FaucetConfig) (s : Faucet) (id : ℕ) (answer : RelayAnswer) :
    Effect config s (.relay id answer) (s.afterRelay id answer).2 := by
  unfold afterRelay
  split
  · rename_i address seen txid hlookup
    cases answer with
    | unreachable => exact .failed hlookup rfl
    | rejected body => exact .failed hlookup rfl
    | accepted => exact .confirmed hlookup
  · exact .idle _

theorem effect_step (config : FaucetConfig) (s : Faucet) (e : FaucetEvent) :
    Effect config s e (s.step config e).2 := by
  cases e with
  | request id address => exact effect_handleDispense config s id address
  | balance id answer txid => exact effect_afterBalance config s id answer txid
  | relay id answer => exact effect_afterRelay config s id answer
  | record id =>
    unfold step recordCooldown
    dsimp only
    split
    · rename_i address seen txid hlookup
      exact .recorded hlookup
    · exact .idle _
  | persist id =>
    unfold step finish
    dsimp only
    split
    · rename_i address seen txid hlookup
      exact .persisted hlookup
    · exact .idle _
  | tick elapsed gained => exact .ticked elapsed gained
  | restart instant => exact .restarted instant

/-! ### The rate limit -/

/-- The dispenses to an address are a cooldown apart, up to a second. -/
def Spaced (config : FaucetConfig) (s : Faucet) : Prop :=
  s.dispensed.Pairwise fun d d' =>
    d.address = d'.address → d.time + config.cooldown ≤ d'.time + nanosPerSec

/-- A transaction is accepted only when the dispenses to its address were recorded before its check,
the faucet restarts only when every accepted transaction is saved, and the wall clock does not gain
more than the time that elapses. -/
def Orderly (s : Faucet) : FaucetEvent → Prop
  | .relay id .accepted => ∀ handler ∈ s.handlers.lookup id, handler.phase.submitted = true →
    s.cooldowns.lookup handler.address = handler.seen ∧
      ¬ s.Awaits Phase.unrecorded handler.address
  | .restart _ => ∀ e ∈ s.handlers.entries, e.2.phase.unsaved = false
  | .tick elapsed gained => gained ≤ elapsed
  | _ => True

instance (s : Faucet) : DecidablePred s.Orderly
  | .relay id .accepted => inferInstanceAs (Decidable (∀ handler ∈ s.handlers.lookup id,
      handler.phase.submitted = true → s.cooldowns.lookup handler.address = handler.seen ∧
        ¬ s.Awaits Phase.unrecorded handler.address))
  | .restart _ => inferInstanceAs (Decidable (∀ e ∈ s.handlers.entries, e.2.phase.unsaved = false))
  | .tick elapsed gained => inferInstanceAs (Decidable (gained ≤ elapsed))
  | .request _ _ | .balance _ _ _ | .relay _ .unreachable | .relay _ (.rejected _) | .record _
  | .persist _ => isTrue trivial

def OrderlyStep (config : FaucetConfig) (s : Faucet) (e : FaucetEvent) (s' : Faucet) : Prop :=
  s' = (s.step config e).2 ∧ s.Orderly e

/-- The cooldown of a dispense is over, up to a second. -/
def Expired (config : FaucetConfig) (s : Faucet) (d : Dispense) : Prop :=
  d.time + config.cooldown ≤ s.time + nanosPerSec

/-- A dispense is covered by the map: its handler has yet to record it, or it is expired, or the map
has a dispense that is not older. -/
def Remembered (config : FaucetConfig) (s : Faucet) (d : Dispense) : Prop :=
  s.Awaits Phase.unrecorded d.address ∨ s.Expired config d ∨
    ∃ last, s.cooldowns.lookup d.address = some last ∧
      last.elapsed s.instant + d.time ≤ s.time + nanosPerSec

/-- A dispense is covered by the table. -/
def Stored (s : Faucet) (d : Dispense) : Prop :=
  s.Awaits Phase.unsaved d.address ∨
    ∃ ts, s.cooldownDb.get d.address = some ts ∧
      s.unix + d.time ≤ s.time + (ts + 1) * nanosPerSec

/-- The cooldowns that the checks of the pending handlers have read are over. -/
def Cleared (config : FaucetConfig) (now : Instant) (handlers : HashTable ℕ Handler) : Prop :=
  ∀ id handler, handlers.lookup id = some handler → handler.phase.pending = true →
    ∀ last ∈ handler.seen, config.cooldown ≤ last.elapsed now

theorem Cleared.insert {now : Instant} {handlers : HashTable ℕ Handler}
    (h : Cleared config now handlers) (id : ℕ)
    (hnew : handler.phase.pending = true →
      ∀ last ∈ handler.seen, config.cooldown ≤ last.elapsed now) :
    Cleared config now (handlers.insert id handler) := by
  intro id' handler' hlookup hpending
  rcases HashTable.lookup_insert_eq_some.mp hlookup with ⟨-, rfl⟩ | ⟨-, hlookup⟩
  · exact hnew hpending
  · exact h id' handler' hlookup hpending

theorem Cleared.erase {now : Instant} {handlers : HashTable ℕ Handler}
    (h : Cleared config now handlers) (id : ℕ) : Cleared config now (handlers.erase id) :=
  fun id' handler' hlookup => h id' handler' (HashTable.lookup_erase_eq_some.mp hlookup).2

/-- What holds of a faucet in every orderly run. -/
structure Sound (config : FaucetConfig) (s : Faucet) : Prop where
  spaced : s.Spaced config
  past : ∀ d ∈ s.dispensed, d.time ≤ s.time
  remembered : ∀ d ∈ s.dispensed, s.Remembered config d
  stored : ∀ d ∈ s.dispensed, s.Stored d
  cleared : Cleared config s.instant s.handlers

theorem sound_new (config : FaucetConfig) (instant : Instant) (unix : ℕ) :
    (new instant unix).Sound config where
  spaced := .nil
  past := nofun
  remembered := nofun
  stored := nofun
  cleared := nofun

/-- A dispense that the map covers is expired, where the map has no cooldown that is not over and no
handler has yet to record one. -/
theorem Remembered.expired {d : Dispense} (h : s.Remembered config d)
    (hwait : ¬ s.Awaits Phase.unrecorded d.address)
    (hover : ∀ last ∈ s.cooldowns.lookup d.address, config.cooldown ≤ last.elapsed s.instant) :
    s.Expired config d := by
  rcases h with h | h | ⟨last, hlast, h⟩
  · exact absurd h hwait
  · exact h
  · have helapsed := hover last hlast
    unfold Expired
    omega

/-- A step of a handler without an accepted transaction. -/
theorem Sound.withHandlers {handlers : HashTable ℕ Handler} (hs : s.Sound config)
    (hawaits : ∀ p address, (∀ phase : Phase, phase.pending = true → p phase = false) →
      s.Awaits p address → ({ s with handlers := handlers } : Faucet).Awaits p address)
    (hcleared : Cleared config s.instant handlers) :
    ({ s with handlers := handlers } : Faucet).Sound config where
  spaced := hs.spaced
  past := hs.past
  remembered d hd := (hs.remembered d hd).imp_left
    (hawaits _ _ fun _ => Phase.unrecorded_of_pending)
  stored d hd := (hs.stored d hd).imp_left (hawaits _ _ fun _ => Phase.unsaved_of_pending)
  cleared := hcleared

theorem Sound.check (hs : s.Sound config) {seen : Option Instant}
    (hfree : s.handlers.lookup id = none)
    (hcheck : config.checkCooldown s.instant s.cooldowns address = .ok seen) :
    (s.await id ⟨address, seen, .checked⟩).Sound config := by
  refine hs.withHandlers (fun p address' _ ha => ha.await fun old hold => ?_)
    (hs.cleared.insert id fun _ => (FaucetConfig.checkCooldown_eq_ok hcheck).2)
  cases hfree.symm.trans hold

theorem Sound.fail (hs : s.Sound config) (hlookup : s.handlers.lookup id = some handler)
    (hpending : handler.phase.pending = true) :
    ({ s with handlers := s.handlers.erase id } : Faucet).Sound config := by
  refine hs.withHandlers (fun p address hp ha => ha.erase fun old hold _ => ?_)
    (hs.cleared.erase id)
  obtain rfl := Option.some.inj (hlookup.symm.trans hold)
  exact hp _ hpending

theorem Sound.sign (hs : s.Sound config) {seen : Option Instant} (txid : String)
    (hlookup : s.handlers.lookup id = some ⟨address, seen, .checked⟩) :
    (s.await id ⟨address, seen, .signed txid⟩).Sound config := by
  refine hs.withHandlers (fun p address' hp ha => ha.await fun old hold hphase => ?_)
    (hs.cleared.insert id fun _ => hs.cleared id ⟨address, seen, .checked⟩ hlookup rfl)
  obtain rfl := Option.some.inj (hlookup.symm.trans hold)
  cases (hp _ rfl).symm.trans hphase

theorem Sound.confirm (hs : s.Sound config) {seen : Option Instant} {txid : String}
    (hlookup : s.handlers.lookup id = some ⟨address, seen, .signed txid⟩)
    (hseen : s.cooldowns.lookup address = seen) (hwait : ¬ s.Awaits Phase.unrecorded address) :
    ((s.dispense address).await id ⟨address, seen, .confirmed txid⟩).Sound config := by
  have hover : ∀ last ∈ s.cooldowns.lookup address, config.cooldown ≤ last.elapsed s.instant :=
    hseen ▸ hs.cleared id ⟨address, seen, .signed txid⟩ hlookup rfl
  have hawaits : ∀ (p : Phase → Bool) address', p (.signed txid) = false → s.Awaits p address' →
      (s.await id ⟨address, seen, .confirmed txid⟩).Awaits p address' := by
    intro p address' hp ha
    refine ha.await fun old hold hphase => ?_
    obtain rfl := Option.some.inj (hlookup.symm.trans hold)
    cases hp.symm.trans hphase
  refine ⟨?_, ?_, ?_, ?_, hs.cleared.insert id nofun⟩
  · refine List.pairwise_append.mpr ⟨hs.spaced, List.pairwise_singleton _ _, fun d hd d' hd' => ?_⟩
    obtain rfl := List.mem_singleton.mp hd'
    rintro rfl
    exact (hs.remembered d hd).expired hwait hover
  · intro d hd
    rcases List.mem_append.mp hd with hd | hd
    · exact hs.past d hd
    · rw [List.mem_singleton.mp hd]
      exact Nat.le_refl _
  · intro d hd
    rcases List.mem_append.mp hd with hd | hd
    · exact (hs.remembered d hd).imp_left (hawaits _ _ rfl)
    · obtain rfl := List.mem_singleton.mp hd
      exact .inl (awaits_await_self s id (p := Phase.unrecorded) rfl)
  · intro d hd
    rcases List.mem_append.mp hd with hd | hd
    · exact (hs.stored d hd).imp_left (hawaits _ _ rfl)
    · obtain rfl := List.mem_singleton.mp hd
      exact .inl (awaits_await_self s id (p := Phase.unsaved) rfl)

theorem Sound.record (hs : s.Sound config) {seen : Option Instant} {txid : String}
    (hlookup : s.handlers.lookup id = some ⟨address, seen, .confirmed txid⟩) :
    ((s.insertCooldown address).await id ⟨address, seen, .recorded txid⟩).Sound config := by
  refine ⟨hs.spaced, hs.past, fun d hd => ?_, fun d hd => ?_, hs.cleared.insert id nofun⟩
  · by_cases haddress : d.address = address
    · refine .inr (.inr ⟨s.instant, haddress ▸ AList.lookup_insert _, ?_⟩)
      have hpast := hs.past d hd
      have helapsed := Instant.elapsed_self s.instant
      change s.instant.elapsed s.instant + d.time ≤ s.time + nanosPerSec
      omega
    · rcases hs.remembered d hd with ha | hexpired | ⟨last, hlast, h⟩
      · -- the handler that has yet to record the dispense is for another address
        refine .inl (ha.await_ne fun old hold => ?_)
        obtain rfl := Option.some.inj (hlookup.symm.trans hold)
        exact Ne.symm haddress
      · exact .inr (.inl hexpired)
      · exact .inr (.inr ⟨last, (AList.lookup_insert_ne haddress).trans hlast, h⟩)
  · refine (hs.stored d hd).imp_left fun ha => ha.await fun old hold _ => ?_
    obtain rfl := Option.some.inj (hlookup.symm.trans hold)
    exact ⟨rfl, rfl⟩

/-- The second that is stored is at most a second behind. -/
theorem unix_lt_nowUnix (unix : ℕ) : unix < (nowUnix unix + 1) * nanosPerSec := by
  have := Nat.lt_div_mul_add (a := unix) (show 0 < nanosPerSec by decide)
  unfold nowUnix
  rw [Nat.add_mul]
  omega

theorem Sound.save (hs : s.Sound config) {seen : Option Instant} {txid : String}
    (hlookup : s.handlers.lookup id = some ⟨address, seen, .recorded txid⟩) :
    ({ s.persist address with handlers := s.handlers.erase id } : Faucet).Sound config := by
  refine ⟨hs.spaced, hs.past, fun d hd => ?_, fun d hd => ?_, hs.cleared.erase id⟩
  · refine (hs.remembered d hd).imp_left fun ha => ha.erase fun old hold _ => ?_
    obtain rfl := Option.some.inj (hlookup.symm.trans hold)
    rfl
  · by_cases haddress : d.address = address
    · refine .inr ⟨nowUnix s.unix, haddress ▸ OrderedTable.get_insert _ _ _, ?_⟩
      have hpast := hs.past d hd
      have hunix := unix_lt_nowUnix s.unix
      change s.unix + d.time ≤ s.time + (nowUnix s.unix + 1) * nanosPerSec
      omega
    · rcases hs.stored d hd with ha | ⟨ts, hts, h⟩
      · refine .inl (ha.erase fun old hold hd' => ?_)
        obtain rfl := Option.some.inj (hlookup.symm.trans hold)
        exact absurd hd'.symm haddress
      · exact .inr ⟨ts, (OrderedTable.get_insert_ne _ _ haddress).trans hts, h⟩

theorem Sound.tick (hs : s.Sound config) {elapsed gained : ℕ} (hgained : gained ≤ elapsed) :
    ({ s with
      time := s.time + elapsed
      instant := s.instant + elapsed
      unix := s.unix + gained } : Faucet).Sound config where
  spaced := hs.spaced
  past d hd := (hs.past d hd).trans (Nat.le_add_right _ _)
  remembered d hd := by
    rcases hs.remembered d hd with ha | hexpired | ⟨last, hlast, h⟩
    · exact .inl ha
    · refine .inr (.inl ?_)
      change d.time + config.cooldown ≤ s.time + elapsed + nanosPerSec
      unfold Expired at hexpired
      omega
    · refine .inr (.inr ⟨last, hlast, ?_⟩)
      have hadd := (Instant.elapsed_add last s.instant elapsed).2
      change last.elapsed (s.instant + elapsed) + d.time ≤ s.time + elapsed + nanosPerSec
      omega
  stored d hd := by
    rcases hs.stored d hd with ha | ⟨ts, hts, h⟩
    · exact .inl ha
    · refine .inr ⟨ts, hts, ?_⟩
      change s.unix + gained + d.time ≤ s.time + elapsed + (ts + 1) * nanosPerSec
      omega
  cleared id handler hlookup hpending last hlast :=
    (hs.cleared id handler hlookup hpending last hlast).trans
      (Instant.elapsed_add last s.instant elapsed).1

/-- A stored cooldown that is dropped at a restart is over, and the others are loaded with at least
the time that is left of them. -/
theorem Sound.restart (hs : s.Sound config) (instant : Instant)
    (hsaved : ∀ e ∈ s.handlers.entries, e.2.phase.unsaved = false) :
    (s.restart config instant).Sound config where
  spaced := hs.spaced
  past := hs.past
  remembered d hd := by
    rcases hs.stored d hd with ⟨e, he, -, hphase⟩ | ⟨ts, hts, h⟩
    · cases (hsaved e he).symm.trans hphase
    have hunix : nowUnix s.unix * nanosPerSec ≤ s.unix := Nat.div_mul_le_self _ _
    have hpast := hs.past d hd
    rw [Nat.add_mul] at h
    by_cases hage : nowUnix s.unix - ts < config.cooldownSecs
    · obtain ⟨last, hlast, helapsed⟩ := lookup_loadCooldowns config instant hts hage
      refine .inr (.inr ⟨last, hlast, ?_⟩)
      rw [Nat.sub_mul] at helapsed
      change last.elapsed instant + d.time ≤ s.time + nanosPerSec
      omega
    · refine .inr (.inl ?_)
      have hcooldown := Nat.mul_le_mul_right nanosPerSec (Nat.not_lt.mp hage)
      rw [Nat.sub_mul] at hcooldown
      change d.time + config.cooldownSecs * nanosPerSec ≤ s.time + nanosPerSec
      omega
  stored d hd := by
    rcases hs.stored d hd with ⟨e, he, -, hphase⟩ | hts
    · cases (hsaved e he).symm.trans hphase
    · exact .inr hts
  cleared := nofun

theorem Sound.step {e : FaucetEvent} (hs : s.Sound config) (h : OrderlyStep config s e s') :
    s'.Sound config := by
  obtain ⟨rfl, horderly⟩ := h
  have heffect := effect_step config s e
  generalize (s.step config e).2 = s' at heffect ⊢
  cases heffect with
  | idle => exact hs
  | checked hfree hcheck => exact hs.check hfree hcheck
  | failed hlookup hpending => exact hs.fail hlookup hpending
  | signed hlookup => exact hs.sign _ hlookup
  | confirmed hlookup =>
    obtain ⟨hseen, hwait⟩ := horderly _ hlookup rfl
    exact hs.confirm hlookup hseen hwait
  | recorded hlookup => exact hs.record hlookup
  | persisted hlookup => exact hs.save hlookup
  | ticked elapsed gained => exact hs.tick horderly
  | restarted instant => exact hs.restart instant horderly

/-- In every run in which each check comes after the record of the dispenses before, each accepted
transaction is saved before a restart, and the wall clock does not run ahead, the dispenses to an
address are a cooldown apart. -/
theorem spaced_of_run (config : FaucetConfig) (instant : Instant) (unix : ℕ)
    (es : List FaucetEvent) (s : Faucet)
    (run : Runs.Run (OrderlyStep config) (new instant unix) es s) : s.Spaced config :=
  (run.invariant (fun h hs => hs.step h) (sound_new config instant unix)).spaced

end Faucet

namespace Sample

open Faucet

/-- A faucet with the default settings. -/
def faucetConfig : FaucetConfig where
  dispenseAmount := 500
  fee := 2
  cooldownSecs := 86400
  isValidAddress := fun address => "loot1".toList.isPrefixOf address.toList
  earliest := 0

def day : ℕ := faucetConfig.cooldown

/-- A request that is dispensed without an interruption. -/
def served (id : ℕ) : List FaucetEvent :=
  [.request id "loot1client", .balance id (.balance 1000) "txid", .relay id .accepted, .record id,
    .persist id]

/-- An address is served, refused, and served again after a restart of the machine and a day. -/
def restartedFaucet : List FaucetEvent :=
  served 0 ++ [.request 1 "loot1client", .tick nanosPerSec 0, .restart 0, .tick day day] ++ served 2

def orderlyNext (s : Faucet) (e : FaucetEvent) : Option Faucet :=
  if s.Orderly e then some (s.step faucetConfig e).2 else none

theorem restartedFaucet_spaced : ∃ s,
    Runs.Run (OrderlyStep faucetConfig) (new 0 0) restartedFaucet s ∧
    s.dispensed = [⟨"loot1client", 0⟩, ⟨"loot1client", day + nanosPerSec⟩] ∧
    s.Spaced faucetConfig := by
  have hsome : (restartedFaucet.foldlM orderlyNext (new 0 0)).map Faucet.dispensed =
      some [⟨"loot1client", 0⟩, ⟨"loot1client", day + nanosPerSec⟩] := by
    decide +kernel
  obtain ⟨s, hfold, hdispensed⟩ := Option.map_eq_some_iff.mp hsome
  have run : Runs.Run (OrderlyStep faucetConfig) (new 0 0) restartedFaucet s := by
    refine Runs.run_of_foldlM (fun {s e s'} h => ?_) hfold
    unfold orderlyNext at h
    split at h
    · rename_i horderly
      exact ⟨(Option.some.inj h).symm, horderly⟩
    · cases h
  exact ⟨s, run, hdispensed, spaced_of_run faucetConfig 0 0 _ s run⟩

/-- Two requests whose checks both come before the first record. -/
def overlapping : List FaucetEvent :=
  [.request 0 "loot1client", .request 1 "loot1client",
    .balance 0 (.balance 1000) "first", .balance 1 (.balance 1000) "second",
    .relay 0 .accepted, .relay 1 .accepted, .record 0, .persist 0, .record 1, .persist 1]

/-- A restart between an accepted transaction and the record of its cooldown. -/
def interrupted : List FaucetEvent :=
  [.request 0 "loot1client", .balance 0 (.balance 1000) "first", .relay 0 .accepted, .restart 0] ++
    served 1

/-- A wall clock that is set a day forward before a restart. -/
def setForward : List FaucetEvent := served 0 ++ [.tick 0 day, .restart 0] ++ served 1

def faucetAfter (es : List FaucetEvent) : Faucet :=
  es.foldl (fun s e => (s.step faucetConfig e).2) (new 0 0)

/-- The run dispenses twice at once, to the end of every handler. -/
def ServesTwice (es : List FaucetEvent) : Prop :=
  ∃ s, Runs.Run (fun s e s' => s' = (s.step faucetConfig e).2) (new 0 0) es s ∧
    s.dispensed = [⟨"loot1client", 0⟩, ⟨"loot1client", 0⟩] ∧ s.handlers.keys = [] ∧
    ¬ s.Spaced faucetConfig

theorem servesTwice_of_faucetAfter {es : List FaucetEvent}
    (hdispensed : (faucetAfter es).dispensed = [⟨"loot1client", 0⟩, ⟨"loot1client", 0⟩])
    (hkeys : (faucetAfter es).handlers.keys = []) : ServesTwice es := by
  refine ⟨faucetAfter es, Runs.run_foldl _ _ es, hdispensed, hkeys, fun h => ?_⟩
  rw [Spaced, hdispensed] at h
  exact absurd (List.rel_of_pairwise_cons h List.mem_cons_self rfl) (by decide +kernel)

/-- An address is served twice at once where requests overlap, and also where only one of the other
conditions fails. -/
theorem overlapping_not_spaced :
    ServesTwice overlapping ∧ ServesTwice interrupted ∧ ServesTwice setForward :=
  ⟨servesTwice_of_faucetAfter (by decide +kernel) (by decide +kernel),
    servesTwice_of_faucetAfter (by decide +kernel) (by decide +kernel),
    servesTwice_of_faucetAfter (by decide +kernel) (by decide +kernel)⟩

end Sample

end Lootcoin
