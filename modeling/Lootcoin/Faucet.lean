import Mathlib.Data.String.Basic
import Lootcoin.Library.OrderedTable
import Lootcoin.Api

/-! The faucet: how a request for coins is checked, dispensed, and recorded, in steps between which
its handler waits, and how the cooldowns are stored and loaded.  The node answers as it likes, the
identifier of a transaction is given with the balance, and writes to the table of cooldowns succeed.
A request that its client drops while the handler waits is one that takes no further step.  Times
and durations are in nanoseconds. -/

namespace Lootcoin

/-! ### Clocks -/

def nanosPerSec : ℕ := 10 ^ 9

/-- A reading of the monotonic clock. -/
abbrev Instant : Type := ℤ

def Instant.elapsed (last now : Instant) : ℕ := (now - last).toNat

/-- An instant in the past, unless it is before the earliest one of the platform. -/
def Instant.checkedSub (earliest now : Instant) (duration : ℕ) : Option Instant :=
  if earliest ≤ now - duration then some (now - duration) else none

/-- The seconds of the wall clock. -/
def nowUnix (unix : ℕ) : ℕ := unix / nanosPerSec

/-! ### Cooldowns in the database -/

/-- The second of the last dispense to each address. -/
abbrev CooldownDb : Type := OrderedTable Address ℕ

/-- The last dispense to each address. -/
abbrev Cooldowns : Type := HashTable Address Instant

def persistCooldown (db : CooldownDb) (unix : ℕ) (address : Address) : CooldownDb :=
  db.insert address (nowUnix unix)

/-- Loads an entry of the table, unless it is expired. -/
def loadCooldown (earliest nowInst : Instant) (nowSecs cooldownSecs : ℕ) (map : Cooldowns)
    (entry : Address × ℕ) : Cooldowns :=
  let ageSecs := nowSecs - entry.2
  if cooldownSecs ≤ ageSecs then map
  else
    map.insert entry.1
      ((Instant.checkedSub earliest nowInst (ageSecs * nanosPerSec)).getD nowInst)

def loadCooldowns (earliest nowInst : Instant) (unix cooldownSecs : ℕ) (db : CooldownDb) :
    Cooldowns :=
  db.entries.foldl (loadCooldown earliest nowInst (nowUnix unix) cooldownSecs) ∅

/-! ### Requests -/

structure FaucetConfig where
  dispenseAmount : ℕ
  fee : ℕ
  cooldownSecs : ℕ
  isValidAddress : Address → Bool
  earliest : Instant

structure DispenseResponse where
  message : String
  txid : String
  amount : ℕ
  deriving DecidableEq

abbrev DispenseResult : Type := Except HttpError DispenseResponse

inductive BalanceAnswer where
  | unreachable
  | unexpected
  | balance (spendableBalance : ℕ)

inductive RelayAnswer where
  | unreachable
  | rejected (body : String)
  | accepted

def err (code : ℕ) (msg : String) : HttpError := ⟨code, msg⟩

namespace FaucetConfig

def cooldown (config : FaucetConfig) : ℕ := config.cooldownSecs * nanosPerSec

/-- The checks of the address and of its cooldown, with the last dispense that is known. -/
def checkCooldown (config : FaucetConfig) (now : Instant) (cooldowns : Cooldowns)
    (address : Address) : Except HttpError (Option Instant) :=
  if !config.isValidAddress address then
    .error (err 400 "Invalid address: must be a lootcoin bech32m address (loot1…).")
  else
    match cooldowns.lookup address with
    | none => .ok none
    | some last =>
      let elapsed := last.elapsed now
      if elapsed < config.cooldown then
        let remainingMins := (config.cooldown - elapsed) / nanosPerSec / 60 + 1
        .error (err 429
          ("Address already funded. Try again in " ++ remainingMins.repr ++ " minutes."))
      else .ok (some last)

def checkBalance (config : FaucetConfig) : BalanceAnswer → Except HttpError Unit
  | .unreachable => .error (err 503 "Could not reach node.")
  | .unexpected => .error (err 500 "Unexpected response from node.")
  | .balance spendableBalance =>
    if spendableBalance < Word.wrappingAdd 64 config.dispenseAmount config.fee then
      .error (err 503 "Faucet is empty.")
    else .ok ()

def checkRelay : RelayAnswer → Except HttpError Unit
  | .unreachable => .error (err 503 "Could not reach node.")
  | .rejected body => .error (err 500 ("Node rejected transaction: " ++ body))
  | .accepted => .ok ()

def sent (config : FaucetConfig) (txid : String) : DispenseResponse where
  message := "Sent " ++ config.dispenseAmount.repr ++ " coins to your address."
  txid := txid
  amount := config.dispenseAmount

end FaucetConfig

/-! ### Handlers -/

/-- What a handler waits for: the balance of the faucet, the answer to its transaction, the lock of
the cooldowns, or the table. -/
inductive Phase where
  | checked
  | signed (txid : String)
  | confirmed (txid : String)
  | recorded (txid : String)
  deriving DecidableEq

namespace Phase

/-- No transaction has been accepted. -/
def pending : Phase → Bool
  | .checked | .signed _ => true
  | .confirmed _ | .recorded _ => false

/-- The answer to a transaction is awaited. -/
def submitted : Phase → Bool
  | .signed _ => true
  | .checked | .confirmed _ | .recorded _ => false

/-- A transaction has been accepted, and its cooldown is not in the map. -/
def unrecorded : Phase → Bool
  | .confirmed _ => true
  | .checked | .signed _ | .recorded _ => false

/-- A transaction has been accepted, and its cooldown is not in the table. -/
def unsaved : Phase → Bool
  | .confirmed _ | .recorded _ => true
  | .checked | .signed _ => false

end Phase

/-- A request that is being handled, with the last dispense that its check has read. -/
structure Handler where
  address : Address
  seen : Option Instant
  phase : Phase
  deriving DecidableEq

/-- The node has accepted a transaction to an address. -/
structure Dispense where
  address : Address
  time : ℕ
  deriving DecidableEq

/-- The faucet, with the clocks of its machine and the dispenses so far. Only the time counts on
when the machine starts anew. -/
structure Faucet where
  time : ℕ
  instant : Instant
  unix : ℕ
  cooldowns : Cooldowns
  cooldownDb : CooldownDb
  handlers : HashTable ℕ Handler
  dispensed : List Dispense

inductive FaucetEvent where
  | request (id : ℕ) (address : Address)
  | balance (id : ℕ) (answer : BalanceAnswer) (txid : String)
  | relay (id : ℕ) (answer : RelayAnswer)
  | record (id : ℕ)
  | persist (id : ℕ)
  | tick (elapsed gained : ℕ)
  | restart (instant : Instant)

namespace Faucet

/-- The first start, on an empty table. -/
def new (instant : Instant) (unix : ℕ) : Faucet := ⟨0, instant, unix, ∅, .empty, ∅, []⟩

def dispense (s : Faucet) (address : Address) : Faucet :=
  { s with dispensed := s.dispensed ++ [⟨address, s.time⟩] }

def insertCooldown (s : Faucet) (address : Address) : Faucet :=
  { s with cooldowns := s.cooldowns.insert address s.instant }

def persist (s : Faucet) (address : Address) : Faucet :=
  { s with cooldownDb := persistCooldown s.cooldownDb s.unix address }

/-- A handler moves on to its next wait. -/
def await (s : Faucet) (id : ℕ) (handler : Handler) : Faucet :=
  { s with handlers := s.handlers.insert id handler }

/-- A handler ends with its response. -/
def respond (s : Faucet) (id : ℕ) (result : DispenseResult) : Option DispenseResult × Faucet :=
  (some result, { s with handlers := s.handlers.erase id })

/-- The start of `handle_dispense`, under an identifier that no other handler has. -/
def handleDispense (config : FaucetConfig) (s : Faucet) (id : ℕ) (address : Address) :
    Option DispenseResult × Faucet :=
  match s.handlers.lookup id with
  | some _ => (none, s)
  | none =>
    match config.checkCooldown s.instant s.cooldowns address with
    | .error e => (some (.error e), s)
    | .ok seen => (none, s.await id ⟨address, seen, .checked⟩)

/-- The balance arrives, and a transaction is signed and submitted. -/
def afterBalance (config : FaucetConfig) (s : Faucet) (id : ℕ) (answer : BalanceAnswer)
    (txid : String) : Option DispenseResult × Faucet :=
  match s.handlers.lookup id with
  | some ⟨address, seen, .checked⟩ =>
    match config.checkBalance answer with
    | .error e => s.respond id (.error e)
    | .ok () => (none, s.await id ⟨address, seen, .signed txid⟩)
  | _ => (none, s)

/-- The answer to the transaction arrives. -/
def afterRelay (s : Faucet) (id : ℕ) (answer : RelayAnswer) : Option DispenseResult × Faucet :=
  match s.handlers.lookup id with
  | some ⟨address, seen, .signed txid⟩ =>
    match FaucetConfig.checkRelay answer with
    | .error e => s.respond id (.error e)
    | .ok () =>
      (none, (s.dispense address).await id ⟨address, seen, .confirmed txid⟩)
  | _ => (none, s)

/-- The cooldown is recorded in the map. -/
def recordCooldown (s : Faucet) (id : ℕ) : Option DispenseResult × Faucet :=
  match s.handlers.lookup id with
  | some ⟨address, seen, .confirmed txid⟩ =>
    (none, (s.insertCooldown address).await id ⟨address, seen, .recorded txid⟩)
  | _ => (none, s)

/-- The cooldown is persisted, and the client gets its response. -/
def finish (config : FaucetConfig) (s : Faucet) (id : ℕ) : Option DispenseResult × Faucet :=
  match s.handlers.lookup id with
  | some ⟨address, _, .recorded txid⟩ =>
    (s.persist address).respond id (.ok (config.sent txid))
  | _ => (none, s)

/-- The faucet stops, with its handlers, and starts on the stored cooldowns. -/
def restart (config : FaucetConfig) (s : Faucet) (instant : Instant) : Faucet :=
  { s with
    instant := instant
    cooldowns := loadCooldowns config.earliest instant s.unix config.cooldownSecs s.cooldownDb
    handlers := ∅ }

/-- What an event does, with the response to a client if there is one. As time elapses, the wall
clock gains what it is set to gain. -/
def step (config : FaucetConfig) (s : Faucet) : FaucetEvent → Option DispenseResult × Faucet
  | .request id address => s.handleDispense config id address
  | .balance id answer txid => s.afterBalance config id answer txid
  | .relay id answer => s.afterRelay id answer
  | .record id => s.recordCooldown id
  | .persist id => s.finish config id
  | .tick elapsed gained =>
    (none, { s with
      time := s.time + elapsed
      instant := s.instant + elapsed
      unix := s.unix + gained })
  | .restart instant => (none, s.restart config instant)

end Faucet

end Lootcoin
