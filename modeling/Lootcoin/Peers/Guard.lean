import Lootcoin.Library.Runs
import Lootcoin.Peers

/-! Which URLs of peers a node takes in.  An announced URL and a stored one pass the check of hosts,
but a URL that a peer lists does not, so the node can be steered at an internal host exactly by the
answers that list one which is taken in. -/

namespace Lootcoin

variable {parse : UrlParser} {raw origin : String} {myUrl : Option String}

/-! ### The check -/

/-- The origin of a URL of the web is a URL, with the same scheme, host, and origin. -/
structure ParsesOrigins (parse : UrlParser) : Prop where
  origin : ∀ raw url origin, parse raw = some url → url.scheme = "http" ∨ url.scheme = "https" →
    buildPeerOrigin url = some origin → ∃ url', parse (trim origin) = some url' ∧
      url'.scheme = url.scheme ∧ url'.host = url.host ∧ buildPeerOrigin url' = some origin

/-- The check of hosts lets the URL pass. -/
def Accepted (parse : UrlParser) (url : String) : Prop :=
  ∃ origin, canonicalizePeerUrl parse url = some origin

theorem canonicalizePeerUrlInner_eq_some {trusted : Bool} :
    canonicalizePeerUrlInner parse raw trusted = some origin ↔ ∃ url host,
      parse (trim raw) = some url ∧ (url.scheme = "http" ∨ url.scheme = "https") ∧
      url.host = some host ∧ (trusted = true ∨ host.isInternal = false) ∧
      buildPeerOrigin url = some origin := by
  unfold canonicalizePeerUrlInner
  constructor
  · intro h
    split at h
    · cases h
    rename_i url hurl
    split at h
    · cases h
    rename_i hscheme
    split at h
    · cases h
    rename_i host hhost
    refine ⟨url, host, hurl, by tauto, hhost, ?_⟩
    split at h
    · rename_i htrusted
      exact ⟨.inl htrusted, h⟩
    · split at h
      · cases h
      · rename_i hinternal
        exact ⟨.inr (by simpa using hinternal), h⟩
  · rintro ⟨url, host, hurl, hscheme, hhost, hcheck, horigin⟩
    simp only [hurl, hhost]
    rw [if_neg (by tauto)]
    rcases hcheck with rfl | hinternal
    · simpa using horigin
    · simpa [hinternal] using horigin

/-- What the check makes of a URL passes the check. -/
theorem accepted_of_canonicalizePeerUrl (hparse : ParsesOrigins parse)
    (h : canonicalizePeerUrl parse raw = some origin) : Accepted parse origin := by
  obtain ⟨url, host, hurl, hscheme, hhost, hcheck, horigin⟩ := canonicalizePeerUrlInner_eq_some.mp h
  obtain ⟨url', hurl', hscheme', hhost', horigin'⟩ :=
    hparse.origin _ url origin hurl hscheme horigin
  exact ⟨origin, canonicalizePeerUrlInner_eq_some.mpr ⟨url', host, hurl', hscheme' ▸ hscheme,
    hhost'.trans hhost, hcheck, horigin'⟩⟩

/-! ### Discovery -/

/-- The URLs of an answer that are taken in: in order, each once, without the node's own and those
known, as long as there is room. -/
def newPeers (parse : UrlParser) (myUrl : Option String) (knownPeers answer : List String) :
    List String :=
  ((answer.filterMap (canonicalizePeerUrlTrusted parse)).filter fun canonical =>
    myUrl ≠ some canonical ∧ canonical ∉ knownPeers).eraseDups.take (maxPeers - knownPeers.length)

theorem mergeDiscovered_eq (answer knownPeers : List String) (table : PeerTable) :
    mergeDiscovered parse myUrl knownPeers table answer =
      (knownPeers ++ newPeers parse myUrl knownPeers answer,
        (newPeers parse myUrl knownPeers answer).foldl PeerTable.savePeer table) := by
  induction answer generalizing knownPeers table with
  | nil => simp [mergeDiscovered, newPeers]
  | cons p answer ih =>
    rw [mergeDiscovered]
    split
    · rename_i hfull
      simp [newPeers, Nat.sub_eq_zero_of_le hfull]
    rename_i hroom
    cases hp : canonicalizePeerUrlTrusted parse p with
    | none => simp [ih, newPeers, hp]
    | some canonical =>
      simp only
      split
      · rename_i hmine
        rw [ih]
        simp [newPeers, hp, hmine]
      · rename_i hmine
        split
        · rename_i hknown
          rw [ih]
          simp [newPeers, hp, hknown]
        · rename_i hknown
          -- the first new URL leaves room for one less, and is known from there on
          have hnew : newPeers parse myUrl knownPeers (p :: answer) =
              canonical :: newPeers parse myUrl (knownPeers ++ [canonical]) answer := by
            have hlength : maxPeers - knownPeers.length =
                maxPeers - (knownPeers ++ [canonical]).length + 1 := by
              rw [List.length_append, List.length_singleton]
              omega
            rw [newPeers, List.filterMap_cons_some hp, List.filter_cons_of_pos (by
              simpa using ⟨hmine, hknown⟩), List.eraseDups_cons, hlength, List.take_succ_cons,
              newPeers, List.filter_filter]
            congr 4
            funext c
            simp only [List.mem_append, List.mem_singleton]
            grind
          rw [ih, hnew, List.append_assoc, List.singleton_append, List.foldl_cons]

/-- The URLs that a synchronization takes in. -/
def takenIn (parse : UrlParser) (myUrl : Option String) (knownPeers : List String)
    (answer : Option (List String)) : List String :=
  if knownPeers.isEmpty then []
  else
    match answer with
    | none => []
    | some peers => newPeers parse myUrl knownPeers peers

theorem discoverPeers_eq (knownPeers : List String) (table : PeerTable)
    (answer : Option (List String)) : discoverPeers parse myUrl knownPeers table answer =
      (knownPeers ++ takenIn parse myUrl knownPeers answer,
        (takenIn parse myUrl knownPeers answer).foldl PeerTable.savePeer table) := by
  unfold discoverPeers takenIn
  split
  · simp
  · cases answer with
    | none => simp
    | some peers => exact mergeDiscovered_eq peers knownPeers table

theorem not_mem_of_takenIn {knownPeers : List String} {answer : Option (List String)} {u : String}
    (h : u ∈ takenIn parse myUrl knownPeers answer) : u ∉ knownPeers := by
  unfold takenIn at h
  split at h
  · cases h
  · cases answer with
    | none => cases h
    | some peers =>
      have hmem := List.mem_eraseDups.mp (List.mem_of_mem_take h)
      have hnew := (List.mem_filter.mp hmem).2
      simp only [decide_eq_true_eq] at hnew
      exact hnew.2

/-! ### The table and the start -/

theorem get_foldl_savePeer {us : List String} {table : PeerTable} {u : String} :
    (us.foldl PeerTable.savePeer table).get u = some () ↔ u ∈ us ∨ table.get u = some () := by
  induction us generalizing table with
  | nil => simp
  | cons v us ih =>
    rw [List.foldl_cons, ih, List.mem_cons, PeerTable.savePeer]
    by_cases huv : u = v
    · simp [huv, OrderedTable.get_insert]
    · simp [huv, OrderedTable.get_insert_ne]

theorem get_of_foldl_deletePeer {us : List String} {table : PeerTable} {u : String}
    (h : (us.foldl PeerTable.deletePeer table).get u = some ()) : table.get u = some () := by
  induction us generalizing table with
  | nil => exact h
  | cons v us ih =>
    have hkept := ih h
    rw [PeerTable.deletePeer, OrderedTable.get_remove] at hkept
    split at hkept
    · cases hkept
    · exact hkept

theorem mem_addStored {peers : List String} {p u : String} :
    u ∈ addStored parse myUrl peers p ↔
      u ∈ peers ∨ canonicalizePeerUrl parse p = some u ∧ myUrl ≠ some u := by
  unfold addStored
  cases canonicalizePeerUrl parse p with
  | none => simp
  | some canonical =>
    simp only [Option.some.injEq]
    split
    · rename_i hmine
      refine ⟨.inl, fun h => h.resolve_right ?_⟩
      rintro ⟨rfl, hother⟩
      exact hother hmine
    split
    · rename_i hknown
      refine ⟨.inl, fun h => h.elim id ?_⟩
      rintro ⟨rfl, -⟩
      exact hknown
    · rename_i hmine hnew
      rw [List.mem_append, List.mem_singleton]
      refine or_congr_right ⟨?_, fun h => h.1.symm⟩
      rintro rfl
      exact ⟨rfl, hmine⟩

/-- A start begins with the peers of the operator, and with what the check makes of stored ones. -/
theorem mem_startupPeers {settings : PeerSettings} {stored : List String} {u : String} :
    u ∈ startupPeers parse settings stored ↔ u ∈ settings.supplied parse ∨
      ∃ p ∈ stored, canonicalizePeerUrl parse p = some u ∧ settings.nodeUrl ≠ some u := by
  have hfold : ∀ peers : List String,
      u ∈ stored.foldl (addStored parse settings.nodeUrl) peers ↔ u ∈ peers ∨
        ∃ p ∈ stored, canonicalizePeerUrl parse p = some u ∧ settings.nodeUrl ≠ some u := by
    induction stored with
    | nil => simp
    | cons p stored ih =>
      intro peers
      rw [List.foldl_cons, ih, mem_addStored, or_assoc]
      simp
  exact hfold _

namespace PeerEvent

/-- What the operator supplies in an event. -/
def supplied (parse : UrlParser) : PeerEvent → List String
  | .boot settings _ => settings.supplied parse
  | _ => []

/-- What an event takes in from the answer of a peer. -/
def takenIn (parse : UrlParser) (s : PeerStores) : PeerEvent → List String
  | .boot settings answer => Lootcoin.takenIn parse settings.nodeUrl
      (startupPeers parse settings s.table.loadPeers) answer
  | .reconnect peerUrl answer => Lootcoin.takenIn parse s.nodeUrl [peerUrl] answer
  | _ => []

end PeerEvent

namespace PeerStores

variable {s s' : PeerStores} {e : PeerEvent}

/-- The stores as an event finds them: a start finds nothing but the table, and a reconnect begins a
list with its own peer. -/
def foundBy (s : PeerStores) : PeerEvent → PeerStores
  | .boot settings _ => { empty with
      nodeUrl := settings.nodeUrl
      table := s.table }
  | .reconnect peerUrl _ => { s with knownPeers := [peerUrl] }
  | _ => s

/-- Every URL that an event adds to a store passes the check of hosts, unless the operator has
supplied it. -/
structure Guards (parse : UrlParser) (s : PeerStores) (e : PeerEvent) (s' : PeerStores) : Prop where
  known : ∀ u ∈ s'.knownPeers,
    u ∈ (s.foundBy e).knownPeers ∨ u ∈ e.supplied parse ∨ Accepted parse u
  gossip : ∀ u ∈ s'.gossip, u ∈ (s.foundBy e).gossip ∨ u ∈ e.supplied parse ∨ Accepted parse u
  table : ∀ u, s'.table.get u = some () →
    (s.foundBy e).table.get u = some () ∨ u ∈ e.supplied parse ∨ Accepted parse u

theorem boot_eq (settings : PeerSettings) (answer : Option (List String)) (table : PeerTable) :
    boot parse settings answer table =
      let peers := startupPeers parse settings table.loadPeers
      let known := peers ++ takenIn parse settings.nodeUrl peers answer
      ⟨settings.nodeUrl, known, known.toFinset, known.toFinset,
        (takenIn parse settings.nodeUrl peers answer).foldl PeerTable.savePeer
          (peers.foldl PeerTable.savePeer table)⟩ := by
  rw [boot, discoverPeers_eq]

theorem reconnect_eq (peerUrl : String) (answer : Option (List String)) (s : PeerStores) :
    s.reconnect parse peerUrl answer = { s with
      knownPeers := peerUrl :: takenIn parse s.nodeUrl [peerUrl] answer
      table := (takenIn parse s.nodeUrl [peerUrl] answer).foldl PeerTable.savePeer s.table } := by
  rw [reconnect, discoverPeers_eq]
  rfl

/-- An announcement changes nothing, or its URL passes the check and is added. -/
theorem addPeerHandler_cases (parse : UrlParser) (url : String) (s : PeerStores) :
    (s.addPeerHandler parse url).2 = s ∨
    ∃ canonical, canonicalizePeerUrl parse url = some canonical ∧
      (s.addPeerHandler parse url).2 = { s with
        gossip := insert canonical s.gossip
        subscriptions := insert canonical s.subscriptions
        table := s.table.savePeer canonical } := by
  unfold addPeerHandler
  split
  · exact .inl rfl
  rename_i canonical hcanonical
  split
  · exact .inl rfl
  split
  · exact .inl rfl
  exact .inr ⟨canonical, hcanonical, rfl⟩

/-- A start takes in the URLs of its answer besides those with which it begins. -/
theorem guards_boot_iff (hparse : ParsesOrigins parse) {settings : PeerSettings}
    {answer : Option (List String)} :
    Guards parse s (.boot settings answer) (s.step parse (.boot settings answer)) ↔
      ∀ u ∈ PeerEvent.takenIn parse s (.boot settings answer), Accepted parse u := by
  simp only [step, boot_eq]
  constructor
  · intro hg u hu
    rcases hg.known u (List.mem_append_right _ hu) with hfound | hsupplied | haccepted
    · cases hfound
    · exact absurd (mem_startupPeers.mpr (.inl hsupplied)) (not_mem_of_takenIn hu)
    · exact haccepted
  · intro htaken
    have hknown : ∀ u ∈ startupPeers parse settings s.table.loadPeers ++
        Lootcoin.takenIn parse settings.nodeUrl (startupPeers parse settings s.table.loadPeers)
          answer, u ∈ settings.supplied parse ∨ Accepted parse u := by
      intro u hu
      rcases List.mem_append.mp hu with hu | hu
      · rcases mem_startupPeers.mp hu with hu | ⟨p, -, hp, -⟩
        · exact .inl hu
        · exact .inr (accepted_of_canonicalizePeerUrl hparse hp)
      · exact .inr (htaken u hu)
    refine ⟨fun u hu => .inr (hknown u hu), fun u hu => .inr (hknown u (List.mem_toFinset.mp hu)),
      fun u hu => ?_⟩
    rw [get_foldl_savePeer, get_foldl_savePeer] at hu
    rcases hu with hu | hu | hu
    · exact .inr (hknown u (List.mem_append_right _ hu))
    · exact .inr (hknown u (List.mem_append_left _ hu))
    · exact .inl hu

/-- A reconnection takes in the URLs of its answer besides the peer that it asks. -/
theorem guards_reconnect_iff {peerUrl : String} {answer : Option (List String)} :
    Guards parse s (.reconnect peerUrl answer) (s.step parse (.reconnect peerUrl answer)) ↔
      ∀ u ∈ PeerEvent.takenIn parse s (.reconnect peerUrl answer), Accepted parse u := by
  simp only [step, reconnect_eq]
  constructor
  · intro hg u hu
    rcases hg.known u (List.mem_cons_of_mem _ hu) with hfound | hsupplied | haccepted
    · exact absurd hfound (not_mem_of_takenIn hu)
    · cases hsupplied
    · exact haccepted
  · intro htaken
    refine ⟨fun u hu => ?_, fun u hu => .inl hu, fun u hu => ?_⟩
    · rcases List.mem_cons.mp hu with rfl | hu
      · exact .inl (List.mem_singleton_self _)
      · exact .inr (.inr (htaken u hu))
    · rcases get_foldl_savePeer.mp hu with hu | hu
      · exact .inr (.inr (htaken u hu))
      · exact .inl hu

theorem guards_addPeer (hparse : ParsesOrigins parse) (url : String) :
    Guards parse s (.addPeer url) (s.step parse (.addPeer url)) := by
  rcases addPeerHandler_cases parse url s with hs | ⟨canonical, hcanonical, hs⟩
  · rw [step, hs]
    exact ⟨fun u hu => .inl hu, fun u hu => .inl hu, fun u hu => .inl hu⟩
  rw [step, hs]
  have haccepted := accepted_of_canonicalizePeerUrl hparse hcanonical
  refine ⟨fun u hu => .inl hu, fun u hu => ?_, fun u hu => ?_⟩
  · rcases Finset.mem_insert.mp hu with rfl | hu
    · exact .inr (.inr haccepted)
    · exact .inl hu
  · by_cases huc : u = canonical
    · exact .inr (.inr (huc ▸ haccepted))
    · exact .inl (by rwa [PeerTable.savePeer, OrderedTable.get_insert_ne _ _ huc] at hu)

/-- An event adds only what passes exactly when all that it takes in from an answer passes. -/
theorem guards_iff (hparse : ParsesOrigins parse) (h : s.Steps parse e s') :
    Guards parse s e s' ↔ ∀ u ∈ e.takenIn parse s, Accepted parse u := by
  obtain ⟨-, rfl⟩ := h
  cases e with
  | boot settings answer => exact guards_boot_iff hparse
  | reconnect peerUrl answer => exact guards_reconnect_iff
  | addPeer url => exact ⟨fun _ u hu => (by cases hu), fun _ => guards_addPeer hparse url⟩
  | evict stale =>
    refine ⟨fun _ u hu => (by cases hu), fun _ => ⟨fun u hu => .inl hu, fun u hu => .inl ?_,
      fun u hu => .inl (get_of_foldl_deletePeer hu)⟩⟩
    exact (Finset.mem_sdiff.mp hu).1

/-- The URL is in a store. -/
def Stores (s : PeerStores) (u : String) : Prop :=
  u ∈ s.knownPeers ∨ u ∈ s.gossip ∨ s.table.get u = some () ∨ u ∈ s.subscriptions

theorem mem_subscriptions_step {u : String} (hu : u ∈ (s.step parse e).subscriptions) :
    u ∈ s.subscriptions ∨ u ∈ (s.step parse e).gossip := by
  cases e with
  | boot settings answer => exact .inr hu
  | reconnect peerUrl answer => exact .inl hu
  | addPeer url =>
    rw [step] at hu ⊢
    rcases addPeerHandler_cases parse url s with hs | ⟨canonical, -, hs⟩
    · exact .inl (hs ▸ hu)
    · rw [hs] at hu ⊢
      rcases Finset.mem_insert.mp hu with rfl | hu
      · exact .inr (Finset.mem_insert_self _ _)
      · exact .inl hu
  | evict stale => exact .inl hu

/-- What is stored after a guarded event was stored before, or the operator has supplied it, or it
passes the check. -/
theorem Guards.stores (hg : Guards parse s e s') (h : s.Steps parse e s') {u : String}
    (hu : s'.Stores u) : s.Stores u ∨ u ∈ e.supplied parse ∨ Accepted parse u := by
  obtain ⟨hsubscribed, rfl⟩ := h
  have hgossip : u ∈ (s.foundBy e).gossip → s.Stores u := by
    intro hu
    cases e with
    | boot => cases hu
    | reconnect => exact .inr (.inl hu)
    | addPeer => exact .inr (.inl hu)
    | evict => exact .inr (.inl hu)
  have hknown : u ∈ (s.foundBy e).knownPeers → s.Stores u := by
    intro hu
    cases e with
    | boot => cases hu
    | reconnect peerUrl answer =>
      exact .inr (.inr (.inr (List.mem_singleton.mp hu ▸ hsubscribed peerUrl answer rfl)))
    | addPeer => exact .inl hu
    | evict => exact .inl hu
  have htable : (s.foundBy e).table.get u = some () → s.Stores u := by
    intro hu
    cases e <;> exact .inr (.inr (.inl hu))
  rcases hu with hu | hu | hu | hu
  · exact (hg.known u hu).imp_left hknown
  · exact (hg.gossip u hu).imp_left hgossip
  · exact (hg.table u hu).imp_left htable
  · rcases mem_subscriptions_step hu with hu | hu
    · exact .inl (.inr (.inr (.inr hu)))
    · exact (hg.gossip u hu).imp_left hgossip

/-- A run whose answers bring in only URLs that pass the check of hosts. -/
def AnswersWell (parse : UrlParser) (s : PeerStores) (e : PeerEvent) (s' : PeerStores) : Prop :=
  s.Steps parse e s' ∧ ∀ u ∈ e.takenIn parse s, Accepted parse u

/-- The runs in which remote parties add only what passes the check are those in which everything
that is taken in from an answer passes it.  In such a run every stored URL passes it or was supplied
by the operator. -/
theorem guarded_of_run (hparse : ParsesOrigins parse) (es : List PeerEvent) (s : PeerStores) :
    (Runs.Run (fun s e s' => s.Steps parse e s' ∧ Guards parse s e s') empty es s ↔
      Runs.Run (AnswersWell parse) empty es s) ∧
    (Runs.Run (AnswersWell parse) empty es s → ∀ u, s.Stores u →
      (∃ e ∈ es, u ∈ e.supplied parse) ∨ Accepted parse u) := by
  have hiff : ∀ {s : PeerStores} {e : PeerEvent} {s' : PeerStores},
      s.Steps parse e s' ∧ Guards parse s e s' ↔ AnswersWell parse s e s' :=
    and_congr_right fun h => guards_iff hparse h
  refine ⟨⟨fun run => run.mono hiff.mp, fun run => run.mono hiff.mpr⟩, fun run => ?_⟩
  refine run.invariant_mem (P := fun s => ∀ u, s.Stores u →
    (∃ e ∈ es, u ∈ e.supplied parse) ∨ Accepted parse u) (fun {s e s'} he h hs u hu => ?_) ?_
  · rcases (hiff.mpr h).2.stores h.1 hu with hu | hu | hu
    · exact hs u hu
    · exact .inl ⟨e, he, hu⟩
    · exact .inr hu
  · rintro u (hu | hu | hu | hu) <;> cases hu

end PeerStores

namespace Sample

open PeerStores

/-- A parser of a few URLs. -/
def parseUrl : UrlParser := fun s =>
  if s = "http://node.example:3000" then
    some ⟨"http", some (.domain "node.example"), some "node.example", some 3000⟩
  else if s = "http://other.example/blocks" ∨ s = "http://other.example" then
    some ⟨"http", some (.domain "other.example"), some "other.example", none⟩
  else if s = "http://169.254.169.254" then
    some ⟨"http", some (.ipv4 #v[169, 254, 169, 254]), some "169.254.169.254", none⟩
  else none

theorem parseUrl_parsesOrigins : ParsesOrigins parseUrl where
  origin := by
    intro raw url origin h _ horigin
    have hreparse : ∀ (url : Url) (origin' : String), buildPeerOrigin url = some origin' →
        parseUrl (trim origin') = some url → buildPeerOrigin url = some origin →
        ∃ url', parseUrl (trim origin) = some url' ∧ url'.scheme = url.scheme ∧
          url'.host = url.host ∧ buildPeerOrigin url' = some origin := by
      intro url origin' horigin' hurl horigin
      obtain rfl := Option.some.inj (horigin'.symm.trans horigin)
      exact ⟨url, hurl, rfl, rfl, horigin⟩
    unfold parseUrl at h
    split at h
    · cases h
      exact hreparse _ "http://node.example:3000" (by decide +kernel) (by decide +kernel) horigin
    split at h
    · cases h
      exact hreparse _ "http://other.example" (by decide +kernel) (by decide +kernel) horigin
    split at h
    · cases h
      exact hreparse _ "http://169.254.169.254" (by decide +kernel) (by decide +kernel) horigin
    · cases h

/-- A node with one configured peer. -/
def onePeer : PeerSettings := ⟨["http://node.example:3000"], none⟩

/-- The node starts, and the configured peer answers with a list. -/
def answered (peers : List String) : PeerEvent := .boot onePeer (some peers)

/-- The configured peer lists another, and then the address of a metadata service is announced,
which is refused. -/
theorem listedDomain_guarded : ∃ s,
    Runs.Run (fun s e s' => s.Steps parseUrl e s' ∧ Guards parseUrl s e s') empty
      [answered ["http://other.example/blocks"], .addPeer "http://169.254.169.254"] s ∧
    s.knownPeers = ["http://node.example:3000", "http://other.example"] ∧
    ∀ u, s.Stores u → (∃ e ∈ [answered ["http://other.example/blocks"],
      .addPeer "http://169.254.169.254"], u ∈ e.supplied parseUrl) ∨ Accepted parseUrl u := by
  have htaken : (answered ["http://other.example/blocks"]).takenIn parseUrl empty =
      ["http://other.example"] := by
    decide +kernel
  have hchecked : canonicalizePeerUrl parseUrl "http://other.example" =
      some "http://other.example" := by
    decide +kernel
  have run : Runs.Run (AnswersWell parseUrl) empty
      [answered ["http://other.example/blocks"], .addPeer "http://169.254.169.254"]
      ((empty.step parseUrl (answered ["http://other.example/blocks"])).step parseUrl
        (.addPeer "http://169.254.169.254")) := by
    refine .cons ⟨⟨nofun, rfl⟩, fun u hu => ?_⟩ (.cons ⟨⟨nofun, rfl⟩, nofun⟩ (.nil _))
    rw [htaken] at hu
    exact ⟨_, List.mem_singleton.mp hu ▸ hchecked⟩
  exact ⟨_, (guarded_of_run parseUrl_parsesOrigins _ _).1.mpr run, by decide +kernel,
    (guarded_of_run parseUrl_parsesOrigins _ _).2 run⟩

/-- The configured peer lists the address of a metadata service, which comes into every store. -/
theorem listedInternal_taken : ∃ s : PeerStores,
    s = empty.step parseUrl (answered ["http://169.254.169.254"]) ∧
    "http://169.254.169.254" ∈ s.knownPeers ∧ "http://169.254.169.254" ∈ s.gossip ∧
    s.table.get "http://169.254.169.254" = some () ∧
    "http://169.254.169.254" ∉ onePeer.supplied parseUrl ∧
    ¬ Accepted parseUrl "http://169.254.169.254" ∧
    ¬ Guards parseUrl empty (answered ["http://169.254.169.254"]) s := by
  have hrefused : ¬ Accepted parseUrl "http://169.254.169.254" := by
    rintro ⟨origin, h⟩
    have hnone : canonicalizePeerUrl parseUrl "http://169.254.169.254" = none := by decide +kernel
    cases hnone.symm.trans h
  have hsupplied : "http://169.254.169.254" ∉ onePeer.supplied parseUrl := by decide +kernel
  have hknown : "http://169.254.169.254" ∈
      (empty.step parseUrl (answered ["http://169.254.169.254"])).knownPeers := by
    decide +kernel
  refine ⟨_, rfl, hknown, by decide +kernel, by decide +kernel, hsupplied, hrefused, fun h => ?_⟩
  rcases h.known _ hknown with hfound | hs | haccepted
  · cases hfound
  · exact hsupplied hs
  · exact hrefused haccepted

end Sample

end Lootcoin
