import Mathlib.Data.Finset.Card
import Lootcoin.Peers.Filter

/-! How many peers a node holds.  An announcement is refused when the gossip is full, and a
discovery ends when its own list is, but neither looks at the table, to which both write and from
which a start takes everything.  So the bound holds as long as the table has room for what is
new. -/

namespace Lootcoin

variable {parse : UrlParser} {myUrl : Option String}

/-! ### The table -/

namespace PeerTable

variable {table : PeerTable} {us : List String} {u : String}

def urls (table : PeerTable) : Finset String := table.loadPeers.toFinset

theorem mem_urls : u ∈ table.urls ↔ table.get u = some () := by
  rw [urls, List.mem_toFinset, loadPeers, List.mem_map]
  constructor
  · rintro ⟨e, he, rfl⟩
    exact OrderedTable.mem_entries.mp he
  · exact fun h => ⟨(u, ()), OrderedTable.mem_entries.mpr h, rfl⟩

/-- The table has one entry for each URL. -/
theorem card_urls (table : PeerTable) : table.urls.card = table.entries.length := by
  rw [urls, loadPeers, List.toFinset_card_of_nodup table.nodup_keys, List.length_map]

theorem urls_foldl_savePeer : (us.foldl savePeer table).urls = table.urls ∪ us.toFinset := by
  ext u
  rw [mem_urls, get_foldl_savePeer, Finset.mem_union, mem_urls, List.mem_toFinset, or_comm]

/-- What is new to the table comes beside what it holds. -/
theorem card_urls_foldl_savePeer : (us.foldl savePeer table).urls.card =
    table.urls.card + (us.toFinset \ table.urls).card := by
  rw [urls_foldl_savePeer, ← Finset.union_sdiff_self_eq_union,
    Finset.card_union_of_disjoint Finset.disjoint_sdiff]

/-- Every write of several leaves the table within the bound exactly when the last one does. -/
theorem bounded_prefixes_iff :
    (∀ written, written ≠ [] → written <+: us →
      (written.foldl savePeer table).urls.card ≤ maxPeers) ↔
      (us ≠ [] → table.urls.card + (us.toFinset \ table.urls).card ≤ maxPeers) := by
  rw [← card_urls_foldl_savePeer]
  constructor
  · exact fun h hus => h us hus (List.prefix_refl us)
  · intro h written hne hpre
    have hsub : written.toFinset ⊆ us.toFinset :=
      fun u hu => List.mem_toFinset.mpr (hpre.subset (List.mem_toFinset.mp hu))
    have hus : us ≠ [] := by
      rintro rfl
      exact hne (List.prefix_nil.mp hpre)
    refine le_trans (Finset.card_le_card ?_) (h hus)
    rw [urls_foldl_savePeer, urls_foldl_savePeer]
    exact Finset.union_subset_union_right hsub

end PeerTable

/-! ### What an event writes -/

/-- The URL of an announcement, if it is added. -/
def announced (parse : UrlParser) (s : PeerStores) (url : String) : List String :=
  match canonicalizePeerUrl parse url with
  | none => []
  | some canonical =>
    if s.nodeUrl = some canonical then []
    else if maxPeers ≤ s.gossip.card ∧ canonical ∉ s.gossip then []
    else [canonical]

/-- The URLs that an event writes to the table, in order. -/
def PeerEvent.written (parse : UrlParser) (s : PeerStores) : PeerEvent → List String
  | .boot settings answer =>
    let peers := startupPeers parse settings s.table.loadPeers
    peers ++ Lootcoin.takenIn parse settings.nodeUrl peers answer
  | .reconnect peerUrl answer => Lootcoin.takenIn parse s.nodeUrl [peerUrl] answer
  | .addPeer url => announced parse s url
  | .evict _ => []

namespace PeerStores

variable {s s' : PeerStores} {e : PeerEvent}

theorem addPeerHandler_eq (url : String) : (s.addPeerHandler parse url).2 = { s with
    gossip := s.gossip ∪ (announced parse s url).toFinset
    subscriptions := s.subscriptions ∪ (announced parse s url).toFinset
    table := (announced parse s url).foldl PeerTable.savePeer s.table } := by
  unfold addPeerHandler announced
  cases canonicalizePeerUrl parse url with
  | none => simp
  | some canonical =>
    simp only
    split
    · simp
    split
    · simp
    · simp

/-- An announced URL is new to the gossip only when that is not full. -/
theorem mem_announced {url u : String} (h : u ∈ announced parse s url) :
    s.gossip.card < maxPeers ∨ u ∈ s.gossip := by
  unfold announced at h
  split at h
  · cases h
  split at h
  · cases h
  split at h
  · cases h
  rename_i hroom
  obtain rfl := List.mem_singleton.mp h
  rwa [not_and_or, Nat.not_le, not_not] at hroom

theorem length_announced_le (url : String) : (announced parse s url).length ≤ 1 := by
  unfold announced
  repeat' split
  all_goals simp

/-- The table is written to by nothing else, and only a removal of stale peers takes from it. -/
theorem table_step (h : ∀ stale, e ≠ .evict stale) :
    (s.step parse e).table = (e.written parse s).foldl PeerTable.savePeer s.table := by
  cases e with
  | boot settings answer =>
    rw [step, boot_eq, PeerEvent.written]
    exact List.foldl_append.symm
  | reconnect peerUrl answer =>
    rw [step, reconnect_eq]
    rfl
  | addPeer url =>
    rw [step, addPeerHandler_eq]
    rfl
  | evict stale => exact absurd rfl (h stale)

/-- The gossip is within the bound after an event, and the table was so after every write. -/
structure Bounded (parse : UrlParser) (s : PeerStores) (e : PeerEvent) (s' : PeerStores) :
    Prop where
  gossip : s'.gossip.card ≤ maxPeers
  table : ∀ written, written ≠ [] → written <+: e.written parse s →
    (written.foldl PeerTable.savePeer s.table).urls.card ≤ maxPeers

/-- A start begins with no more peers, of the operator and from the table, than the bound. -/
def StartsFew (parse : UrlParser) (s : PeerStores) : PeerEvent → Prop
  | .boot settings _ => (startupPeers parse settings s.table.loadPeers).toFinset.card ≤ maxPeers
  | _ => True

/-- The table has room for the URLs of an event that are new to it. -/
def HasRoom (parse : UrlParser) (s : PeerStores) (e : PeerEvent) : Prop :=
  e.written parse s ≠ [] →
    s.table.urls.card + ((e.written parse s).toFinset \ s.table.urls).card ≤ maxPeers

/-! ### The gossip -/

theorem length_takenIn_le (knownPeers : List String) (answer : Option (List String)) :
    (takenIn parse myUrl knownPeers answer).length ≤ maxPeers - knownPeers.length := by
  unfold takenIn
  split
  · exact Nat.zero_le _
  · cases answer with
    | none => exact Nat.zero_le _
    | some peers => exact List.length_take_le _ _

/-- A discovery takes a list that is not too long to the bound at most, and leaves a longer one. -/
theorem card_discovered_iff (knownPeers : List String) (answer : Option (List String)) :
    (knownPeers ++ takenIn parse myUrl knownPeers answer).toFinset.card ≤ maxPeers ↔
      knownPeers.toFinset.card ≤ maxPeers := by
  constructor
  · refine le_trans (Finset.card_le_card ?_)
    rw [List.toFinset_append]
    exact Finset.subset_union_left
  · intro h
    have htaken : (takenIn parse myUrl knownPeers answer).length ≤ maxPeers - knownPeers.length :=
      length_takenIn_le knownPeers answer
    rcases Nat.le_total knownPeers.length maxPeers with hfew | hmany
    · refine le_trans (List.toFinset_card_le _) ?_
      rw [List.length_append]
      omega
    · rw [Nat.sub_eq_zero_of_le hmany] at htaken
      rwa [List.eq_nil_of_length_eq_zero (Nat.le_zero.mp htaken), List.append_nil]

theorem card_gossip_iff (hs : s.gossip.card ≤ maxPeers) :
    (s.step parse e).gossip.card ≤ maxPeers ↔ StartsFew parse s e := by
  cases e with
  | boot settings answer =>
    rw [step, boot_eq]
    exact card_discovered_iff _ answer
  | reconnect peerUrl answer =>
    rw [step, reconnect_eq]
    exact iff_of_true hs trivial
  | addPeer url =>
    refine iff_of_true ?_ trivial
    rw [step, addPeerHandler_eq]
    by_cases hsub : (announced parse s url).toFinset ⊆ s.gossip
    · rwa [Finset.union_eq_left.mpr hsub]
    · -- only an announced URL outside the gossip needs room there, which has been looked for
      obtain ⟨u, hu, hnew⟩ := Finset.not_subset.mp hsub
      have hroom := (mem_announced (List.mem_toFinset.mp hu)).resolve_right hnew
      have hone : (announced parse s url).toFinset.card ≤ 1 :=
        (List.toFinset_card_le _).trans (length_announced_le url)
      exact (Finset.card_union_le _ _).trans (by omega)
  | evict stale =>
    exact iff_of_true ((Finset.card_le_card Finset.sdiff_subset).trans hs) trivial

/-! ### Runs -/

end PeerStores

namespace Sample

open PeerStores

/-- A parser of URLs that are a domain behind their scheme. -/
def parseDomain : UrlParser := fun s =>
  if "http://".toList.isPrefixOf s.toList then
    let host := String.ofList (s.toList.drop 7)
    some ⟨"http", some (.domain host), some host, none⟩
  else none

def letters (n : ℕ) : String := String.ofList (List.replicate (n + 1) 'a')

/-- A peer for every number. -/
def numbered (n : ℕ) : String := "http://" ++ letters n

theorem numbered_injective : Function.Injective numbered := by
  intro m n h
  have hlength := congrArg (fun s : String => s.toList.length) h
  simpa [numbered, letters] using hlength

theorem canonicalizePeerUrlInner_numbered (n : ℕ) (trusted : Bool) :
    canonicalizePeerUrlInner parseDomain (numbered n) trusted = some (numbered n) := by
  have hletters : Solid (letters n) := by
    intro c hc
    rw [letters, String.toList_ofList] at hc
    rw [List.eq_of_mem_replicate hc]
    decide
  have hsolid : Solid (numbered n) := Solid.append (by decide) hletters
  refine canonicalizePeerUrlInner_eq_some.mpr
    ⟨⟨"http", some (.domain (letters n)), some (letters n), none⟩, .domain (letters n), ?_,
      .inl rfl, rfl, .inr ?_, ?_⟩
  · rw [hsolid.trim_eq]
    simp [parseDomain, numbered, String.toList_append]
  · rw [← Bool.not_eq_true, Host.domain_isInternal_iff, Host.NamesLocalhost, letters,
      String.toList_ofList, List.map_replicate]
    rintro (h | h)
    · have hmem : 'l' ∈ "localhost".toList := by decide
      rw [← h] at hmem
      exact absurd (List.eq_of_mem_replicate hmem) (by decide)
    · have hmem : '.' ∈ ".localhost".toList := by decide
      exact absurd (List.eq_of_mem_replicate (h.subset hmem)) (by decide)
  · rfl

/-- A node with one configured peer. -/
def numberedPeer : PeerSettings := ⟨[numbered 0], none⟩

/-- The node starts alone with its configured peer, to which the subscription reconnects several
times, and finds one more peer every time. -/
def reconnections (n : ℕ) : List PeerEvent :=
  .boot numberedPeer none ::
    (List.range n).map fun i => .reconnect (numbered 0) (some [numbered (i + 1)])

theorem takenIn_numbered (n : ℕ) :
    takenIn parseDomain none [numbered 0] (some [numbered (n + 1)]) = [numbered (n + 1)] := by
  have hne : numbered (n + 1) ≠ numbered 0 := fun h => absurd (numbered_injective h) (by omega)
  have htrusted := canonicalizePeerUrlInner_numbered (n + 1) true
  simp [takenIn, newPeers, canonicalizePeerUrlTrusted, htrusted, hne, maxPeers,
    List.eraseDups_cons]

theorem supplied_numberedPeer : numberedPeer.supplied parseDomain = [numbered 0] := by
  simp [PeerSettings.supplied, numberedPeer, canonicalizePeerUrlTrusted,
    canonicalizePeerUrlInner_numbered]

/-- Every reconnection leaves one more peer in the table. -/
theorem run_reconnections (n : ℕ) : ∃ s,
    Runs.Run (Steps parseDomain) empty (reconnections n) s ∧ s.nodeUrl = none ∧
    numbered 0 ∈ s.subscriptions ∧ s.table.urls = (Finset.range (n + 1)).image numbered := by
  induction n with
  | zero =>
    refine ⟨_, .cons ⟨fun _ _ h => PeerEvent.noConfusion h, rfl⟩ (.nil _), ?_⟩
    have hstart : startupPeers parseDomain numberedPeer empty.table.loadPeers = [numbered 0] :=
      supplied_numberedPeer
    rw [step, boot_eq, hstart]
    refine ⟨rfl, by simp, ?_⟩
    rw [PeerTable.urls_foldl_savePeer, PeerTable.urls_foldl_savePeer]
    rfl
  | succ n ih =>
    obtain ⟨s, run, hown, hsubscribed, htable⟩ := ih
    have hreconnect : Steps parseDomain s
        (.reconnect (numbered 0) (some [numbered (n + 1)]))
        (s.step parseDomain (.reconnect (numbered 0) (some [numbered (n + 1)]))) := by
      refine ⟨fun peerUrl answer h => ?_, rfl⟩
      cases h
      exact hsubscribed
    have hevents : reconnections (n + 1) =
        reconnections n ++ [.reconnect (numbered 0) (some [numbered (n + 1)])] := by
      simp [reconnections, List.range_succ]
    refine ⟨_, hevents ▸ run.snoc hreconnect, ?_⟩
    · rw [step, reconnect_eq, hown, takenIn_numbered]
      refine ⟨rfl, hsubscribed, ?_⟩
      rw [PeerTable.urls_foldl_savePeer, htable, Finset.range_add_one (n := n + 1),
        Finset.image_insert, Finset.insert_eq, Finset.union_comm]
      rfl

end Sample

end Lootcoin
