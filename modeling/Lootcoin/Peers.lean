import Mathlib.Data.Finset.Card
import Mathlib.Data.List.DropRight
import Mathlib.Data.String.Basic
import Lootcoin.Library.OrderedTable

/-! The peers of a node: how the URL of a peer is checked, and how URLs come into the list of known
peers, into the peers of the gossip, and into the table of peers.  The parser of URLs is a
parameter, and writes to the table succeed. -/

namespace Lootcoin

/-! ### URLs -/

inductive Host where
  | domain (name : String)
  | ipv4 (octets : Vector UInt8 4)
  | ipv6 (segments : Vector UInt16 8)
  deriving DecidableEq

/-- A parsed URL, as far as it is read. -/
structure Url where
  scheme : String
  host : Option Host
  hostStr : Option String
  port : Option UInt16
  deriving DecidableEq

abbrev UrlParser : Type := String → Option Url

/-- The characters that count as white space. -/
def isWhitespace (c : Char) : Bool :=
  let n := c.toNat
  (9 ≤ n && n ≤ 13) || n = 0x20 || n = 0x85 || n = 0xa0 || n = 0x1680 ||
    (0x2000 ≤ n && n ≤ 0x200a) || n = 0x2028 || n = 0x2029 || n = 0x202f || n = 0x205f || n = 0x3000

def trim (s : String) : String :=
  String.ofList ((s.toList.dropWhile isWhitespace).rdropWhile isWhitespace)

/-- Hosts that name the machine itself or a private network. A domain, which is spelled in ASCII, is
not resolved. -/
def Host.isInternal : Host → Bool
  | .domain name =>
    let lower := name.toList.map Char.toLower
    lower = "localhost".toList || ".localhost".toList.isSuffixOf lower
  | .ipv4 octets =>
    octets[0] = 127 || octets[0] = 10 ||
      (octets[0] = 172 && (16 : UInt8) ≤ octets[1] && octets[1] ≤ 31) ||
      (octets[0] = 192 && octets[1] = 168) || (octets[0] = 169 && octets[1] = 254)
  | .ipv6 segments =>
    segments = #v[0, 0, 0, 0, 0, 0, 0, 1] || segments[0] &&& 0xfe00 = 0xfc00 ||
      segments[0] &&& 0xffc0 = 0xfe80

/-- The scheme, the host, and the port unless it is that of the scheme. -/
def buildPeerOrigin (parsed : Url) : Option String :=
  let defaultPort : UInt16 := if parsed.scheme = "http" then 80 else 443
  parsed.hostStr.map fun hostStr =>
    match parsed.port with
    | some p =>
      if p ≠ defaultPort then parsed.scheme ++ "://" ++ hostStr ++ ":" ++ p.toNat.repr
      else parsed.scheme ++ "://" ++ hostStr
    | none => parsed.scheme ++ "://" ++ hostStr

def canonicalizePeerUrlInner (parse : UrlParser) (rawUrl : String) (trusted : Bool) :
    Option String :=
  match parse (trim rawUrl) with
  | none => none
  | some parsed =>
    if parsed.scheme ≠ "http" ∧ parsed.scheme ≠ "https" then none
    else
      match parsed.host with
      | none => none
      | some host =>
        if trusted then buildPeerOrigin parsed
        else if host.isInternal then none
        else buildPeerOrigin parsed

/-- The origin of a URL, unless its host is internal. -/
def canonicalizePeerUrl (parse : UrlParser) (rawUrl : String) : Option String :=
  canonicalizePeerUrlInner parse rawUrl false

/-- The origin of a URL of any host. -/
def canonicalizePeerUrlTrusted (parse : UrlParser) (rawUrl : String) : Option String :=
  canonicalizePeerUrlInner parse rawUrl true

/-! ### The stores -/

def maxPeers : ℕ := 50

abbrev PeerTable : Type := OrderedTable String Unit

def PeerTable.savePeer (table : PeerTable) (url : String) : PeerTable := table.insert url ()

def PeerTable.deletePeer (table : PeerTable) (url : String) : PeerTable := table.remove url

def PeerTable.loadPeers (table : PeerTable) : List String := table.entries.map fun e => e.1

/-- The stores for the URLs of peers: the list that the last synchronization has left, the peers of
the gossip, those with a subscription, and the table in the database. -/
structure PeerStores where
  nodeUrl : Option String
  knownPeers : List String
  gossip : Finset String
  subscriptions : Finset String
  table : PeerTable

/-- The settings of the operator: the entries of `PEERS`, and the node's own URL. -/
structure PeerSettings where
  peers : List String
  nodeUrl : Option String

/-- The settings of the operator that are URLs. -/
def PeerSettings.supplied (parse : UrlParser) (settings : PeerSettings) : List String :=
  settings.peers.filterMap (canonicalizePeerUrlTrusted parse)

/-- Adds a stored peer to those of the operator. -/
def addStored (parse : UrlParser) (myUrl : Option String) (peers : List String) (p : String) :
    List String :=
  match canonicalizePeerUrl parse p with
  | none => peers
  | some canonical =>
    if myUrl = some canonical then peers
    else if canonical ∈ peers then peers
    else peers ++ [canonical]

/-- The peers with which a start begins. -/
def startupPeers (parse : UrlParser) (settings : PeerSettings) (stored : List String) :
    List String :=
  stored.foldl (addStored parse settings.nodeUrl) (settings.supplied parse)

/-- Merges the peers of an answer into the known ones and into the table. -/
def mergeDiscovered (parse : UrlParser) (myUrl : Option String) :
    List String → PeerTable → List String → List String × PeerTable
  | knownPeers, table, [] => (knownPeers, table)
  | knownPeers, table, p :: peers =>
    if maxPeers ≤ knownPeers.length then (knownPeers, table)
    else
      match canonicalizePeerUrlTrusted parse p with
      | none => mergeDiscovered parse myUrl knownPeers table peers
      | some canonical =>
        if myUrl = some canonical then mergeDiscovered parse myUrl knownPeers table peers
        else if canonical ∈ knownPeers then mergeDiscovered parse myUrl knownPeers table peers
        else
          mergeDiscovered parse myUrl (knownPeers ++ [canonical]) (table.savePeer canonical) peers

/-- The discovery of peers at the end of a synchronization. There is no answer where no peer was
asked or none was read. -/
def discoverPeers (parse : UrlParser) (myUrl : Option String) (knownPeers : List String)
    (table : PeerTable) (answer : Option (List String)) : List String × PeerTable :=
  if knownPeers.isEmpty then (knownPeers, table)
  else
    match answer with
    | none => (knownPeers, table)
    | some peers => mergeDiscovered parse myUrl knownPeers table peers

namespace PeerStores

def empty : PeerStores := ⟨none, [], ∅, ∅, .empty⟩

/-- A start, which knows only the table. -/
def boot (parse : UrlParser) (settings : PeerSettings) (answer : Option (List String))
    (table : PeerTable) : PeerStores :=
  let peers := startupPeers parse settings table.loadPeers
  let (knownPeers, table) := discoverPeers parse settings.nodeUrl peers
    (peers.foldl PeerTable.savePeer table) answer
  ⟨settings.nodeUrl, knownPeers, knownPeers.toFinset, knownPeers.toFinset, table⟩

/-- The synchronization of a subscription, before it connects. -/
def reconnect (parse : UrlParser) (peerUrl : String) (answer : Option (List String))
    (s : PeerStores) : PeerStores :=
  let (knownPeers, table) := discoverPeers parse s.nodeUrl [peerUrl] s.table answer
  { s with knownPeers := knownPeers, table := table }

/-- A peer announces a URL. The number is the status of the response. -/
def addPeerHandler (parse : UrlParser) (url : String) (s : PeerStores) : ℕ × PeerStores :=
  match canonicalizePeerUrl parse url with
  | none => (400, s)
  | some canonical =>
    if s.nodeUrl = some canonical then (400, s)
    else if maxPeers ≤ s.gossip.card ∧ canonical ∉ s.gossip then (429, s)
    else
      (200, { s with
        gossip := insert canonical s.gossip
        subscriptions := insert canonical s.subscriptions
        table := s.table.savePeer canonical })

/-- Peers that were not reached for a day leave the gossip and the table. -/
def evictStale (stale : List String) (s : PeerStores) : PeerStores :=
  let evicted := stale.filter (· ∈ s.gossip)
  { s with
    gossip := s.gossip \ evicted.toFinset
    table := evicted.foldl PeerTable.deletePeer s.table }

end PeerStores

inductive PeerEvent where
  | boot (settings : PeerSettings) (answer : Option (List String))
  | reconnect (peerUrl : String) (answer : Option (List String))
  | addPeer (url : String)
  | evict (stale : List String)

namespace PeerStores

def step (parse : UrlParser) (s : PeerStores) : PeerEvent → PeerStores
  | .boot settings answer => boot parse settings answer s.table
  | .reconnect peerUrl answer => s.reconnect parse peerUrl answer
  | .addPeer url => (s.addPeerHandler parse url).2
  | .evict stale => s.evictStale stale

/-- A subscription reconnects only to the peer for which it was made. -/
def Steps (parse : UrlParser) (s : PeerStores) (e : PeerEvent) (s' : PeerStores) : Prop :=
  (∀ peerUrl answer, e = .reconnect peerUrl answer → peerUrl ∈ s.subscriptions) ∧
    s' = s.step parse e

end PeerStores

end Lootcoin
