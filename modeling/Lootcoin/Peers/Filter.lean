import Mathlib.Tactic.IntervalCases
import Lootcoin.Library.Cidr
import Lootcoin.Peers.Guard

/-! What the check of hosts keeps out.  It knows the internal networks by their IPv4 and by their
IPv6 addresses, and the machine itself by its name.  An IPv4 address that is written as an IPv6 one
passes it, and so does the name with the dot of the root behind it. -/

namespace Lootcoin

variable {parse : UrlParser} {raw origin : String} {host : Host}

/-! ### Internal hosts -/

namespace Host

def ipv4Address (octets : Vector UInt8 4) : ℕ :=
  (((octets.get 0).toNat * 2 ^ 8 + (octets.get 1).toNat) * 2 ^ 8 + (octets.get 2).toNat) * 2 ^ 8 +
    (octets.get 3).toNat

/-- The last seven segments of an address, as one number. -/
def ipv6Rest (segments : Vector UInt16 8) : ℕ :=
  (((((segments[1].toNat * 2 ^ 16 + segments[2].toNat) * 2 ^ 16 + segments[3].toNat) * 2 ^ 16 +
    segments[4].toNat) * 2 ^ 16 + segments[5].toNat) * 2 ^ 16 + segments[6].toNat) * 2 ^ 16 +
      segments[7].toNat

def ipv6Address (segments : Vector UInt16 8) : ℕ :=
  (segments.get 0).toNat * 2 ^ 112 + ipv6Rest segments

/-- The networks 127.0.0.0/8, 10.0.0.0/8, 172.16.0.0/12, 192.168.0.0/16, and 169.254.0.0/16. -/
def internalV4 : List (Cidr.Block 32) :=
  [⟨127 * 2 ^ 24, 8⟩, ⟨10 * 2 ^ 24, 8⟩, ⟨(172 * 2 ^ 8 + 16) * 2 ^ 16, 12⟩,
    ⟨(192 * 2 ^ 8 + 168) * 2 ^ 16, 16⟩, ⟨(169 * 2 ^ 8 + 254) * 2 ^ 16, 16⟩]

/-- The address ::1, and the networks fc00::/7 and fe80::/10. -/
def internalV6 : List (Cidr.Block 128) :=
  [⟨1, 128⟩, ⟨0xfc00 * 2 ^ 112, 7⟩, ⟨0xfe80 * 2 ^ 112, 10⟩]

/-- The addresses ::ffff:a.b.c.d, which stand for IPv4 addresses. -/
def mappedV4 : Cidr.Block 128 := ⟨0xffff * 2 ^ 32, 96⟩

/-- An IPv6 address stands for an IPv4 address of an internal network. -/
def MapsInternal : Host → Prop
  | .domain _ => False
  | .ipv4 _ => False
  | .ipv6 segments => mappedV4.Contains (ipv6Address segments) ∧
      ∃ b ∈ internalV4, b.Contains (ipv6Address segments % 2 ^ 32)

/-- The name of the machine itself, or one below it, in any case. -/
def NamesLocalhost (name : String) : Prop :=
  name.toList.map Char.toLower = "localhost".toList ∨
    ".localhost".toList <:+ name.toList.map Char.toLower

/-- An address of an internal network in any of its forms, or a name of the machine itself. -/
def Internal : Host → Prop
  | .domain name => NamesLocalhost name
  | .ipv4 octets => ∃ b ∈ internalV4, b.Contains (ipv4Address octets)
  | .ipv6 segments => (∃ b ∈ internalV6, b.Contains (ipv6Address segments)) ∨
      MapsInternal (.ipv6 segments)

/-- A name of the machine itself that ends in the dot of the root. -/
def NamesRootedLocalhost : Host → Prop
  | .domain name => ∃ stem, name = stem ++ "." ∧ NamesLocalhost stem
  | _ => False

theorem ipv4_isInternal_iff (octets : Vector UInt8 4) :
    (Host.ipv4 octets).isInternal = true ↔ ∃ b ∈ internalV4, b.Contains (ipv4Address octets) := by
  have h0 := octets[0].toNat_lt
  have h1 := octets[1].toNat_lt
  have h2 := octets[2].toNat_lt
  have h3 := octets[3].toNat_lt
  have haddress : ipv4Address octets = ((octets[0].toNat * 2 ^ 8 + octets[1].toNat) * 2 ^ 8 +
      octets[2].toNat) * 2 ^ 8 + octets[3].toNat := rfl
  simp only [isInternal, internalV4, Cidr.Block.Contains, haddress, Bool.or_eq_true,
    Bool.and_eq_true, decide_eq_true_eq, ← UInt8.toNat_inj, UInt8.le_iff_toNat_le]
  simp
  omega

theorem ipv6Rest_lt (segments : Vector UInt16 8) : ipv6Rest segments < 2 ^ 112 := by
  have h1 := segments[1].toNat_lt
  have h2 := segments[2].toNat_lt
  have h3 := segments[3].toNat_lt
  have h4 := segments[4].toNat_lt
  have h5 := segments[5].toNat_lt
  have h6 := segments[6].toNat_lt
  have h7 := segments[7].toNat_lt
  unfold ipv6Rest
  omega

/-- A test of the first segment through a mask is a test for a network. -/
theorem and_eq_iff_contains (segments : Vector UInt16 8) {base : UInt16} {length : ℕ}
    {mask : UInt16} (hlength : length ≤ 16) (hmask : mask.toNat = 2 ^ 16 - 2 ^ (16 - length))
    (hbase : base &&& mask = base) :
    segments[0] &&& mask = base ↔
      (⟨base.toNat * 2 ^ 112, length⟩ : Cidr.Block 128).Contains (ipv6Address segments) := by
  have hfirst : (Cidr.Block.extend (⟨base.toNat, length⟩ : Cidr.Block 16) 112).Contains
      (ipv6Address segments) ↔ (⟨base.toNat, length⟩ : Cidr.Block 16).Contains segments[0].toNat :=
    Cidr.Block.contains_extend hlength (ipv6Rest_lt segments)
  refine Iff.trans ?_ hfirst.symm
  rw [Cidr.Block.contains_iff_and segments[0].toNat_lt base.toNat_lt, ← hmask, ← UInt16.toNat_and,
    ← UInt16.toNat_and, hbase, UInt16.toNat_inj]

theorem eq_loopback_iff (segments : Vector UInt16 8) :
    segments = #v[0, 0, 0, 0, 0, 0, 0, 1] ↔
      (⟨1, 128⟩ : Cidr.Block 128).Contains (ipv6Address segments) := by
  rw [Cidr.Block.contains_full rfl]
  constructor
  · rintro rfl
    rfl
  · intro h
    replace h : segments[0].toNat * 2 ^ 112 + ipv6Rest segments = 1 := h
    unfold ipv6Rest at h
    ext i hi
    interval_cases i <;> simp <;> omega

theorem ipv6_isInternal_iff (segments : Vector UInt16 8) :
    (Host.ipv6 segments).isInternal = true ↔
      ∃ b ∈ internalV6, b.Contains (ipv6Address segments) := by
  have hlocal := @and_eq_iff_contains segments 0xfc00 7 0xfe00 (by decide) (by decide) (by decide)
  have hlink := @and_eq_iff_contains segments 0xfe80 10 0xffc0 (by decide) (by decide) (by decide)
  simp only [isInternal, Bool.or_eq_true, decide_eq_true_eq, eq_loopback_iff, hlocal, hlink,
    internalV6, List.mem_cons, List.not_mem_nil, or_false, exists_eq_or_imp, exists_eq_left,
    or_assoc]
  rfl

theorem domain_isInternal_iff (name : String) :
    (Host.domain name).isInternal = true ↔ NamesLocalhost name := by
  simp only [isInternal, NamesLocalhost, Bool.or_eq_true, decide_eq_true_eq,
    List.isSuffixOf_iff_suffix]

/-- An address that stands for an IPv4 address lies in no network of IPv6. -/
theorem isInternal_of_mapsInternal (h : host.MapsInternal) : host.isInternal = false := by
  cases host with
  | domain name => exact h.elim
  | ipv4 octets => exact h.elim
  | ipv6 segments =>
    obtain ⟨hmapped, -⟩ := h
    rw [← Bool.not_eq_true, ipv6_isInternal_iff]
    simp only [Cidr.Block.Contains, mappedV4, internalV6, List.mem_cons, List.not_mem_nil, or_false,
      exists_eq_or_imp, exists_eq_left] at hmapped ⊢
    omega

/-- The check knows the internal hosts, except for IPv4 addresses that are written as IPv6 ones. -/
theorem internal_iff : host.Internal ↔ host.isInternal = true ∨ host.MapsInternal := by
  cases host with
  | domain name => rw [domain_isInternal_iff, MapsInternal, or_false, Internal]
  | ipv4 octets => rw [ipv4_isInternal_iff, MapsInternal, or_false, Internal]
  | ipv6 segments => rw [ipv6_isInternal_iff, Internal]

/-- A name of the machine itself does not end in a dot. -/
theorem isInternal_of_namesRootedLocalhost (h : host.NamesRootedLocalhost) :
    host.isInternal = false := by
  cases host with
  | ipv4 octets => exact h.elim
  | ipv6 segments => exact h.elim
  | domain name =>
    obtain ⟨stem, rfl, -⟩ := h
    rw [← Bool.not_eq_true, domain_isInternal_iff, NamesLocalhost, String.toList_append,
      List.map_append]
    rintro (h | ⟨front, h⟩)
    · exact absurd (congrArg List.getLast? h) (by simp)
    · exact absurd (congrArg List.getLast? h) (by simp)

end Host

/-! ### Origins -/

/-- What follows the host in an origin. -/
def portSuffix : Option UInt16 → String
  | none => ""
  | some p => ":" ++ p.toNat.repr

/-- A text without white space. -/
def Solid (s : String) : Prop := ∀ c ∈ s.toList, isWhitespace c = false

instance (s : String) : Decidable (Solid s) :=
  List.decidableBAll (fun c => isWhitespace c = false) s.toList

/-- The parser reads what it has made of a URL of the web as before: it writes a host without white
space, drops the port of the scheme, and parses the scheme, the host, and the port back. -/
structure ParsesBack (parse : UrlParser) : Prop where
  hostStr : ∀ raw url hostStr, parse raw = some url → url.hostStr = some hostStr → Solid hostStr
  port : ∀ raw url, parse raw = some url →
    url.port ≠ some (if url.scheme = "http" then 80 else 443)
  origin : ∀ raw url hostStr, parse raw = some url → url.scheme = "http" ∨ url.scheme = "https" →
    url.hostStr = some hostStr →
    parse (url.scheme ++ "://" ++ hostStr ++ portSuffix url.port) = some url

theorem Solid.append {s t : String} (hs : Solid s) (ht : Solid t) : Solid (s ++ t) := by
  intro c hc
  rw [String.toList_append, List.mem_append] at hc
  exact hc.elim (hs c) (ht c)

theorem Solid.trim_eq {s : String} (h : Solid s) : trim s = s := by
  have hdrop : s.toList.dropWhile isWhitespace = s.toList := by
    cases hs : s.toList with
    | nil => rfl
    | cons c l => exact List.dropWhile_cons_of_neg (by simp [h c (hs ▸ List.mem_cons_self)])
  rw [trim, hdrop, List.rdropWhile_eq_self_iff.mpr, String.ofList_toList]
  intro hne
  simp [h _ (List.getLast_mem hne)]

theorem solid_repr (n : ℕ) : Solid n.repr := by
  intro c hc
  rw [Nat.toList_repr] at hc
  have hdigit := Nat.isDigit_of_mem_toDigits (by decide) (by decide) hc
  simp only [Char.isDigit, Bool.and_eq_true, decide_eq_true_eq, ge_iff_le,
    UInt32.le_iff_toNat_le] at hdigit
  have hlow : 48 ≤ c.toNat := hdigit.1
  have hhigh : c.toNat ≤ 57 := hdigit.2
  simp only [isWhitespace, Bool.or_eq_false_iff, Bool.and_eq_false_iff, decide_eq_false_iff_not]
  omega

theorem solid_portSuffix (port : Option UInt16) : Solid (portSuffix port) := by
  cases port with
  | none =>
    rw [portSuffix]
    decide
  | some p => exact Solid.append (by decide) (solid_repr _)

/-- An origin parses back. -/
theorem ParsesBack.parse_origin (hparse : ParsesBack parse) {url : Url}
    (hurl : parse raw = some url) (hscheme : url.scheme = "http" ∨ url.scheme = "https")
    (horigin : buildPeerOrigin url = some origin) : parse (trim origin) = some url := by
  obtain ⟨hostStr, hhost, horigin⟩ := Option.map_eq_some_iff.mp horigin
  have hport := hparse.port raw url hurl
  have hserialized : url.scheme ++ "://" ++ hostStr ++ portSuffix url.port = origin := by
    rw [← horigin]
    cases hp : url.port with
    | none => rw [portSuffix, String.append_empty]
    | some p =>
      rw [hp, Ne, Option.some.injEq] at hport
      simp only
      rw [if_pos hport, portSuffix, ← String.append_assoc]
  have hsolid : Solid url.scheme := by
    rcases hscheme with h | h
    · rw [h]
      decide
    · rw [h]
      decide
  rw [← hserialized, Solid.trim_eq, hparse.origin raw url hostStr hurl hscheme hhost]
  have horigin : Solid (url.scheme ++ "://") := hsolid.append (by decide)
  exact (horigin.append (hparse.hostStr raw url hostStr hurl hhost)).append (solid_portSuffix _)

theorem canonicalizePeerUrl_eq_some : canonicalizePeerUrl parse raw = some origin ↔ ∃ url host,
    parse (trim raw) = some url ∧ (url.scheme = "http" ∨ url.scheme = "https") ∧
    url.host = some host ∧ host.isInternal = false ∧ buildPeerOrigin url = some origin := by
  rw [canonicalizePeerUrl, canonicalizePeerUrlInner_eq_some]
  simp

/-- What the check makes of a URL it leaves as it is. -/
theorem canonicalizePeerUrl_idem (hparse : ParsesBack parse)
    (h : canonicalizePeerUrl parse raw = some origin) :
    canonicalizePeerUrl parse origin = some origin := by
  obtain ⟨url, host, hurl, hscheme, hhost, hexternal, horigin⟩ := canonicalizePeerUrl_eq_some.mp h
  exact canonicalizePeerUrl_eq_some.mpr
    ⟨url, host, hparse.parse_origin hurl hscheme horigin, hscheme, hhost, hexternal, horigin⟩

/-! ### The check -/

/-- The host of a URL of the web. -/
def WebHost (parse : UrlParser) (raw : String) (host : Host) : Prop :=
  ∃ url, parse (trim raw) = some url ∧ (url.scheme = "http" ∨ url.scheme = "https") ∧
    url.host = some host ∧ url.hostStr.isSome = true

/-- The check lets a URL pass only if its host is none of certain hosts, and leaves what it makes of
the URL as it is. -/
def KeepsOut (hosts : Host → Prop) (parse : UrlParser) (raw : String) : Prop :=
  ∀ origin, canonicalizePeerUrl parse raw = some origin →
    (∀ url host, parse (trim raw) = some url → url.host = some host → ¬ hosts host) ∧
      canonicalizePeerUrl parse origin = some origin

/-- The check keeps out hosts exactly when the host of the URL is none of those that it misses. -/
theorem keepsOut_iff {hosts missed : Host → Prop} (hparse : ParsesBack parse) (raw : String)
    (hiff : ∀ {host}, hosts host ↔ host.isInternal = true ∨ missed host)
    (hmissed : ∀ {host}, missed host → host.isInternal = false) :
    KeepsOut hosts parse raw ↔ ∀ host, WebHost parse raw host → ¬ missed host := by
  constructor
  · rintro h host ⟨url, hurl, hscheme, hhost, hstr⟩ hmiss
    obtain ⟨hostStr, hstr⟩ := Option.isSome_iff_exists.mp hstr
    have haccepted := canonicalizePeerUrl_eq_some.mpr ⟨url, host, hurl, hscheme, hhost,
      hmissed hmiss, by rw [buildPeerOrigin, hstr, Option.map_some]⟩
    exact (h _ haccepted).1 url host hurl hhost (hiff.mpr (.inr hmiss))
  · intro h origin haccepted
    refine ⟨fun url host hurl hhost hin => ?_, canonicalizePeerUrl_idem hparse haccepted⟩
    obtain ⟨url', host', hurl', hscheme, hhost', hexternal, horigin⟩ :=
      canonicalizePeerUrl_eq_some.mp haccepted
    obtain rfl := Option.some.inj (hurl.symm.trans hurl')
    obtain rfl := Option.some.inj (hhost.symm.trans hhost')
    have hstr : url.hostStr.isSome = true := by
      obtain ⟨hostStr, hstr, -⟩ := Option.map_eq_some_iff.mp horigin
      rw [hstr, Option.isSome_some]
    rcases hiff.mp hin with hinternal | hmiss
    · rw [hexternal] at hinternal
      cases hinternal
    · exact h host ⟨url, hurl, hscheme, hhost, hstr⟩ hmiss

namespace Sample

/-- A parser of a URL of a domain, and of two of an IPv6 address that stands for 127.0.0.1. -/
def parseMapped : UrlParser := fun s =>
  if s = "http://Node.Example:3000/blocks" ∨ s = "http://node.example:3000" then
    some ⟨"http", some (.domain "node.example"), some "node.example", some 3000⟩
  else if s = "http://[::ffff:127.0.0.1]:80/" ∨ s = "http://[::ffff:7f00:1]" then
    some ⟨"http", some (.ipv6 #v[0, 0, 0, 0, 0, 0xffff, 0x7f00, 1]), some "[::ffff:7f00:1]", none⟩
  else none

theorem parseMapped_parsesBack : ParsesBack parseMapped := by
  have hcases : ∀ {raw url}, parseMapped raw = some url →
      url = ⟨"http", some (.domain "node.example"), some "node.example", some 3000⟩ ∨
      url = ⟨"http", some (.ipv6 #v[0, 0, 0, 0, 0, 0xffff, 0x7f00, 1]), some "[::ffff:7f00:1]",
        none⟩ := by
    intro raw url h
    unfold parseMapped at h
    split at h
    · exact .inl (Option.some.inj h).symm
    split at h
    · exact .inr (Option.some.inj h).symm
    · cases h
  refine ⟨fun raw url hostStr h hstr => ?_, fun raw url h => ?_, fun raw url hostStr h _ hstr => ?_⟩
  · rcases hcases h with rfl | rfl
    · obtain rfl := Option.some.inj hstr
      decide
    · obtain rfl := Option.some.inj hstr
      decide
  · rcases hcases h with rfl | rfl
    · decide
    · decide
  · rcases hcases h with rfl | rfl
    · obtain rfl := Option.some.inj hstr
      decide +kernel
    · obtain rfl := Option.some.inj hstr
      decide +kernel

end Sample

end Lootcoin
