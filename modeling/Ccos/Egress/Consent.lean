import Ccos.Egress.Endpoints
import Ccos.Wire.Survival

/-!
# What was consented to

An entry is a URL without its scheme. It consents to the port it spells, or to the two ports of the schemes. Whether it
spells one is asked of the whole entry, so a colon or a bracket behind the authority changes the answer.
-/

open Std

namespace Ccos.Egress

section

variable [IpText]

def Url.entry (u : Url) : Str := u.authority ++ u.tail

/-- The endpoints that consent is given to. -/
def Consents (x : Str) (host : Host) (port : UInt16) : Prop :=
  if containsStr "://".toList x then ∃ u : Url, u.text = x ∧ u.host = host ∧ u.port = port
  else ∃ u : Url, u.scheme = .http ∧ u.entry = x ∧ u.host = host ∧
    (u.explicit = some port ∨ u.explicit = none ∧ (port = 80 ∨ port = 443))

/-- An endpoint that was consented to, or a loopback one. -/
def Granted (consents : List Str) (host : Host) (port : UInt16) : Prop :=
  (host.Loopback ∧ port ∈ defaultLoopbackPorts) ∨ ∃ x ∈ consents, Consents x host port

def authorityOf (entry : Str) : Str := entry.takeWhile fun c => !endsAuthority c

/-- What the entry says of its port, its authority says too. -/
def PortInAuthority (x : Str) : Prop :=
  containsStr "://".toList x = true ∨ (∃ e, parseUrl ("http://".toList ++ x) = .error e) ∨
    (startsWith ['['] x = true ∨ x.count ':' ≤ 1) ∧ entryHasExplicitPort x = entryHasExplicitPort (authorityOf x)

end

/-! ## The policy -/

namespace EgressAllowlist

theorem mem_foldl_insert {ports : List UInt16} {s : ExtTreeSet UInt16} {q : UInt16} :
    q ∈ ports.foldl (fun s port => s.insert port) s ↔ q ∈ s ∨ q ∈ ports := by
  induction ports generalizing s with
  | nil => simp
  | cons p ports ih =>
    rw [List.foldl_cons, ih, ExtTreeSet.mem_insert, LawfulEqOrd.compare_eq_iff_eq, List.mem_cons]
    tauto

theorem allows_iff {p : EgressAllowlist} {host : Str} {q : UInt16} :
    p.allows host q = true ↔ q ∈ (p.allowed[host]?).getD ∅ := by
  unfold allows
  cases p.allowed[host]? with
  | none => simp
  | some ports => simp [ExtTreeSet.contains_iff_mem]

theorem allows_consent {p : EgressAllowlist} {host h : Str} {ports : List UInt16} {q : UInt16} :
    (p.consent host ports).allows h q = true ↔ p.allows h q = true ∨ h = host ∧ q ∈ ports := by
  rw [allows_iff, allows_iff, consent]
  by_cases hhost : host = h
  · subst hhost
    rw [ExtTreeMap.getElem?_insert_self, Option.getD_some, mem_foldl_insert]
    simp
  · rw [ExtTreeMap.getElem?_insert, if_neg (by rwa [LawfulEqOrd.compare_eq_iff_eq])]
    simp [Ne.symm hhost]

theorem allows_localhostOnly (host : Str) (q : UInt16) : localhostOnly.allows host q = false := by
  simp [localhostOnly, allows]

section

variable [IpText] [LawfulIpText]

/-- An authority says whether it spells a port. -/
theorem explicit_authority (u : Url) : entryHasExplicitPort u.authority = u.explicit.isSome := by
  have hfree : ']' ∉ portText u.explicit := not_mem_portText (by decide) (by decide)
  have hport : startsWith [':'] (portText u.explicit) = u.explicit.isSome := by
    cases u.explicit with
    | none => rfl
    | some q => exact startsWith_char.mpr rfl
  unfold entryHasExplicitPort
  cases hb : u.bracketed with
  | true =>
    have htext : u.authority = ('[' :: u.hostText) ++ ']' :: portText u.explicit := by
      simp [Url.authority, authorityText, hb]
    rw [htext, rsplitOnce_char _ hfree]
    exact hport
  | false =>
    have htext : u.authority = u.hostText ++ portText u.explicit := by simp [Url.authority, authorityText, hb]
    have hbracket : ']' ∉ u.authority := by
      rw [htext, List.mem_append, not_or]
      exact ⟨fun h => absurd (u.names.chars h) (by decide), hfree⟩
    have hcolon : ':' ∉ u.hostText := fun h => absurd (hb ▸ u.colon_bracketed h) (by decide)
    have hcount : u.authority.count ':' = if u.explicit.isSome then 1 else 0 := by
      rw [htext, List.count_append, List.count_eq_zero.mpr hcolon]
      cases u.explicit with
      | none => rfl
      | some q =>
        have hdigits : ':' ∉ natStr q.toNat := fun h => absurd (isAsciiDigit_of_mem_natStr h) (by decide)
        rw [portText, Option.elim_some, List.count_cons_self, List.count_eq_zero.mpr hdigits]
        rfl
    cases hs : rsplitOnce [']'] u.authority with
    | some parts => exact absurd ((rsplitOnce_char_eq hs).1 ▸ List.mem_append_right _ List.mem_cons_self) hbracket
    | none =>
      dsimp only
      rw [hcount]
      cases u.explicit <;> rfl

theorem authorityOf_entry (u : Url) : authorityOf u.entry = u.authority :=
  takeWhile_authority (fun _ hc => (u.authority_char hc).2.1) u.tail_start

omit [LawfulIpText] in
theorem parsed_entry {u : Url} (h : u.scheme = .http) : "http://".toList ++ u.entry = u.text := by
  rw [Url.text, h]
  rfl

omit [LawfulIpText] in
theorem entry_of_text {u : Url} {x : Str} (h : u.text = "http://".toList ++ x) : u.scheme = .http ∧ u.entry = x := by
  cases hs : u.scheme with
  | http =>
    rw [← parsed_entry hs] at h
    exact ⟨rfl, List.append_cancel_left h⟩
  | https => simp [Url.text, hs, Scheme.text] at h

/-- A text is a URL in one way only, as far as its endpoint goes. -/
theorem endpoint_unique {u u' : Url} (h : u.text = u'.text) : u.host = u'.host ∧ u.port = u'.port := by
  have hu := parseUrl_eq_ok.mpr ⟨u, rfl, rfl⟩
  have hu' := parseUrl_eq_ok.mpr ⟨u', rfl, rfl⟩
  rw [h, hu', Except.ok.injEq] at hu
  have hhost : u'.host.text = u.host.text := congrArg ParsedUrl.host hu
  have hport : u'.port = u.port := congrArg ParsedUrl.port hu
  exact ⟨u.names.text_inj u'.names hhost.symm, hport.symm⟩

theorem allows_allowEntry {p : EgressAllowlist} {x : Str}
    (hx : (∃ e, parseUrl ("http://".toList ++ x) = .error e) ∨ (startsWith ['['] x = true ∨ x.count ':' ≤ 1) ∧
      entryHasExplicitPort x = entryHasExplicitPort (authorityOf x)) (host : Host) (q : UInt16) {raw : Str}
    (hnames : Names raw host) :
    (p.allowEntry x).allows host.text q = true ↔ p.allows host.text q = true ∨ ∃ u : Url, u.scheme = .http ∧
      u.entry = x ∧ u.host = host ∧ (u.explicit = some q ∨ u.explicit = none ∧ (q = 80 ∨ q = 443)) := by
  unfold allowEntry
  cases hparse : parseUrl ("http://".toList ++ x) with
  | error e =>
    have hnone : ¬ ∃ u : Url, u.scheme = .http ∧ u.entry = x ∧ u.host = host ∧
        (u.explicit = some q ∨ u.explicit = none ∧ (q = 80 ∨ q = 443)) := by
      rintro ⟨u, hscheme, rfl, -⟩
      rw [parsed_entry hscheme, parseUrl_eq_ok.mpr ⟨u, rfl, rfl⟩] at hparse
      cases hparse
    rw [or_iff_left hnone]
    split <;> rfl
  | ok e =>
    obtain ⟨hguard, hexplicit⟩ := hx.resolve_left fun ⟨e', he'⟩ => by cases hparse.symm.trans he'
    obtain ⟨u, htext, rfl⟩ := parseUrl_eq_ok.mp hparse
    obtain ⟨hscheme, rfl⟩ := entry_of_text htext
    rw [authorityOf_entry, explicit_authority] at hexplicit
    rw [if_pos hguard, hexplicit]
    dsimp only
    rw [allows_consent]
    refine or_congr_right ⟨?_, ?_⟩
    · rintro ⟨hhost, hq⟩
      refine ⟨u, hscheme, rfl, u.names.text_inj hnames hhost.symm, ?_⟩
      cases hport : u.explicit with
      | none => exact .inr ⟨rfl, by simpa [hport] using hq⟩
      | some r => exact .inl (by simpa [hport, Url.parsed, Url.port, eq_comm] using hq)
    · rintro ⟨u', hscheme', hentry, rfl, hports⟩
      have hsame : u'.text = u.text := by rw [← parsed_entry hscheme', hentry, parsed_entry hscheme]
      obtain ⟨hhost, hport⟩ := endpoint_unique hsame
      have hsome : u'.explicit.isSome = u.explicit.isSome := by
        rw [← explicit_authority, ← explicit_authority, ← authorityOf_entry, ← authorityOf_entry, hentry]
      refine ⟨congrArg Host.text hhost, ?_⟩
      rw [← hsome]
      rcases hports with hq | ⟨hnone, hq⟩
      · rw [hq]
        rw [Url.port, hq, Option.getD_some] at hport
        exact List.mem_singleton.mpr hport
      · rw [hnone]
        simpa using hq

theorem allows_allowing {p : EgressAllowlist} {x : Str} (hx : PortInAuthority x) {raw : Str} {host : Host}
    (hnames : Names raw host) (q : UInt16) :
    (p.allowing x).allows host.text q = true ↔ p.allows host.text q = true ∨ Consents x host q := by
  unfold allowing Consents
  by_cases hurl : containsStr "://".toList x = true
  · rw [if_pos hurl, if_pos hurl]
    cases hparse : parseUrl x with
    | error e =>
      have hnone : ¬ ∃ u : Url, u.text = x ∧ u.host = host ∧ u.port = q := by
        rintro ⟨u, rfl, -⟩
        rw [parseUrl_eq_ok.mpr ⟨u, rfl, rfl⟩] at hparse
        cases hparse
      rw [or_iff_left hnone]
    | ok e =>
      obtain ⟨u, rfl, rfl⟩ := parseUrl_eq_ok.mp hparse
      dsimp only
      rw [allows_consent]
      refine or_congr_right ⟨?_, ?_⟩
      · rintro ⟨hhost, hq⟩
        exact ⟨u, rfl, u.names.text_inj hnames hhost.symm, (List.mem_singleton.mp hq).symm⟩
      · rintro ⟨u', hsame, rfl, rfl⟩
        obtain ⟨hhost, hport⟩ := endpoint_unique hsame
        exact ⟨congrArg Host.text hhost, List.mem_singleton.mpr hport⟩
  · rw [if_neg hurl, if_neg hurl]
    exact allows_allowEntry (hx.resolve_left hurl) host q hnames

/-- A run of consents records what they consent to. -/
theorem allows_foldl {consents : List Str} (h : ∀ x ∈ consents, PortInAuthority x) (p : EgressAllowlist) {raw : Str}
    {host : Host} (hnames : Names raw host) (q : UInt16) :
    (consents.foldl allowing p).allows host.text q = true ↔
      p.allows host.text q = true ∨ ∃ x ∈ consents, Consents x host q := by
  induction consents generalizing p with
  | nil => simp
  | cons x consents ih =>
    rw [List.foldl_cons, ih (fun y hy => h y (List.mem_cons_of_mem x hy)),
      allows_allowing (h x List.mem_cons_self) hnames, or_assoc, List.exists_mem_cons_iff]

end

/-! ## Authorizing -/

theorem normalizeIp_idem (a : IpAddr) : normalizeIp (normalizeIp a) = normalizeIp a := by
  cases a with
  | v4 ip => rfl
  | v6 ip =>
    cases h : ip.toIpv4Mapped with
    | none => simp only [normalizeIp, h, Option.map_none, Option.getD_none]
    | some v4 => simp only [normalizeIp, h, Option.map_some, Option.getD_some]

section

variable [IpText]

theorem authorize_of_parse {p : EgressAllowlist} {url : Str} {parsed : ParsedUrl} (h : parseUrl url = .ok parsed)
    (a : AuthorizedUrl) : p.authorize url = .ok a ↔
      ((implicitLoopback parsed.host = true ∧ parsed.port ∈ defaultLoopbackPorts) ∨
        p.allows parsed.host parsed.port = true) ∧
      a = ⟨parsed.scheme, parsed.host, parsed.port, implicitLoopback parsed.host⟩ := by
  have hcontains : defaultLoopbackPorts.contains parsed.port = true ↔ parsed.port ∈ defaultLoopbackPorts :=
    List.contains_iff_mem
  unfold authorize
  rw [h]
  simp only [bind, Except.bind]
  by_cases hl : implicitLoopback parsed.host = true
  · rw [if_pos hl, hl]
    by_cases hallow : (defaultLoopbackPorts.contains parsed.port || p.allows parsed.host parsed.port) = true
    · rw [if_pos hallow, Except.ok.injEq, eq_comm (a := a)]
      rw [Bool.or_eq_true, hcontains] at hallow
      exact (and_iff_right (hallow.imp_left fun hport => ⟨rfl, hport⟩)).symm
    · rw [if_neg hallow]
      rw [Bool.or_eq_true, not_or, hcontains] at hallow
      rw [if_pos (by simpa using hallow.1)]
      exact iff_of_false nofun fun h => h.1.elim (fun h => hallow.1 h.2) hallow.2
  · rw [if_neg hl, Bool.eq_false_iff.mpr hl, or_iff_right fun h => Bool.false_ne_true h.1, allows]
    cases hports : p.allowed[parsed.host]? with
    | none => exact iff_of_false nofun fun h => by cases h.1
    | some ports =>
      dsimp only [Option.any_some]
      cases hport : ports.contains parsed.port with
      | false => exact iff_of_false nofun fun h => by cases h.1
      | true => exact ⟨fun h => ⟨rfl, (Except.ok.inj h).symm⟩, fun h => congrArg Except.ok h.2.symm⟩

variable [LawfulIpText]

theorem implicitLoopback_iff {raw : Str} {host : Host} (h : Names raw host) :
    implicitLoopback host.text = true ↔ host.Loopback := by
  rw [implicitLoopback, h.parse_text]
  cases h with
  | name =>
    simp only [Host.address, Host.text, Host.Loopback, Option.map_none, Option.any_none, Bool.or_false]
    exact decide_eq_true_iff
  | @ip a =>
    have hname : (normalizeIp a).print ≠ "localhost".toList := by
      intro heq
      have hchars := LawfulIpText.parse_chars _ _ (LawfulIpText.parse_print (normalizeIp a)) 'l'
      rw [heq] at hchars
      exact absurd (hchars (by decide)) (by decide)
    simp only [Host.address, Host.text, Host.Loopback, Option.map_some, Option.any_some, normalizeIp_idem, hname,
      decide_false, Bool.false_or]

theorem authorize_eq_ok {p : EgressAllowlist} {u : Url} {a : AuthorizedUrl} : p.authorize u.text = .ok a ↔
    ((u.host.Loopback ∧ u.port ∈ defaultLoopbackPorts) ∨ p.allows u.host.text u.port = true) ∧
      a = ⟨u.scheme, u.host.text, u.port, implicitLoopback u.host.text⟩ := by
  rw [authorize_of_parse (parseUrl_eq_ok.mpr ⟨u, rfl, rfl⟩), Url.parsed, implicitLoopback_iff u.names]

theorem authorized_iff {p : EgressAllowlist} {url : Str} : (∃ a, p.authorize url = .ok a) ↔ ∃ u : Url, u.text = url ∧
    ((u.host.Loopback ∧ u.port ∈ defaultLoopbackPorts) ∨ p.allows u.host.text u.port = true) := by
  constructor
  · rintro ⟨a, ha⟩
    obtain ⟨parsed, hparse, -⟩ := bind_eq_ok.mp ha
    obtain ⟨u, rfl, -⟩ := parseUrl_eq_ok.mp hparse
    exact ⟨u, rfl, (authorize_eq_ok.mp ha).1⟩
  · rintro ⟨u, rfl, h⟩
    exact ⟨_, authorize_eq_ok.mpr ⟨h, rfl⟩⟩

end

end EgressAllowlist

/-! ## Resolving -/

/-- Addresses no client may reach; an IPv4 address in its IPv6 form is the IPv4 address. -/
def Prohibited (ip : IpAddr) : Prop :=
  match normalizeIp ip with
  | .v4 ip => ip.isUnspecified = true ∨ ip.isBroadcast = true ∨ ip.isMulticast = true ∨ ip.isLinkLocal = true
  | .v6 ip => ip.isUnspecified = true ∨ ip.isMulticast = true ∨ ip.isUnicastLinkLocal = true

theorem isAlwaysProhibited_iff (ip : IpAddr) : isAlwaysProhibited (normalizeIp ip) = true ↔ Prohibited ip := by
  rw [isAlwaysProhibited, Prohibited, EgressAllowlist.normalizeIp_idem]
  cases normalizeIp ip <;> simp only [Bool.or_eq_true, or_assoc]

/-- Every address of the answer was checked. -/
theorem AuthorizedUrl.resolve_checked [IpText] {a : AuthorizedUrl} {answer : List SocketAddr} {v : ValidatedUrl}
    (h : a.resolve (some answer) = .ok v) {s : SocketAddr} (hs : s ∈ answer) :
    ¬ Prohibited s.ip ∧ (a.implicitLoopback = true → (normalizeIp s.ip).isLoopback = true) := by
  unfold resolve at h
  dsimp only at h
  split at h
  · cases h
  next hlen =>
  rw [not_or, Nat.not_lt, List.length_take] at hlen
  have htake : answer.take (maxResolvedAddresses + 1) = answer := List.take_of_length_le (by omega)
  rw [htake] at h
  split at h
  · cases h
  next hfind =>
  have hchecked := List.find?_eq_none.mp hfind _ (List.mem_map_of_mem (mem_sortDedup.mpr hs))
  rw [Bool.or_eq_true, not_or, isAlwaysProhibited_iff] at hchecked
  refine ⟨hchecked.1, fun hloop => ?_⟩
  simpa [hloop] using hchecked.2

/-! ## Runs of consents -/

/-- A policy built by consents grants the endpoints they name, and one more consent grants those it names. -/
theorem EgressAllowlist.grants_exactly [IpText] [LawfulIpText] (consents : List Str)
    (h : ∀ x ∈ consents, PortInAuthority x) :
    (∀ url, (∃ a, (consents.foldl allowing localhostOnly).authorize url = .ok a) ↔
      ∃ u : Url, u.text = url ∧ Granted consents u.host u.port) ∧
    (∀ x url, PortInAuthority x →
      ((∃ a, ((consents.foldl allowing localhostOnly).allowing x).authorize url = .ok a) ↔
        (∃ a, (consents.foldl allowing localhostOnly).authorize url = .ok a) ∨
          ∃ u : Url, u.text = url ∧ Consents x u.host u.port)) ∧
    ∀ (u : Url) a answer v, (consents.foldl allowing localhostOnly).authorize u.text = .ok a →
      a.resolve (some answer) = .ok v →
        ∀ s ∈ answer, ¬ Prohibited s.ip ∧ (u.host.Loopback → (normalizeIp s.ip).isLoopback = true) := by
  refine ⟨fun url => ?_, fun x url hx => ?_, fun u a answer v ha hv s hs => ?_⟩
  · rw [authorized_iff]
    refine exists_congr fun u => and_congr_right fun _ => or_congr_right ?_
    rw [allows_foldl h localhostOnly u.names, allows_localhostOnly, or_iff_right Bool.false_ne_true]
  · rw [authorized_iff, authorized_iff, ← exists_or]
    refine exists_congr fun u => ?_
    rw [allows_allowing hx u.names, ← or_assoc, and_or_left]
  · obtain ⟨-, rfl⟩ := authorize_eq_ok.mp ha
    obtain ⟨hallowed, hloop⟩ := AuthorizedUrl.resolve_checked hv hs
    exact ⟨hallowed, fun h => hloop ((implicitLoopback_iff u.names).mpr h)⟩

/-! ## Dotted and hexadecimal addresses -/

namespace Dotted

def octet (t : Str) : Option UInt8 :=
  let n := Nat.ofDigitChars 10 t 0
  if n < 256 ∧ natStr n = t then some (UInt8.ofNat n) else none

def group (t : Str) : Option UInt16 :=
  (t.foldlM (fun n c => (toDigit16 c).map (n * 16 + ·)) 0).bind fun n =>
    if n < 65536 then some (UInt16.ofNat n) else none

def parseV4 (s : Str) : Option Ipv4Addr :=
  match (s.splitOn '.').mapM octet with
  | some [a, b, c, d] => some ⟨a, b, c, d⟩
  | _ => none

/-- The form without abbreviations. -/
def parseV6 (s : Str) : Option Ipv6Addr :=
  match (s.splitOn ':').mapM group with
  | some [s0, s1, s2, s3, s4, s5, s6, s7] => some ⟨s0, s1, s2, s3, s4, s5, s6, s7⟩
  | _ => none

def printV4 (ip : Ipv4Addr) : Str := joinWith ['.'] ([ip.a, ip.b, ip.c, ip.d].map fun n => natStr n.toNat)

def printV6 (ip : Ipv6Addr) : Str :=
  joinWith [':'] ([ip.s0, ip.s1, ip.s2, ip.s3, ip.s4, ip.s5, ip.s6, ip.s7].map fun n => hexPad 4 n.toNat)

instance : IpText where
  parseV4 := parseV4
  parseV6 := parseV6
  printV4 := printV4
  printV6 := printV6

theorem octet_natStr (n : UInt8) : octet (natStr n.toNat) = some n := by
  rw [octet, ofDigitChars_natStr, if_pos ⟨n.toNat_lt, rfl⟩, UInt8.ofNat_toNat]

theorem group_hexPad (n : UInt16) : group (hexPad 4 n.toNat) = some n := by
  have hmod : n.toNat % 16 ^ 4 = n.toNat := Nat.mod_eq_of_lt n.toNat_lt
  rw [group, foldlM_hexPad, Nat.zero_mul, Nat.zero_add, hmod, Option.bind_some, if_pos n.toNat_lt, UInt16.ofNat_toNat]

theorem splitOn_joinWith {sep : Char} {pieces : List Str} (hne : pieces ≠ []) (h : ∀ p ∈ pieces, sep ∉ p) :
    (joinWith [sep] pieces).splitOn sep = pieces := List.splitOn_intercalate sep h hne

theorem mem_joinWith {sep c : Char} {pieces : List Str} (h : c ∈ joinWith [sep] pieces) :
    c = sep ∨ ∃ p ∈ pieces, c ∈ p := by
  induction pieces with
  | nil => cases h
  | cons p pieces ih =>
    by_cases hne : pieces = []
    · subst hne
      rw [joinWith, List.intercalate_singleton] at h
      exact .inr ⟨p, List.mem_cons_self, h⟩
    · rw [joinWith, List.intercalate_cons_of_ne_nil hne, List.mem_append, List.mem_append] at h
      rcases h with (h | h) | h
      · exact .inr ⟨p, List.mem_cons_self, h⟩
      · exact .inl (List.mem_singleton.mp h)
      · exact (ih h).imp_right fun ⟨q, hq, hc⟩ => ⟨q, List.mem_cons_of_mem p hq, hc⟩

theorem isAddressChar_octet {t : Str} {n : UInt8} (h : octet t = some n) {c : Char} (hc : c ∈ t) :
    isAddressChar c = true := by
  unfold octet at h
  dsimp only at h
  split at h
  next ht =>
    rw [← ht.2] at hc
    simp [isAddressChar, isAsciiDigit_of_mem_natStr hc]
  · cases h

theorem isAddressChar_digit {c : Char} {n : Nat} (h : toDigit16 c = some n) : isAddressChar c = true := by
  unfold toDigit16 at h
  split_ifs at h with h1 h2 h3
  · simp [isAddressChar, isAsciiDigit, h1]
  · simp [isAddressChar, h2]
  · simp [isAddressChar, h3]

theorem isAddressChar_group {t : Str} {n : UInt16} (h : group t = some n) {c : Char} (hc : c ∈ t) :
    isAddressChar c = true := by
  obtain ⟨v, hv, -⟩ := Option.bind_eq_some_iff.mp h
  clear h
  generalize 0 = acc at hv
  induction t generalizing acc with
  | nil => cases hc
  | cons d t ih =>
    rw [List.foldlM_cons] at hv
    obtain ⟨m, hm, hrest⟩ := Option.bind_eq_some_iff.mp hv
    obtain ⟨k, hk, -⟩ := Option.map_eq_some_iff.mp hm
    rcases List.mem_cons.mp hc with rfl | hc
    · exact isAddressChar_digit hk
    · exact ih hc m hrest

theorem exists_of_mapM {A B : Type} {f : A → Option B} {l : List A} {values : List B} (h : l.mapM f = some values)
    {t : A} (ht : t ∈ l) : ∃ b, f t = some b := by
  induction l generalizing values with
  | nil => cases ht
  | cons u l ih =>
    rw [List.mapM_cons] at h
    obtain ⟨b, hb, hrest⟩ := Option.bind_eq_some_iff.mp h
    obtain ⟨bs, hbs, -⟩ := Option.bind_eq_some_iff.mp hrest
    rcases List.mem_cons.mp ht with rfl | ht
    · exact ⟨b, hb⟩
    · exact ih hbs ht

theorem toDigit16_of_mem_hexPad {width n : Nat} {c : Char} (h : c ∈ hexPad width n) : toDigit16 c ≠ none := by
  obtain ⟨k, -, rfl⟩ := List.mem_map.mp h
  rw [toDigit16_digitChar (Nat.mod_lt _ (by decide))]
  nofun

theorem dot_not_mem_printV6 (ip : Ipv6Addr) : '.' ∉ printV6 ip := by
  intro h
  rcases mem_joinWith h with heq | ⟨p, hp, hdot⟩
  · exact absurd heq (by decide)
  · obtain ⟨n, -, rfl⟩ := List.mem_map.mp hp
    exact toDigit16_of_mem_hexPad hdot (by decide)

theorem mem_pieces {sep : Char} {s : Str} {A : Type} {f : Str → Option A} {values : List A}
    (hpiece : ∀ t a, f t = some a → ∀ c ∈ t, isAddressChar c = true) (hsep : isAddressChar sep = true)
    (h : (s.splitOn sep).mapM f = some values) {c : Char} (hc : c ∈ s) : isAddressChar c = true := by
  have hjoined : [sep].intercalate (s.splitOn sep) = s := List.intercalate_splitOn sep
  rw [← hjoined] at hc
  rcases mem_joinWith hc with rfl | ⟨t, ht, hc⟩
  · exact hsep
  · obtain ⟨a, ha⟩ := exists_of_mapM h ht
    exact hpiece t a ha c hc

instance : LawfulIpText where
  parse_print a := by
    cases a with
    | v4 ip =>
      have hsplit : (printV4 ip).splitOn '.' = [ip.a, ip.b, ip.c, ip.d].map fun n => natStr n.toNat := by
        refine splitOn_joinWith (by simp) fun p hp => ?_
        obtain ⟨n, -, rfl⟩ := List.mem_map.mp hp
        exact fun hdot => absurd (isAsciiDigit_of_mem_natStr hdot) (by decide)
      have hparse : parseV4 (printV4 ip) = some ip := by
        rw [parseV4, hsplit]
        simp [octet_natStr]
      show ((parseV4 (printV4 ip)).map IpAddr.v4).or _ = _
      rw [hparse]
      rfl
    | v6 ip =>
      have hsplit : (printV6 ip).splitOn ':' =
          [ip.s0, ip.s1, ip.s2, ip.s3, ip.s4, ip.s5, ip.s6, ip.s7].map fun n => hexPad 4 n.toNat := by
        refine splitOn_joinWith (by simp) fun p hp => ?_
        obtain ⟨n, -, rfl⟩ := List.mem_map.mp hp
        exact fun hcolon => toDigit16_of_mem_hexPad hcolon (by decide)
      have hparse : parseV6 (printV6 ip) = some ip := by
        rw [parseV6, hsplit]
        simp [group_hexPad]
      have hwhole : (printV6 ip).splitOn '.' = [printV6 ip] := by
        have hsingle := splitOn_joinWith (List.cons_ne_nil (printV6 ip) [])
          (List.forall_mem_singleton.mpr (dot_not_mem_printV6 ip))
        rwa [joinWith, List.intercalate_singleton] at hsingle
      have hv4 : parseV4 (printV6 ip) = none := by
        rw [parseV4, hwhole, List.mapM_cons]
        cases octet (printV6 ip) <;> rfl
      show ((parseV4 (printV6 ip)).map IpAddr.v4).or ((parseV6 (printV6 ip)).map IpAddr.v6) = _
      rw [hv4, hparse]
      rfl
  parse_chars s a h c hc := by
    cases hv4 : parseV4 s with
    | some ip =>
      unfold parseV4 at hv4
      split at hv4
      next values hvalues => exact mem_pieces (fun t a h c hc => isAddressChar_octet h hc) (by decide) hvalues hc
      · cases hv4
    | none =>
      have hv6 : (parseV6 s).map IpAddr.v6 = some a := by
        have hor : ((parseV4 s).map IpAddr.v4).or ((parseV6 s).map IpAddr.v6) = some a := h
        rwa [hv4] at hor
      obtain ⟨ip, hip, -⟩ := Option.map_eq_some_iff.mp hv6
      unfold parseV6 at hip
      split at hip
      next values hvalues => exact mem_pieces (fun t a h c hc => isAddressChar_group h hc) (by decide) hvalues hc
      · cases hip

end Dotted

/-- A host with a port, and a bracket behind it. -/
def bracketed : Str := "api.example:8443/v1]".toList

/-- The two ports of the schemes are granted in place of the one that was consented to. -/
theorem grants_other_ports : ¬ ∀ (consents : List Str) (url : Str),
    (∃ a, (consents.foldl EgressAllowlist.allowing .localhostOnly).authorize url = .ok a) ↔
      ∃ u : Url, u.text = url ∧ Granted consents u.host u.port := by
  intro h
  have hauthorized : ([bracketed].foldl EgressAllowlist.allowing .localhostOnly).authorize
      "http://api.example/".toList = .ok ⟨.http, "api.example".toList, 80, false⟩ := by decide
  obtain ⟨u, htext, hgranted⟩ := (h [bracketed] _).mp ⟨_, hauthorized⟩
  have hparse : parseUrl "http://api.example/".toList = .ok ⟨.http, "api.example".toList, 80⟩ := by decide
  obtain ⟨u', htext', hparsed⟩ := parseUrl_eq_ok.mp hparse
  obtain ⟨hhost, hport⟩ := EgressAllowlist.endpoint_unique (htext.trans htext'.symm)
  have hport' : u.port = 80 := hport.trans (congrArg ParsedUrl.port hparsed).symm
  rcases hgranted with ⟨hloop, -⟩ | ⟨x, hx, hconsents⟩
  · have himplicit := (EgressAllowlist.implicitLoopback_iff u.names).mpr hloop
    have hname : u'.host.text = "api.example".toList := (congrArg ParsedUrl.host hparsed).symm
    rw [hhost, hname] at himplicit
    exact absurd himplicit (by decide)
  · obtain rfl := List.mem_singleton.mp hx
    have hentry : containsStr "://".toList bracketed ≠ true := by decide
    rw [Consents, if_neg hentry, hport'] at hconsents
    obtain ⟨v, hscheme, hv, -, hexplicit⟩ := hconsents
    have hspelled : parseUrl ("http://".toList ++ bracketed) = .ok ⟨.http, "api.example".toList, 8443⟩ := by
      decide
    rw [← hv, EgressAllowlist.parsed_entry hscheme, parseUrl_eq_ok.mpr ⟨v, rfl, rfl⟩] at hspelled
    have hport8443 : v.port = 8443 := congrArg ParsedUrl.port (Except.ok.inj hspelled)
    rw [Url.port, hscheme] at hport8443
    rcases hexplicit with hsome | ⟨hnone, -⟩
    · rw [hsome] at hport8443
      exact absurd hport8443 (by decide)
    · rw [hnone] at hport8443
      exact absurd hport8443 (by decide)

theorem url_and_host_grant :
    (∃ a, (["https://licensing.example:8443/claim".toList, "api.example".toList].foldl EgressAllowlist.allowing
      .localhostOnly).authorize "https://API.example/v1".toList = .ok a) ↔
      ∃ u : Url, u.text = "https://API.example/v1".toList ∧
        Granted ["https://licensing.example:8443/claim".toList, "api.example".toList] u.host u.port := by
  refine (EgressAllowlist.grants_exactly _ (List.forall_mem_cons.mpr ⟨.inl ?_, List.forall_mem_singleton.mpr ?_⟩)).1 _
  · decide
  · exact .inr (.inr ⟨.inr (by decide), by decide⟩)

end Ccos.Egress
