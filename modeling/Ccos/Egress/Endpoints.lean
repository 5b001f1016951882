import Ccos.Egress.Policy
import Ccos.Lib.Splits

/-!
# The endpoint a URL names

A URL is spelled from a scheme, a host, perhaps a port, and a rest. The parser accepts exactly the spellings, and reads
the host and the port that were spelled.
-/

namespace Ccos.Egress

theorem malformed_ne_ok {A : Type} {reason : String} {a : A} : malformed reason ≠ (.ok a : Except EgressError A) :=
  nofun

/-! ## Characters -/

def isAddressChar (c : Char) : Bool :=
  isAsciiDigit c || ('a' ≤ c && c ≤ 'f') || ('A' ≤ c && c ≤ 'F') || c = '.' || c = ':'

def isHostChar (c : Char) : Bool := isAsciiAlphanumeric c || c = '-' || c = '.' || c = ':'

def isUrlChar (c : Char) : Bool := c.toNat < 128 && !isAsciiControl c && !isAsciiWhitespace c && c ≠ '\\'

theorem isHostChar_iff {c : Char} : isHostChar c = true ↔ (48 ≤ c.toNat ∧ c.toNat ≤ 57) ∨
    (97 ≤ c.toNat ∧ c.toNat ≤ 122) ∨ (65 ≤ c.toNat ∧ c.toNat ≤ 90) ∨ c.toNat = 45 ∨ c.toNat = 46 ∨ c.toNat = 58 := by
  have heq : ∀ d : Char, c = d ↔ c.toNat = d.toNat := fun d => Char.toNat_inj.symm
  have hle : ∀ a b : Char, a ≤ b ↔ a.toNat ≤ b.toNat := fun a b => Iff.rfl
  simp only [isHostChar, isAsciiAlphanumeric, isAsciiDigit, Bool.or_eq_true, Bool.and_eq_true, decide_eq_true_eq, hle,
    heq]
  simp only [show '0'.toNat = 48 from rfl, show '9'.toNat = 57 from rfl, show 'a'.toNat = 97 from rfl,
    show 'z'.toNat = 122 from rfl, show 'A'.toNat = 65 from rfl, show 'Z'.toNat = 90 from rfl,
    show '-'.toNat = 45 from rfl, show '.'.toNat = 46 from rfl, show ':'.toNat = 58 from rfl]
  omega

theorem isHostChar_of_address {c : Char} (h : isAddressChar c = true) : isHostChar c = true := by
  have heq : ∀ d : Char, c = d ↔ c.toNat = d.toNat := fun d => Char.toNat_inj.symm
  have hle : ∀ a b : Char, a ≤ b ↔ a.toNat ≤ b.toNat := fun a b => Iff.rfl
  rw [isHostChar_iff]
  simp only [isAddressChar, isAsciiDigit, Bool.or_eq_true, Bool.and_eq_true, decide_eq_true_eq, hle, heq] at h
  simp only [show '0'.toNat = 48 from rfl, show '9'.toNat = 57 from rfl, show 'a'.toNat = 97 from rfl,
    show 'f'.toNat = 102 from rfl, show 'A'.toNat = 65 from rfl, show 'F'.toNat = 70 from rfl,
    show '.'.toNat = 46 from rfl, show ':'.toNat = 58 from rfl] at h
  omega

theorem isHostChar_of_toLower {c : Char} (h : isHostChar c.toLower = true) : isHostChar c = true := by
  by_cases hup : c.val ≥ 'A'.val ∧ c.val ≤ 'Z'.val
  · have hlow : 65 ≤ c.toNat := hup.1
    have hhigh : c.toNat ≤ 90 := hup.2
    exact isHostChar_iff.mpr (.inr (.inr (.inl ⟨hlow, hhigh⟩)))
  · delta Char.toLower at h
    rwa [dif_neg hup] at h

theorem isUrlChar_of_host {c : Char} (h : isHostChar c = true) : isUrlChar c = true := by
  have hrange := isHostChar_iff.mp h
  have hne : ∀ d : Char, isHostChar d = false → c ≠ d := by
    rintro d hd rfl
    exact absurd (h.symm.trans hd) (by decide)
  have hcontrol : isAsciiControl c = false := by
    simp only [isAsciiControl, Bool.or_eq_false_iff, decide_eq_false_iff_not]
    omega
  have hspace : isAsciiWhitespace c = false := by
    simp only [isAsciiWhitespace, Bool.or_eq_false_iff, decide_eq_false_iff_not]
    exact ⟨⟨⟨⟨hne _ (by decide), hne _ (by decide)⟩, hne _ (by decide)⟩, hne _ (by decide)⟩, hne _ (by decide)⟩
  have hascii : c.toNat < 128 := by omega
  simp [isUrlChar, hcontrol, hspace, hascii, hne '\\' (by decide)]

theorem isHostChar_of_digit {c : Char} (h : isAsciiDigit c = true) : isHostChar c = true := by
  simp [isHostChar, isAsciiAlphanumeric, h]

/-! ## Hosts -/

inductive Host
  | name (s : Str)
  | ip (a : IpAddr)
  deriving DecidableEq, Repr

def Host.Loopback : Host → Prop
  | name s => s = "localhost".toList
  | ip a => a.isLoopback = true

/-- Labels between dots, not all of them numbers. -/
structure DnsName (s : Str) : Prop where
  len : byteLen s ≤ 253
  labels : ∀ label ∈ split ['.'] s, badLabel label = false
  letter : ∃ c ∈ s, isAsciiDigit c = false ∧ c ≠ '.'

theorem mem_splitGo_dot (s : Str) {piece : Str} {c : Char} (h : c ∈ piece ++ s) :
    c = '.' ∨ ∃ label ∈ splitGo ['.'] 0 piece s, c ∈ label := by
  induction s generalizing piece with
  | nil => exact .inr ⟨piece, List.mem_singleton.mpr rfl, by rwa [List.append_nil] at h⟩
  | cons d s ih =>
    rw [splitGo]
    by_cases hd : startsWith ['.'] (d :: s) = true
    · rw [if_pos hd]
      have hdot : d = '.' := by simpa [startsWith] using Eq.symm (by simpa [startsWith] using hd)
      rcases List.mem_append.mp h with hpiece | hrest
      · exact .inr ⟨piece, List.mem_cons_self, hpiece⟩
      rcases List.mem_cons.mp hrest with rfl | hrest
      · exact .inl hdot
      rcases @ih [] hrest with hc | ⟨label, hlabel, hc⟩
      · exact .inl hc
      · exact .inr ⟨label, List.mem_cons_of_mem _ hlabel, hc⟩
    · rw [if_neg hd]
      exact ih (by simpa using h)

theorem isHostChar_of_label {label : Str} (h : badLabel label = false) {c : Char} (hc : c ∈ label) :
    isHostChar c = true := by
  simp only [badLabel, Bool.or_eq_false_iff, Bool.not_eq_false', List.all_eq_true] at h
  have hc := h.2 c hc
  rw [Bool.or_eq_true, decide_eq_true_eq] at hc
  rcases hc with hc | rfl
  · simp [isHostChar, hc]
  · decide

section

variable [IpText]

/-- What is documented of the addresses of the standard library. -/
class LawfulIpText : Prop where
  parse_print : ∀ a : IpAddr, IpAddr.parse a.print = some a
  parse_chars : ∀ (s : Str) (a : IpAddr), IpAddr.parse s = some a → ∀ c ∈ s, isAddressChar c = true

def Host.text : Host → Str
  | name s => s
  | ip a => a.print

/-- The text names the host, in whatever case its letters are. -/
inductive Names : Str → Host → Prop
  | name {raw : Str} (hascii : IsAscii raw) (hdot : ['.'].isSuffixOf raw = false)
      (hparse : IpAddr.parse (raw.map Char.toLower) = none) (hdns : DnsName (raw.map Char.toLower)) :
      Names raw (.name (raw.map Char.toLower))
  | ip {raw : Str} {a : IpAddr} (hne : raw ≠ []) (hascii : IsAscii raw) (hdot : ['.'].isSuffixOf raw = false)
      (hprint : a.print = raw.map Char.toLower) (hspec : (normalizeIp a).isUnspecified = false) :
      Names raw (.ip (normalizeIp a))

theorem parse_eq_none {s : Str} : IpAddr.parse s = none ↔ IpText.parseV4 s = none ∧ IpText.parseV6 s = none := by
  unfold IpAddr.parse
  cases IpText.parseV4 s <;> cases IpText.parseV6 s <;> simp

theorem canonicalHost_names {raw t : Str} (h : canonicalHost raw = .ok t) : ∃ host, Names raw host ∧ t = host.text := by
  unfold canonicalHost at h
  split at h
  · exact absurd h malformed_ne_ok
  next hraw =>
  simp only [not_or, not_not, Bool.not_eq_true] at hraw
  obtain ⟨hne, hdot, hascii⟩ := hraw
  dsimp only at h
  split at h
  next ipv4 hv4 =>
    split at h
    · exact absurd h malformed_ne_ok
    next hprint =>
    split at h
    · cases h
    next hspec =>
    cases h
    exact ⟨.ip (normalizeIp (.v4 ipv4)),
      .ip hne hascii hdot (not_not.mp hprint) (Bool.not_eq_true _ ▸ hspec), rfl⟩
  next hv4 =>
  split at h
  next ipv6 hv6 =>
    split at h
    · exact absurd h malformed_ne_ok
    next hprint =>
    split at h
    · cases h
    next hspec =>
    cases h
    exact ⟨.ip (normalizeIp (.v6 ipv6)),
      .ip hne hascii hdot (not_not.mp hprint) (Bool.not_eq_true _ ▸ hspec), rfl⟩
  next hv6 =>
  split at h
  · exact absurd h malformed_ne_ok
  next hletter =>
  split at h
  · exact absurd h malformed_ne_ok
  next hlabels =>
  cases h
  simp only [not_or, Nat.not_lt, Bool.not_eq_true, List.any_eq_false] at hlabels
  simp only [List.all_eq_true, not_forall, Bool.or_eq_true, decide_eq_true_eq, not_or, Bool.not_eq_true] at hletter
  obtain ⟨c, hc, hdigit, hcdot⟩ := hletter
  exact ⟨.name _, .name hascii hdot (parse_eq_none.mpr ⟨hv4, hv6⟩) ⟨hlabels.1, hlabels.2, c, hc, hdigit, hcdot⟩, rfl⟩

end

section

variable [IpText] [LawfulIpText]

theorem parseV4_print (ip : Ipv4Addr) : IpText.parseV4 (IpText.printV4 ip) = some ip := by
  have h := LawfulIpText.parse_print (.v4 ip)
  simp only [IpAddr.parse, IpAddr.print] at h
  cases hv4 : IpText.parseV4 (IpText.printV4 ip) with
  | some a =>
    rw [hv4] at h
    exact congrArg some (IpAddr.v4.inj (Option.some.inj h))
  | none =>
    rw [hv4] at h
    cases hv6 : IpText.parseV6 (IpText.printV4 ip) <;> simp [hv6] at h

theorem parseV6_print (ip : Ipv6Addr) :
    IpText.parseV4 (IpText.printV6 ip) = none ∧ IpText.parseV6 (IpText.printV6 ip) = some ip := by
  have h := LawfulIpText.parse_print (.v6 ip)
  simp only [IpAddr.parse, IpAddr.print] at h
  cases hv4 : IpText.parseV4 (IpText.printV6 ip) with
  | some a => simp [hv4] at h
  | none =>
    rw [hv4] at h
    cases hv6 : IpText.parseV6 (IpText.printV6 ip) with
    | some a =>
      rw [hv6] at h
      exact ⟨rfl, congrArg some (IpAddr.v6.inj (Option.some.inj h))⟩
    | none => simp [hv6] at h

theorem canonicalHost_of_names {raw : Str} {host : Host} (h : Names raw host) : canonicalHost raw = .ok host.text := by
  unfold canonicalHost
  cases h with
  | name hascii hdot hparse hdns =>
    obtain ⟨hv4, hv6⟩ := parse_eq_none.mp hparse
    obtain ⟨c, hc, hdigit, hcdot⟩ := hdns.letter
    have hne : raw ≠ [] := by
      rintro rfl
      exact absurd hc List.not_mem_nil
    have hall : ((raw.map Char.toLower).all fun c => isAsciiDigit c || c = '.') = false :=
      List.all_eq_false.mpr ⟨c, hc, by simp [hdigit, hcdot]⟩
    have hany : (split ['.'] (raw.map Char.toLower)).any badLabel = false :=
      List.any_eq_false.mpr fun label hlabel => by simp [hdns.labels label hlabel]
    rw [if_neg (by simp [hne, hdot, hascii])]
    dsimp only
    rw [hv4, hv6]
    dsimp only
    rw [hall, hany, if_neg Bool.false_ne_true, if_neg (by simpa using hdns.len)]
    rfl
  | @ip a hne hascii hdot hprint hspec =>
    rw [if_neg (by simp [hne, hdot, hascii])]
    dsimp only
    rw [← hprint]
    cases a with
    | v4 ip =>
      have hspec' : ip.isUnspecified = false := hspec
      simp only [IpAddr.print, parseV4_print, ne_eq, not_true_eq_false, if_false, hspec', Bool.false_eq_true]
      rfl
    | v6 ip =>
      obtain ⟨hv4, hv6⟩ := parseV6_print ip
      simp only [IpAddr.print, hv4, hv6, ne_eq, not_true_eq_false, if_false, hspec, Bool.false_eq_true]
      rfl

omit [LawfulIpText] in
theorem Names.ne_nil {raw : Str} {host : Host} (h : Names raw host) : raw ≠ [] := by
  cases h with
  | name _ _ _ hdns =>
    rintro rfl
    obtain ⟨c, hc, -⟩ := hdns.letter
    exact absurd hc List.not_mem_nil
  | ip hne => exact hne

theorem Names.chars {raw : Str} {host : Host} (h : Names raw host) {c : Char} (hc : c ∈ raw) : isHostChar c = true := by
  refine isHostChar_of_toLower ?_
  have hlower : c.toLower ∈ raw.map Char.toLower := List.mem_map_of_mem hc
  cases h with
  | name _ _ _ hdns =>
    rcases @mem_splitGo_dot (raw.map Char.toLower) [] _ hlower with hdot | ⟨label, hlabel, hmem⟩
    · rw [hdot]
      decide
    · exact isHostChar_of_label (hdns.labels label hlabel) hmem
  | @ip a _ _ _ hprint _ =>
    rw [← hprint] at hlower
    exact isHostChar_of_address (LawfulIpText.parse_chars _ a (LawfulIpText.parse_print a) _ hlower)

def Host.address : Host → Option IpAddr
  | name _ => none
  | ip a => some a

theorem Names.parse_text {raw : Str} {host : Host} (h : Names raw host) : IpAddr.parse host.text = host.address := by
  cases h with
  | name _ _ hparse _ => exact hparse
  | ip => exact LawfulIpText.parse_print _

/-- Different hosts have different canonical texts. -/
theorem Names.text_inj {raw raw' : Str} {h h' : Host} (hn : Names raw h) (hn' : Names raw' h')
    (heq : h.text = h'.text) : h = h' := by
  have haddress : h.address = h'.address := by rw [← hn.parse_text, ← hn'.parse_text, heq]
  cases h with
  | name s =>
    cases h' with
    | name s' => exact congrArg Host.name heq
    | ip a => cases haddress
  | ip a =>
    cases h' with
    | name s => cases haddress
    | ip a' => exact congrArg Host.ip (Option.some.inj haddress)

end

/-! ## Ports -/

def portText (explicit : Option UInt16) : Str := explicit.elim [] fun p => ':' :: natStr p.toNat

theorem parsePort_eq_ok {raw : Str} {p : UInt16} : parsePort raw = .ok p ↔ raw = natStr p.toNat ∧ p ≠ 0 := by
  constructor
  · intro h
    unfold parsePort at h
    split at h
    · exact absurd h malformed_ne_ok
    next hraw =>
    simp only [not_or, Bool.not_eq_true, not_and] at hraw
    obtain ⟨hne, hplus, hzero⟩ := hraw
    split at h
    next port hport =>
      cases h
      obtain ⟨hparse, hp⟩ := Option.filter_eq_some_iff.mp hport
      have hdigits : (stripPrefix ['+'] raw).getD raw = raw := by
        cases raw with
        | nil => rfl
        | cons c raw =>
          rw [stripPrefix_char, if_neg]
          · rfl
          · rintro rfl
            simp [startsWith] at hplus
      unfold parseU16 at hparse
      rw [hdigits] at hparse
      dsimp only at hparse
      split at hparse
      next hall =>
        obtain ⟨-, hall, hlt⟩ := hall
        obtain rfl := Option.some.inj hparse
        refine ⟨?_, by simpa using hp⟩
        rw [UInt16.toNat_ofNat', Nat.mod_eq_of_lt hlt]
        refine (natStr_ofDigitChars hne (List.all_eq_true.mp hall) fun rest hrest => ?_).symm
        by_contra hlong
        obtain ⟨c, rest, rfl⟩ := List.exists_cons_of_ne_nil hlong
        have hlen : 1 < byteLen raw := by
          have hpos := c.utf8Size_pos
          have hone := ('0').utf8Size_pos
          simp only [hrest, byteLen, List.map_cons, List.sum_cons]
          omega
        refine absurd (hzero hlen) ?_
        rw [hrest, Bool.not_eq_false]
        exact startsWith_char.mpr rfl
      · cases hparse
    · exact absurd h malformed_ne_ok
  · rintro ⟨rfl, hp⟩
    have hne := natStr_ne_nil p.toNat
    have hdigits : ∀ c ∈ natStr p.toNat, isAsciiDigit c = true := fun c hc => isAsciiDigit_of_mem_natStr hc
    have hcanonical : ¬ (natStr p.toNat = [] ∨ startsWith ['+'] (natStr p.toNat) = true ∨
        (1 < byteLen (natStr p.toNat) ∧ startsWith ['0'] (natStr p.toNat) = true)) := by
      obtain ⟨c, rest, hcons⟩ := List.exists_cons_of_ne_nil hne
      rintro (hnil | hplus | ⟨hlen, hzero⟩)
      · exact hne hnil
      · rw [hcons, startsWith_char] at hplus
        exact absurd (hdigits c (hcons ▸ List.mem_cons_self)) (by rw [← hplus]; decide)
      · rw [hcons, startsWith_char] at hzero
        subst hzero
        rw [hcons, natStr_leading_zero hcons] at hlen
        exact absurd hlen (by decide)
    have hparse : parseU16 (natStr p.toNat) = some p := by
      rw [parseU16, natStr_unsigned, ofDigitChars_natStr]
      rw [if_pos ⟨hne, List.all_eq_true.mpr hdigits, p.toNat_lt⟩, UInt16.ofNat_toNat]
    have hfilter : (some p).filter (fun q => decide (q ≠ 0)) = some p := Option.filter_some_pos (decide_eq_true hp)
    rw [parsePort, if_neg hcanonical, hparse, hfilter]

theorem parsePortSuffix_eq_ok {suffix : Str} {d p : UInt16} : parsePortSuffix suffix d = .ok p ↔
    ∃ explicit : Option UInt16, (∀ q ∈ explicit, q ≠ 0) ∧ suffix = portText explicit ∧ p = explicit.getD d := by
  constructor
  · intro h
    unfold parsePortSuffix at h
    split at h
    next hnil => exact ⟨none, nofun, hnil, (Except.ok.inj h).symm⟩
    next hne =>
    obtain ⟨c, rest, rfl⟩ := List.exists_cons_of_ne_nil hne
    rw [stripPrefix_char] at h
    by_cases hc : ':' = c
    · rw [if_pos hc] at h
      obtain ⟨rfl, hp⟩ := parsePort_eq_ok.mp h
      exact ⟨some p, by simpa using hp, by rw [← hc]; rfl, rfl⟩
    · rw [if_neg hc] at h
      exact absurd h malformed_ne_ok
  · rintro ⟨explicit, hne, rfl, rfl⟩
    cases explicit with
    | none => rfl
    | some q =>
      unfold parsePortSuffix
      rw [portText, Option.elim_some, if_neg (List.cons_ne_nil _ _), stripPrefix_char, if_pos rfl]
      exact parsePort_eq_ok.mpr ⟨rfl, hne q rfl⟩

/-! ## Authorities -/

def authorityText (bracketed : Bool) (hostText : Str) (explicit : Option UInt16) : Str :=
  (if bracketed then '[' :: (hostText ++ [']']) else hostText) ++ portText explicit

theorem splitAuthority_spelled {authority hostText : Str} {d p : UInt16}
    (h : splitAuthority authority d = .ok (hostText, p)) :
    ∃ (bracketed : Bool) (explicit : Option UInt16), authority = authorityText bracketed hostText explicit ∧
      (':' ∈ hostText → bracketed = true) ∧ (∀ q ∈ explicit, q ≠ 0) ∧ p = explicit.getD d := by
  unfold splitAuthority at h
  split at h
  next rest hrest =>
    have hauthority : authority = '[' :: rest := (List.isPrefixOf?_eq_some_iff_append_eq.mp hrest).symm
    split at h
    · exact absurd h malformed_ne_ok
    next host suffix hsplit =>
    obtain ⟨port, hport, h⟩ := bind_eq_ok.mp h
    cases h
    obtain ⟨explicit, hne, rfl, rfl⟩ := parsePortSuffix_eq_ok.mp hport
    refine ⟨true, explicit, ?_, fun _ => rfl, hne, rfl⟩
    rw [hauthority, (splitOnce_char_eq hsplit).1, authorityText, if_pos rfl]
    simp
  next hrest =>
  split at h
  · exact absurd h malformed_ne_ok
  next hcount =>
  split at h
  next host raw hsplit =>
    obtain ⟨port, hport, h⟩ := bind_eq_ok.mp h
    cases h
    obtain ⟨rfl, hne⟩ := parsePort_eq_ok.mp hport
    obtain ⟨rfl, -⟩ := rsplitOnce_char_eq hsplit
    refine ⟨false, some p, rfl, fun hcolon => ?_, by simpa using hne, rfl⟩
    have hpos := List.count_pos_iff.mpr hcolon
    rw [List.count_append, List.count_cons_self] at hcount
    omega
  next hsplit =>
    cases h
    exact ⟨false, none, (List.append_nil _).symm, fun hcolon => absurd hcolon (rsplitOnce_char_none hsplit), nofun, rfl⟩

theorem mem_portText {explicit : Option UInt16} {c : Char} (h : c ∈ portText explicit) :
    c = ':' ∨ isAsciiDigit c = true := by
  cases explicit with
  | none => cases h
  | some q =>
    rcases List.mem_cons.mp h with rfl | h
    · exact .inl rfl
    · exact .inr (isAsciiDigit_of_mem_natStr h)

theorem not_mem_portText {explicit : Option UInt16} {c : Char} (hcolon : c ≠ ':') (hdigit : isAsciiDigit c = false) :
    c ∉ portText explicit := fun h => (mem_portText h).elim hcolon fun hc => absurd (hc.symm.trans hdigit) (by decide)

theorem splitAuthority_of_spelled {hostText : Str} (hchars : ∀ c ∈ hostText, isHostChar c = true) {bracketed : Bool}
    (hcolon : ':' ∈ hostText → bracketed = true) {explicit : Option UInt16} (hne : ∀ q ∈ explicit, q ≠ 0) (d : UInt16) :
    splitAuthority (authorityText bracketed hostText explicit) d = .ok (hostText, explicit.getD d) := by
  have hnot : ∀ c, isHostChar c = false → c ∉ hostText :=
    fun c hc hmem => absurd ((hchars c hmem).symm.trans hc) (by decide)
  unfold splitAuthority
  cases bracketed with
  | true =>
    have htext : authorityText true hostText explicit = '[' :: (hostText ++ ']' :: portText explicit) := by
      simp [authorityText]
    rw [htext, stripPrefix_char, if_pos rfl]
    dsimp only
    rw [splitOnce_char (hnot ']' (by decide))]
    dsimp only
    rw [parsePortSuffix_eq_ok.mpr ⟨explicit, hne, rfl, rfl⟩]
    rfl
  | false =>
    have hfree : ':' ∉ hostText := fun h => absurd (hcolon h) (by decide)
    have htext : authorityText false hostText explicit = hostText ++ portText explicit := rfl
    have hbracket : stripPrefix ['['] (hostText ++ portText explicit) = none := by
      cases hs : hostText ++ portText explicit with
      | nil => rfl
      | cons c s =>
        rw [stripPrefix_char, if_neg]
        rintro rfl
        have hmem : '[' ∈ hostText ++ portText explicit := hs ▸ List.mem_cons_self
        exact (List.mem_append.mp hmem).elim (hnot '[' (by decide)) (not_mem_portText (by decide) (by decide))
    rw [htext, hbracket]
    dsimp only
    cases explicit with
    | none =>
      have hcount : (hostText ++ portText none).count ':' = 0 := by
        rw [portText, Option.elim_none, List.append_nil]
        exact List.count_eq_zero.mpr hfree
      have hsplit : rsplitOnce [':'] (hostText ++ portText none) = none := by
        rw [portText, Option.elim_none, List.append_nil]
        cases hs : rsplitOnce [':'] hostText with
        | none => rfl
        | some parts => exact absurd ((rsplitOnce_char_eq hs).1 ▸ List.mem_append_right _ List.mem_cons_self) hfree
      rw [if_neg (by omega), hsplit, portText, Option.elim_none, List.append_nil]
      rfl
    | some q =>
      have hdigits : ':' ∉ natStr q.toNat := fun h => absurd (isAsciiDigit_of_mem_natStr h) (by decide)
      have hcount : (hostText ++ portText (some q)).count ':' = 1 := by
        rw [portText, Option.elim_some, List.count_append, List.count_cons_self, List.count_eq_zero.mpr hfree,
          List.count_eq_zero.mpr hdigits]
      rw [if_neg (by omega), portText, Option.elim_some, rsplitOnce_char _ hdigits]
      dsimp only
      rw [parsePort_eq_ok.mpr ⟨rfl, hne q rfl⟩]
      rfl

/-! ## URLs -/

/-- A URL as it is spelled. -/
structure Url [IpText] where
  scheme : Scheme
  bracketed : Bool
  hostText : Str
  host : Host
  explicit : Option UInt16
  tail : Str
  names : Names hostText host
  colon_bracketed : ':' ∈ hostText → bracketed = true
  explicit_ne : ∀ q ∈ explicit, q ≠ 0
  tail_start : ∀ c ∈ tail.head?, endsAuthority c = true
  tail_chars : ∀ c ∈ tail, isUrlChar c = true

namespace Url

variable [IpText]

def authority (u : Url) : Str := authorityText u.bracketed u.hostText u.explicit

def text (u : Url) : Str := u.scheme.text ++ ("://".toList ++ (u.authority ++ u.tail))

def port (u : Url) : UInt16 := u.explicit.getD u.scheme.defaultPort

/-- What the parser makes of it. -/
def parsed (u : Url) : ParsedUrl := ⟨u.scheme, u.host.text, u.port⟩

end Url

theorem splitOnce_scheme (s : Scheme) (rest : Str) :
    splitOnce "://".toList (s.text ++ ("://".toList ++ rest)) = some (s.text, rest) := by
  cases s <;> rfl

theorem takeWhile_authority {authority tail : Str} (hauthority : ∀ c ∈ authority, endsAuthority c = false)
    (htail : ∀ c ∈ tail.head?, endsAuthority c = true) :
    (authority ++ tail).takeWhile (fun c => !endsAuthority c) = authority := by
  rw [List.takeWhile_append_of_pos fun c hc => by rw [hauthority c hc]; rfl]
  cases tail with
  | nil => exact List.append_nil _
  | cons c tail =>
    rw [List.takeWhile_cons_of_neg (by rw [htail c rfl]; decide), List.append_nil]

section

variable [IpText] [LawfulIpText]

theorem Url.mem_authority (u : Url) {c : Char} (h : c ∈ u.authority) : isHostChar c = true ∨ c = '[' ∨ c = ']' := by
  rw [authority, authorityText, List.mem_append] at h
  rcases h with h | h
  · cases hb : u.bracketed with
    | false =>
      rw [hb, if_neg Bool.false_ne_true] at h
      exact .inl (u.names.chars h)
    | true =>
      rw [hb, if_pos rfl, List.mem_cons, List.mem_append, List.mem_singleton] at h
      exact h.elim (fun h => .inr (.inl h)) fun h => h.imp u.names.chars .inr
  · rcases mem_portText h with rfl | hdigit
    · exact .inl (by decide)
    · exact .inl (isHostChar_of_digit hdigit)

theorem Url.authority_char (u : Url) {c : Char} (h : c ∈ u.authority) :
    isUrlChar c = true ∧ endsAuthority c = false ∧ c ≠ '@' := by
  rcases u.mem_authority h with hc | rfl | rfl
  · refine ⟨isUrlChar_of_host hc, ?_, ?_⟩
    · simp only [endsAuthority, Bool.or_eq_false_iff, decide_eq_false_iff_not]
      refine ⟨⟨?_, ?_⟩, ?_⟩ <;> rintro rfl <;> exact absurd hc (by decide)
    · rintro rfl
      exact absurd hc (by decide)
  all_goals exact ⟨by decide, by decide, by decide⟩

/-- The parser accepts the spellings of URLs, and these alone. -/
theorem parseUrl_eq_ok {url : Str} {e : ParsedUrl} : parseUrl url = .ok e ↔ ∃ u : Url, u.text = url ∧ e = u.parsed := by
  constructor
  · intro h
    unfold parseUrl at h
    split at h
    · exact absurd h malformed_ne_ok
    next hchars =>
    split at h
    · exact absurd h malformed_ne_ok
    next raw rest hsplit =>
    split at h
    · cases h
    next scheme hscheme =>
    dsimp only at h
    split at h
    · exact absurd h malformed_ne_ok
    split at h
    · exact absurd h malformed_ne_ok
    obtain ⟨⟨hostText, port⟩, hauthority, h⟩ := bind_eq_ok.mp h
    obtain ⟨host, hhost, h⟩ := bind_eq_ok.mp h
    cases h
    obtain ⟨bracketed, explicit, hspelled, hcolon, hne, rfl⟩ := splitAuthority_spelled hauthority
    obtain ⟨named, hnames, rfl⟩ := canonicalHost_names hhost
    have hurl : url = scheme.text ++ ("://".toList ++ rest) := by
      have hraw : raw = scheme.text := by
        unfold Scheme.ofText at hscheme
        split_ifs at hscheme with h1 h2
        · cases hscheme
          exact h1
        · cases hscheme
          exact h2
      rw [(first_splitOnce hsplit).eq, hraw, List.append_assoc]
    have hrest : rest = authorityText bracketed hostText explicit ++ rest.dropWhile fun c => !endsAuthority c := by
      rw [← hspelled, List.takeWhile_append_dropWhile]
    simp only [not_or, not_not, Bool.not_eq_true, List.any_eq_false, Bool.or_eq_false_iff] at hchars
    obtain ⟨-, hascii, hplain, hslash⟩ := hchars
    refine ⟨⟨scheme, bracketed, hostText, named, explicit, rest.dropWhile fun c => !endsAuthority c, hnames, hcolon,
      hne, ?_, ?_⟩, ?_, rfl⟩
    · intro c hc
      have hstop := List.head?_dropWhile_not (fun c => !endsAuthority c) rest
      rw [Option.mem_def.mp hc] at hstop
      simpa using hstop
    · intro c hc
      have hmem : c ∈ url := by
        rw [hurl]
        exact List.mem_append_right _ (List.mem_append_right _ ((List.dropWhile_sublist _).mem hc))
      have hne : c ≠ '\\' := by
        rintro rfl
        exact hslash hmem
      simp [isUrlChar, hascii c hmem, (hplain c hmem).1, (hplain c hmem).2, hne]
    · rw [Url.text, Url.authority, ← hrest]
      exact hurl.symm
  · rintro ⟨u, rfl, rfl⟩
    have hchars : ∀ c ∈ u.text, isUrlChar c = true := by
      intro c hc
      rw [Url.text, List.mem_append, List.mem_append, List.mem_append] at hc
      rcases hc with hc | hc | hc | hc
      · exact List.all_eq_true.mp (by cases u.scheme <;> decide) c hc
      · exact List.all_eq_true.mp (by decide : "://".toList.all isUrlChar = true) c hc
      · exact (u.authority_char hc).1
      · exact u.tail_chars c hc
    simp only [isUrlChar, Bool.and_eq_true, decide_eq_true_eq, Bool.not_eq_true'] at hchars
    have hgate : ¬ (u.text = [] ∨ ¬ IsAscii u.text ∨
        (u.text.any fun c => isAsciiControl c || isAsciiWhitespace c) = true ∨ '\\' ∈ u.text) := by
      rintro (hnil | hascii | hplain | hslash)
      · cases hs : u.scheme <;> simp [Url.text, hs, Scheme.text] at hnil
      · exact hascii fun c hc => (hchars c hc).1.1.1
      · obtain ⟨c, hc, hbad⟩ := List.any_eq_true.mp hplain
        rw [(hchars c hc).1.1.2, (hchars c hc).1.2] at hbad
        cases hbad
      · exact (hchars _ hslash).2 rfl
    have htake := takeWhile_authority (fun c hc => (u.authority_char hc).2.1) u.tail_start
    have hne : u.authority ≠ [] := by
      obtain ⟨c, rest, hcons⟩ := List.exists_cons_of_ne_nil u.names.ne_nil
      cases hb : u.bracketed <;> simp [Url.authority, authorityText, hb, hcons]
    have hofText : Scheme.ofText u.scheme.text = some u.scheme := by cases u.scheme <;> decide
    rw [parseUrl, if_neg hgate, Url.text, splitOnce_scheme]
    dsimp only
    rw [hofText]
    dsimp only
    rw [htake, if_neg hne, if_neg fun hat => (u.authority_char hat).2.2 rfl, Url.authority,
      splitAuthority_of_spelled (fun c hc => u.names.chars hc) u.colon_bracketed u.explicit_ne]
    show (canonicalHost u.hostText >>= fun host => .ok (⟨u.scheme, host, u.port⟩ : ParsedUrl)) = _
    rw [canonicalHost_of_names u.names]
    rfl

end

end Ccos.Egress
