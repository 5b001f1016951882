import Ccos.Lib.Ascii
import Ccos.Lib.Splits

/-!
# Where a client may connect

A policy holds the hosts that were consented to, each with its ports. A URL is parsed, authorized against the policy and
resolved once, and every address of the answer is checked.
-/

open Std

namespace Ccos.Egress

/-! ## Addresses of the standard library -/

structure Ipv4Addr where
  a : UInt8
  b : UInt8
  c : UInt8
  d : UInt8
  deriving DecidableEq, Repr, Ord

structure Ipv6Addr where
  s0 : UInt16
  s1 : UInt16
  s2 : UInt16
  s3 : UInt16
  s4 : UInt16
  s5 : UInt16
  s6 : UInt16
  s7 : UInt16
  deriving DecidableEq, Repr, Ord

inductive IpAddr
  | v4 (ip : Ipv4Addr)
  | v6 (ip : Ipv6Addr)
  deriving DecidableEq, Repr, Ord

namespace Ipv4Addr

def isUnspecified (ip : Ipv4Addr) : Bool := ip = ⟨0, 0, 0, 0⟩
def isLoopback (ip : Ipv4Addr) : Bool := ip.a = 127
def isBroadcast (ip : Ipv4Addr) : Bool := ip = ⟨255, 255, 255, 255⟩
def isMulticast (ip : Ipv4Addr) : Bool := 224 ≤ ip.a && ip.a ≤ 239
def isLinkLocal (ip : Ipv4Addr) : Bool := ip.a = 169 && ip.b = 254

end Ipv4Addr

namespace Ipv6Addr

def isUnspecified (ip : Ipv6Addr) : Bool := ip = ⟨0, 0, 0, 0, 0, 0, 0, 0⟩
def isLoopback (ip : Ipv6Addr) : Bool := ip = ⟨0, 0, 0, 0, 0, 0, 0, 1⟩
def isMulticast (ip : Ipv6Addr) : Bool := ip.s0 &&& 0xff00 = 0xff00
def isUnicastLinkLocal (ip : Ipv6Addr) : Bool := ip.s0 &&& 0xffc0 = 0xfe80

def toIpv4Mapped (ip : Ipv6Addr) : Option Ipv4Addr :=
  if ip.s0 = 0 ∧ ip.s1 = 0 ∧ ip.s2 = 0 ∧ ip.s3 = 0 ∧ ip.s4 = 0 ∧ ip.s5 = 0xffff then
    some ⟨(ip.s6 >>> 8).toUInt8, ip.s6.toUInt8, (ip.s7 >>> 8).toUInt8, ip.s7.toUInt8⟩
  else none

end Ipv6Addr

namespace IpAddr

def isUnspecified : IpAddr → Bool
  | v4 ip => ip.isUnspecified
  | v6 ip => ip.isUnspecified

def isLoopback : IpAddr → Bool
  | v4 ip => ip.isLoopback
  | v6 ip => ip.isLoopback

end IpAddr

/-- `FromStr` and `Display` of the two kinds of address. -/
class IpText where
  parseV4 : Str → Option Ipv4Addr
  parseV6 : Str → Option Ipv6Addr
  printV4 : Ipv4Addr → Str
  printV6 : Ipv6Addr → Str

section Text

variable [IpText]

def IpAddr.print : IpAddr → Str
  | .v4 ip => IpText.printV4 ip
  | .v6 ip => IpText.printV6 ip

def IpAddr.parse (s : Str) : Option IpAddr :=
  ((IpText.parseV4 s).map IpAddr.v4).or ((IpText.parseV6 s).map IpAddr.v6)

end Text

def normalizeIp : IpAddr → IpAddr
  | .v6 ip => (ip.toIpv4Mapped.map IpAddr.v4).getD (.v6 ip)
  | .v4 ip => .v4 ip

def isAlwaysProhibited (ip : IpAddr) : Bool :=
  match normalizeIp ip with
  | .v4 ip => ip.isUnspecified || ip.isBroadcast || ip.isMulticast || ip.isLinkLocal
  | .v6 ip => ip.isUnspecified || ip.isMulticast || ip.isUnicastLinkLocal

/-! ## URLs -/

inductive EgressError
  | malformed (reason : Str)
  | hostNotAllowed (host : Str) (allowlist : List Str)
  deriving DecidableEq, Repr

def malformed {A : Type} (reason : String) : Except EgressError A := .error (.malformed reason.toList)

inductive Scheme
  | http
  | https
  deriving DecidableEq, Repr

def Scheme.text : Scheme → Str
  | http => "http".toList
  | https => "https".toList

def Scheme.defaultPort : Scheme → UInt16
  | http => 80
  | https => 443

def Scheme.ofText (s : Str) : Option Scheme :=
  if s = "http".toList then some .http else if s = "https".toList then some .https else none

structure ParsedUrl where
  scheme : Scheme
  host : Str
  port : UInt16
  deriving DecidableEq, Repr

def isAsciiControl (c : Char) : Bool := c.toNat < 32 || c.toNat = 127

def isAsciiWhitespace (c : Char) : Bool := c = ' ' || c = '\t' || c = '\n' || c = Char.ofNat 12 || c = '\r'

def isAsciiAlphanumeric (c : Char) : Bool :=
  isAsciiDigit c || ('a' ≤ c && c ≤ 'z') || ('A' ≤ c && c ≤ 'Z')

/-- `str::parse::<u16>`. -/
def parseU16 (raw : Str) : Option UInt16 :=
  let digits := (stripPrefix ['+'] raw).getD raw
  if digits ≠ [] ∧ digits.all isAsciiDigit = true ∧ Nat.ofDigitChars 10 digits 0 < 2 ^ 16 then
    some (UInt16.ofNat (Nat.ofDigitChars 10 digits 0))
  else none

def parsePort (raw : Str) : Except EgressError UInt16 :=
  if raw = [] ∨ startsWith ['+'] raw = true ∨ (1 < byteLen raw ∧ startsWith ['0'] raw = true) then
    malformed "non-canonical port"
  else
    match (parseU16 raw).filter (· ≠ 0) with
    | some port => .ok port
    | none => malformed "invalid port"

def parsePortSuffix (suffix : Str) (defaultPort : UInt16) : Except EgressError UInt16 :=
  if suffix = [] then .ok defaultPort
  else
    match stripPrefix [':'] suffix with
    | some port => parsePort port
    | none => malformed "characters after IPv6 host"

def badLabel (label : Str) : Bool :=
  label = [] || 63 < byteLen label || startsWith ['-'] label || ['-'].isSuffixOf label ||
    !label.all fun c => isAsciiAlphanumeric c || c = '-'

def redactComponent (value : Str) : Str := value.take 32

/-- `/`, `?` and `#` end the authority. -/
def endsAuthority (c : Char) : Bool := c = '/' || c = '?' || c = '#'

section

variable [IpText]

def canonicalHost (raw : Str) : Except EgressError Str :=
  if raw = [] ∨ ['.'].isSuffixOf raw = true ∨ ¬ IsAscii raw then malformed "invalid host"
  else
    let lower := raw.map Char.toLower
    match IpText.parseV4 lower with
    | some ipv4 =>
      if IpText.printV4 ipv4 ≠ lower then malformed "non-canonical IPv4 address"
      else if ipv4.isUnspecified then .error (.hostNotAllowed (IpText.printV4 ipv4) [])
      else .ok (IpText.printV4 ipv4)
    | none =>
      match IpText.parseV6 lower with
      | some ipv6 =>
        if IpText.printV6 ipv6 ≠ lower then malformed "non-canonical IPv6 address"
        else
          let normalized := normalizeIp (.v6 ipv6)
          if normalized.isUnspecified then .error (.hostNotAllowed normalized.print [])
          else .ok normalized.print
      | none =>
        if lower.all fun c => isAsciiDigit c || c = '.' then malformed "non-canonical numeric host"
        else if 253 < byteLen lower ∨ (split ['.'] lower).any badLabel = true then malformed "invalid DNS host"
        else .ok lower

/-- The raw host and the effective port of an authority. -/
def splitAuthority (authority : Str) (defaultPort : UInt16) : Except EgressError (Str × UInt16) :=
  match stripPrefix ['['] authority with
  | some bracketed =>
    match splitOnce [']'] bracketed with
    | none => malformed "unterminated IPv6 host"
    | some (host, suffix) => do
      let port ← parsePortSuffix suffix defaultPort
      .ok (host, port)
  | none =>
    if 1 < authority.count ':' then malformed "IPv6 host must be bracketed"
    else
      match rsplitOnce [':'] authority with
      | some (host, rawPort) => do
        let port ← parsePort rawPort
        .ok (host, port)
      | none => .ok (authority, defaultPort)

def parseUrl (url : Str) : Except EgressError ParsedUrl :=
  if url = [] ∨ ¬ IsAscii url ∨ (url.any fun c => isAsciiControl c || isAsciiWhitespace c) = true ∨ '\\' ∈ url then
    malformed "non-canonical characters"
  else
    match splitOnce "://".toList url with
    | none => malformed "missing scheme or authority"
    | some (rawScheme, rest) =>
      match Scheme.ofText rawScheme with
      | none => .error (.malformed ("scheme '".toList ++ redactComponent rawScheme ++ "' is not allowed".toList))
      | some scheme =>
        let authority := rest.takeWhile fun c => !endsAuthority c
        if authority = [] then malformed "empty authority"
        else if '@' ∈ authority then malformed "URL user-info is forbidden"
        else do
          let (rawHost, port) ← splitAuthority authority scheme.defaultPort
          let host ← canonicalHost rawHost
          .ok ⟨scheme, host, port⟩

end

/-! ## The policy -/

structure EgressAllowlist where
  allowed : BTreeMap Str (ExtTreeSet UInt16)

def EgressAllowlist.localhostOnly : EgressAllowlist := ⟨∅⟩

/-- The ports after the last bracket, or the one colon there is. -/
def entryHasExplicitPort (entry : Str) : Bool :=
  match rsplitOnce [']'] entry with
  | some (_, suffix) => startsWith [':'] suffix
  | none => entry.count ':' = 1

structure AuthorizedUrl where
  scheme : Scheme
  host : Str
  port : UInt16
  implicitLoopback : Bool
  deriving DecidableEq, Repr

def defaultLoopbackPorts : List UInt16 := [80, 443, 11434]

namespace EgressAllowlist

/-- `entry(host).or_default()`, with the ports added to it. -/
def consent (p : EgressAllowlist) (host : Str) (ports : List UInt16) : EgressAllowlist :=
  ⟨p.allowed.insert host (ports.foldl (fun s port => s.insert port) ((p.allowed[host]?).getD ∅))⟩

def allows (p : EgressAllowlist) (host : Str) (port : UInt16) : Bool :=
  (p.allowed[host]?).any fun ports => ports.contains port

def allowedHosts (p : EgressAllowlist) : List Str :=
  p.allowed.toList.map fun e => e.1 ++ ':' :: joinWith ['|'] (e.2.toList.map fun port => natStr port.toNat)

section

variable [IpText]

def allowEntry (p : EgressAllowlist) (entry : Str) : EgressAllowlist :=
  if startsWith ['['] entry = true ∨ entry.count ':' ≤ 1 then
    match parseUrl ("http://".toList ++ entry) with
    | .error _ => p
    | .ok parsed => p.consent parsed.host (if entryHasExplicitPort entry then [parsed.port] else [80, 443])
  else p

def allowing (p : EgressAllowlist) (urlOrHost : Str) : EgressAllowlist :=
  if containsStr "://".toList urlOrHost then
    match parseUrl urlOrHost with
    | .error _ => p
    | .ok parsed => p.consent parsed.host [parsed.port]
  else p.allowEntry urlOrHost

/-- What `authorize` takes for loopback. -/
def implicitLoopback (host : Str) : Bool :=
  host = "localhost".toList || ((IpAddr.parse host).map normalizeIp).any IpAddr.isLoopback

def authorize (p : EgressAllowlist) (url : Str) : Except EgressError AuthorizedUrl := do
  let parsed ← parseUrl url
  let hostAndPort := parsed.host ++ ':' :: natStr parsed.port.toNat
  let implicitLoopback := implicitLoopback parsed.host
  if implicitLoopback then
    if defaultLoopbackPorts.contains parsed.port || p.allows parsed.host parsed.port then
      .ok ⟨parsed.scheme, parsed.host, parsed.port, implicitLoopback⟩
    else if !defaultLoopbackPorts.contains parsed.port then .error (.hostNotAllowed hostAndPort p.allowedHosts)
    else .ok ⟨parsed.scheme, parsed.host, parsed.port, implicitLoopback⟩
  else
    match p.allowed[parsed.host]? with
    | some ports =>
      if !ports.contains parsed.port then .error (.hostNotAllowed hostAndPort p.allowedHosts)
      else .ok ⟨parsed.scheme, parsed.host, parsed.port, false⟩
    | none => .error (.hostNotAllowed parsed.host p.allowedHosts)

end

end EgressAllowlist

/-! ## Resolving -/

structure SocketAddr where
  ip : IpAddr
  port : UInt16
  deriving DecidableEq, Repr, Ord

structure ValidatedUrl where
  authorized : AuthorizedUrl
  addresses : List SocketAddr
  deriving DecidableEq, Repr

def maxResolvedAddresses : Nat := 16

/-- `dns` is what `to_socket_addrs` answers. -/
def AuthorizedUrl.resolve [IpText] (a : AuthorizedUrl) (dns : Option (List SocketAddr)) :
    Except EgressError ValidatedUrl :=
  match dns with
  | none => .error (.malformed ("host '".toList ++ a.host ++ "' did not resolve".toList))
  | some answer =>
    let addresses := answer.take (maxResolvedAddresses + 1)
    if addresses = [] ∨ maxResolvedAddresses < addresses.length then
      .error (.malformed ("host '".toList ++ a.host ++ "' returned no bounded DNS answer".toList))
    else
      let addresses := sortDedup addresses
      match (addresses.map fun address => normalizeIp address.ip).find? fun ip =>
          isAlwaysProhibited ip || (a.implicitLoopback && !ip.isLoopback) with
      | some ip => .error (.hostNotAllowed ip.print [])
      | none => .ok ⟨a, addresses⟩

end Ccos.Egress
