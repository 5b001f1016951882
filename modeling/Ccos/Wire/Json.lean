import Ccos.Candidate.Protocol
import Ccos.Lib.Splits

/-!
# JSON

The values, the compact writer, and the recursive parser with its limit on nesting.
-/

namespace Ccos

/-- What the wire asks of `f64` besides arithmetic. -/
class WireFloat64 (F : Type) extends Float64 F where
  fromBits : UInt64 → F
  fract : F → F
  toI64 : F → Int
  toU16 : F → UInt16
  display : F → Str
  /-- `str::parse::<f64>`. -/
  parse : Str → Option F

/-- An object is its entries in the order of the keys, as the map of the source holds them. -/
inductive Json (F : Type)
  | null
  | bool (b : Bool)
  | num (n : F)
  | str (s : Str)
  | arr (items : List (Json F))
  | obj (entries : List (Str × Json F))

/-- `BTreeMap::insert`, on the entries in the order of the keys. -/
def insertKey {A : Type} (key : Str) (value : A) : List (Str × A) → List (Str × A)
  | [] => [(key, value)]
  | entry :: rest =>
    match compare key entry.1 with
    | .lt => (key, value) :: entry :: rest
    | .eq => (key, value) :: rest
    | .gt => entry :: insertKey key value rest

/-- `Json::obj` followed by a `set` for each entry. -/
def ofEntries {A : Type} (entries : List (Str × A)) : List (Str × A) :=
  entries.foldl (fun map entry => insertKey entry.1 entry.2 map) []

/-! ## Writing -/

/-- `format!` of a number in base 16, with leading zeros up to the width. -/
def hexPad (width n : Nat) : Str :=
  (List.range width).reverse.map fun i => Nat.digitChar (n / 16 ^ i % 16)

def escapeChar (c : Char) : Str :=
  if c = '\x22' then ['\\', '\x22']
  else if c = '\\' then ['\\', '\\']
  else if c = '\n' then ['\\', 'n']
  else if c = '\r' then ['\\', 'r']
  else if c = '\t' then ['\\', 't']
  else if c.toNat < 0x20 then '\\' :: 'u' :: hexPad 4 c.toNat
  else [c]

def writeEscaped (s : Str) : Str := '\x22' :: s.flatMap escapeChar ++ ['\x22']

namespace Json

section Write

variable {F : Type} [WireFloat64 F]

/-- A whole number below `1e15` is written as an integer. -/
def writeNum (n : F) : Str :=
  if Scalar.eq (WireFloat64.fract n) (Scalar.lit 0) && Scalar.lt (Scalar.abs n) (Scalar.lit 1000000000000000) then
    (toString (WireFloat64.toI64 n)).toList
  else WireFloat64.display n

mutual

def write : Json F → Str
  | .null => "null".toList
  | .bool b => if b then "true".toList else "false".toList
  | .num n => writeNum n
  | .str s => writeEscaped s
  | .arr items => '[' :: writeItems items ++ [']']
  | .obj entries => '\x7b' :: writeEntries entries ++ ['\x7d']

def writeItems : List (Json F) → Str
  | [] => []
  | [v] => write v
  | v :: w :: rest => write v ++ ',' :: writeItems (w :: rest)

def writeEntries : List (Str × Json F) → Str
  | [] => []
  | [(k, v)] => writeEscaped k ++ ':' :: write v
  | (k, v) :: e :: rest => writeEscaped k ++ ':' :: write v ++ ',' :: writeEntries (e :: rest)

end

end Write

end Json

/-! ## The parser -/

inductive JsonError
  | message (text : Str)
  /-- Not a value of the source: a loop of the model that was cut short. -/
  | outOfFuel
  deriving DecidableEq, Repr

def refused {A : Type} (text : String) : Except JsonError A := .error (.message text.toList)

/-- The characters from `pos` on, and how deep the values nest. -/
structure Parser where
  rest : Str
  pos : Nat
  depth : Nat
  deriving DecidableEq, Repr

def maxDepth : Nat := 128

/-- `char::to_digit(16)`. -/
def toDigit16 (c : Char) : Option Nat :=
  if '0' ≤ c ∧ c ≤ '9' then some (c.toNat - 48)
  else if 'a' ≤ c ∧ c ≤ 'f' then some (c.toNat - 87)
  else if 'A' ≤ c ∧ c ≤ 'F' then some (c.toNat - 55)
  else none

def isNumberChar (c : Char) : Bool :=
  isAsciiDigit c || c = '.' || c = 'e' || c = 'E' || c = '+' || c = '-'

/-- `char::from_u32`, with the replacement character for what is no scalar value. -/
def charOf (n : Nat) : Char := if n.isValidChar then Char.ofNat n else Char.ofNat 0xfffd

namespace Parser

def peek (p : Parser) : Option Char := p.rest.head?

def next (p : Parser) : Option Char × Parser :=
  match p.rest with
  | [] => (none, p)
  | c :: rest => (some c, { p with rest, pos := p.pos + 1 })

def located (p : Parser) (text : String) : Str := text.toList ++ " à la position ".toList ++ natStr p.pos

def enter (p : Parser) : Except JsonError Parser :=
  if maxDepth < p.depth + 1 then refused "imbrication JSON trop profonde (> 128)"
  else .ok { p with depth := p.depth + 1 }

/-- The end of an array or of an object. -/
def leave (p : Parser) : Parser := { p with depth := p.depth - 1 }

def skipWs (p : Parser) : Parser :=
  { p with rest := p.rest.dropWhile isWhitespace, pos := p.pos + (p.rest.takeWhile isWhitespace).length }

def matchLiteral (lit : Str) (p : Parser) : Option Parser :=
  if p.rest.take lit.length = lit then some { p with rest := p.rest.drop lit.length, pos := p.pos + lit.length }
  else none

/-! ### Strings -/

/-- `count` more hexadecimal digits. -/
def readHex : Nat → Nat → Parser → Except JsonError (Nat × Parser)
  | 0, code, p => .ok (code, p)
  | count + 1, code, p =>
    match p.next with
    | (none, _) => refused "\\u tronqué"
    | (some c, p) =>
      match toDigit16 c with
      | none => refused "hex invalide dans \\u"
      | some d => readHex count (code * 16 + d) p

def readHex4 (p : Parser) : Except JsonError (Nat × Parser) := readHex 4 0 p

/-- What follows a backslash and a `u`, with the pairs of UTF-16 put together. -/
def unicodeEscape (p : Parser) : Except JsonError (Char × Parser) := do
  let (code, p) ← readHex4 p
  if 0xd800 ≤ code ∧ code ≤ 0xdbff then
    if p.next.1 ≠ some '\\' ∨ p.next.2.next.1 ≠ some 'u' then refused "surrogate haut non suivi de \\u"
    else
      let (low, p) ← readHex4 p.next.2.next.2
      if ¬ (0xdc00 ≤ low ∧ low ≤ 0xdfff) then refused "surrogate bas invalide"
      else .ok (charOf (0x10000 + (code - 0xd800) * 1024 + (low - 0xdc00)), p)
  else if 0xdc00 ≤ code ∧ code ≤ 0xdfff then .ok (Char.ofNat 0xfffd, p)
  else .ok (charOf code, p)

/-- What follows a backslash. -/
def unescape (p : Parser) : Except JsonError (Char × Parser) :=
  match p.next with
  | (none, _) => refused "échappement tronqué"
  | (some '\x22', p) => .ok ('\x22', p)
  | (some '\\', p) => .ok ('\\', p)
  | (some '/', p) => .ok ('/', p)
  | (some 'n', p) => .ok ('\n', p)
  | (some 'r', p) => .ok ('\r', p)
  | (some 't', p) => .ok ('\t', p)
  | (some 'b', p) => .ok (Char.ofNat 8, p)
  | (some 'f', p) => .ok (Char.ofNat 12, p)
  | (some 'u', p) => unicodeEscape p
  | (some other, _) => .error (.message ("échappement inconnu \\".toList ++ [other]))

/-- The loop of a string. A turn reads a character, so as many turns as characters are enough. -/
def stringFrom : Nat → Str → Parser → Except JsonError (Str × Parser)
  | 0, _, _ => .error .outOfFuel
  | turns + 1, s, p =>
    match p.next with
    | (none, _) => refused "chaîne non terminée"
    | (some '\x22', p) => .ok (s, p)
    | (some '\\', p) => do
      let (c, p) ← unescape p
      stringFrom turns (s ++ [c]) p
    | (some c, p) => stringFrom turns (s ++ [c]) p

def parseString (p : Parser) : Except JsonError (Str × Parser) :=
  match p.next with
  | (some '\x22', p) => stringFrom (p.rest.length + 1) [] p
  | (_, p) => .error (.message (p.located "'\"' attendu"))

/-! ### Values -/

section Values

variable {F : Type} [WireFloat64 F]

def parseBool (p : Parser) : Except JsonError (Json F × Parser) :=
  match p.matchLiteral "true".toList with
  | some p => .ok (.bool true, p)
  | none =>
    match p.matchLiteral "false".toList with
    | some p => .ok (.bool false, p)
    | none => .error (.message (p.located "littéral booléen invalide"))

def parseNull (p : Parser) : Except JsonError (Json F × Parser) :=
  match p.matchLiteral "null".toList with
  | some p => .ok (.null, p)
  | none => .error (.message (p.located "littéral null invalide"))

def parseNumber (p : Parser) : Except JsonError (Json F × Parser) :=
  let sign := if p.peek = some '-' then ['-'] else []
  let unsigned := if p.peek = some '-' then p.next.2 else p
  let slice := sign ++ unsigned.rest.takeWhile isNumberChar
  match WireFloat64.parse slice with
  | some n =>
    .ok (.num n, { unsigned with rest := unsigned.rest.dropWhile isNumberChar, pos := p.pos + slice.length })
  | none => .error (.message ("nombre invalide '".toList ++ slice ++ "'".toList))

variable (parseValue : Parser → Except JsonError (Json F × Parser))

/-- The loop over the entries of an object. -/
def entriesFrom : Nat → List (Str × Json F) → Parser → Except JsonError (Json F × Parser)
  | 0, _, _ => .error .outOfFuel
  | turns + 1, map, p => do
    let (key, p) ← parseString p.skipWs
    match p.skipWs.next with
    | (some ':', p) =>
      let (val, p) ← parseValue p
      let map := insertKey key val map
      match p.skipWs.next with
      | (some ',', p) => entriesFrom turns map p
      | (some '\x7d', p) => .ok (.obj map, p.leave)
      | (_, p) => .error (.message (p.located "',' ou '\x7d' attendu"))
    | (_, p) => .error (.message (p.located "':' attendu"))

def parseObject (p : Parser) : Except JsonError (Json F × Parser) := do
  let p ← p.enter
  let p := p.next.2.skipWs
  if p.peek = some '\x7d' then .ok (.obj [], p.next.2.leave)
  else entriesFrom parseValue (p.rest.length + 1) [] p

/-- The loop over the values of an array. -/
def itemsFrom : Nat → List (Json F) → Parser → Except JsonError (Json F × Parser)
  | 0, _, _ => .error .outOfFuel
  | turns + 1, items, p => do
    let (val, p) ← parseValue p
    let items := items ++ [val]
    match p.skipWs.next with
    | (some ',', p) => itemsFrom turns items p
    | (some ']', p) => .ok (.arr items, p.leave)
    | (_, p) => .error (.message (p.located "',' ou ']' attendu"))

def parseArray (p : Parser) : Except JsonError (Json F × Parser) := do
  let p ← p.enter
  let p := p.next.2.skipWs
  if p.peek = some ']' then .ok (.arr [], p.next.2.leave)
  else itemsFrom parseValue (p.rest.length + 1) [] p

end Values

/-- A value that nests at most `levels` deep. -/
def parseValue {F : Type} [WireFloat64 F] : Nat → Parser → Except JsonError (Json F × Parser)
  | 0, _ => .error .outOfFuel
  | levels + 1, p =>
    let p := p.skipWs
    match p.peek with
    | some '\x7b' => parseObject (parseValue levels) p
    | some '[' => parseArray (parseValue levels) p
    | some '\x22' => do
      let (s, p) ← parseString p
      .ok (.str s, p)
    | some 't' | some 'f' => parseBool p
    | some 'n' => parseNull p
    | some c =>
      if c = '-' || isAsciiDigit c then parseNumber p
      else .error (.message ("token inattendu '".toList ++ c :: "' à la position ".toList ++ natStr p.pos))
    | none => refused "fin d'entrée inattendue"

end Parser

/-- `Json::parse`. The parser itself refuses what nests deeper than `maxDepth`. -/
def Json.parse {F : Type} [WireFloat64 F] (input : Str) : Except JsonError (Json F) := do
  let (v, p) ← Parser.parseValue (maxDepth + 1) (Parser.skipWs ⟨input, 0, 0⟩)
  let p := p.skipWs
  if p.rest ≠ [] then .error (.message (p.located "caractères superflus")) else .ok v

end Ccos
