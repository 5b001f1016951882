import Ccos.Wire.Decimal

/-!
# The JSON of SciRust

Objects keep their entries in order, repeated keys included. The writer has two layouts, and the parser walks the bytes
of the text.
-/

namespace Ccos.Scirust

/-- What this writer asks of `f64` besides the wire. -/
class TruncFloat64 (F : Type) extends WireFloat64 F where
  trunc : F → F

inductive Json (F : Type)
  | null
  | bool (b : Bool)
  | num (n : F)
  | str (s : Str)
  | arr (items : List (Json F))
  | obj (entries : List (Str × Json F))

/-! ## Writing -/

/-- A line of its own in the layout that has an indent. -/
def newlineIndent (indent : Option Nat) (level : Nat) : Str :=
  match indent with
  | none => []
  | some w => '\n' :: List.replicate (w * level) ' '

def colon (indent : Option Nat) : Str := if indent.isSome then [':', ' '] else [':']

namespace Json

section Write

variable {F : Type} [TruncFloat64 F]

def writeNum (n : F) : Str :=
  if !Float64.isFinite n then "null".toList
  else if Scalar.eq n (TruncFloat64.trunc n) && Scalar.lt (Scalar.abs n) (Scalar.lit 1000000000000000) then
    (toString (WireFloat64.toI64 n)).toList
  else WireFloat64.display n

variable (indent : Option Nat)

mutual

def write (level : Nat) : Json F → Str
  | .null => "null".toList
  | .bool b => if b then "true".toList else "false".toList
  | .num n => writeNum n
  | .str s => writeEscaped s
  | .arr items =>
    if items.isEmpty then ['[', ']'] else '[' :: writeItems level items ++ newlineIndent indent level ++ [']']
  | .obj entries =>
    if entries.isEmpty then ['\x7b', '\x7d']
    else '\x7b' :: writeEntries level entries ++ newlineIndent indent level ++ ['\x7d']

def writeItems (level : Nat) : List (Json F) → Str
  | [] => []
  | [v] => newlineIndent indent (level + 1) ++ write (level + 1) v
  | v :: w :: rest => newlineIndent indent (level + 1) ++ write (level + 1) v ++ ',' :: writeItems level (w :: rest)

def writeEntries (level : Nat) : List (Str × Json F) → Str
  | [] => []
  | [(k, v)] => newlineIndent indent (level + 1) ++ writeEscaped k ++ colon indent ++ write (level + 1) v
  | (k, v) :: e :: rest =>
    newlineIndent indent (level + 1) ++ writeEscaped k ++ colon indent ++ write (level + 1) v ++
      ',' :: writeEntries level (e :: rest)

end

end Write

def toCompact {F : Type} [TruncFloat64 F] (v : Json F) : Str := v.write none 0

def toPretty {F : Type} [TruncFloat64 F] (v : Json F) : Str := v.write (some 2) 0

end Json

/-! ## The parser -/

/-- A byte literal. -/
def byte (c : Char) : UInt8 := UInt8.ofNat c.toNat

/-- The bytes from `i` on. -/
structure Parser where
  rest : List UInt8
  i : Nat
  depth : Nat
  deriving DecidableEq, Repr

def maxDepth : Nat := 64

def isWs (b : UInt8) : Bool := b = byte ' ' || b = byte '\t' || b = byte '\n' || b = byte '\r'

def isAsciiDigit (b : UInt8) : Bool := byte '0' ≤ b && b ≤ byte '9'

def isNumberByte (b : UInt8) : Bool :=
  isAsciiDigit b || b = byte '.' || b = byte 'e' || b = byte 'E' || b = byte '+' || b = byte '-'

def utf8Len (b : UInt8) : Nat :=
  if b < 0x80 then 1
  else if b >>> 5 = 6 then 2
  else if b >>> 4 = 14 then 3
  else if b >>> 3 = 30 then 4
  else 1

def hexDigit (b : UInt8) : Option Nat :=
  if byte '0' ≤ b ∧ b ≤ byte '9' then some (b.toNat - 48)
  else if byte 'a' ≤ b ∧ b ≤ byte 'f' then some (b.toNat - 97 + 10)
  else if byte 'A' ≤ b ∧ b ≤ byte 'F' then some (b.toNat - 65 + 10)
  else none

/-- `char::from_u32`. -/
def fromU32 (n : Nat) : Option Char := if n.isValidChar then some (Char.ofNat n) else none

namespace Parser

def peek (p : Parser) : Option UInt8 := p.rest.head?

def advance (p : Parser) (n : Nat) : Parser := { p with rest := p.rest.drop n, i := p.i + n }

def located (p : Parser) (text : String) : Str := text.toList ++ natStr p.i

def ws (p : Parser) : Parser := p.advance (p.rest.takeWhile isWs).length

/-! ### Strings -/

def hexDigits : Nat → Nat → Parser → Except JsonError (Nat × Parser)
  | 0, v, p => .ok (v, p)
  | count + 1, v, p =>
    match p.peek with
    | none => refused "short \\u escape"
    | some b =>
      match hexDigit b with
      | none => refused "bad hex digit"
      | some d => hexDigits count (v * 16 + d) (p.advance 1)

def hex4 (p : Parser) : Except JsonError (Nat × Parser) := hexDigits 4 0 p

def unicodeEscape (p : Parser) : Except JsonError (Char × Parser) := do
  let (hi, p) ← p.hex4
  if 0xd800 ≤ hi ∧ hi ≤ 0xdbff then
    if p.peek = some (byte '\\') ∧ (p.advance 1).peek = some (byte 'u') then
      let (lo, p) ← (p.advance 2).hex4
      if ¬ (0xdc00 ≤ lo ∧ lo ≤ 0xdfff) then refused "invalid low surrogate"
      else
        match fromU32 (0x10000 + (hi - 0xd800) * 1024 + (lo - 0xdc00)) with
        | some c => .ok (c, p)
        | none => refused "invalid surrogate pair"
    else refused "lone high surrogate"
  else
    match fromU32 hi with
    | some c => .ok (c, p)
    | none => refused "invalid code point"

/-- What follows a backslash. -/
def unescape (p : Parser) : Except JsonError (Char × Parser) :=
  match p.peek with
  | none => refused "eof in escape"
  | some e =>
    let p := p.advance 1
    if e = byte '\x22' then .ok ('\x22', p)
    else if e = byte '\\' then .ok ('\\', p)
    else if e = byte '/' then .ok ('/', p)
    else if e = byte 'n' then .ok ('\n', p)
    else if e = byte 't' then .ok ('\t', p)
    else if e = byte 'r' then .ok ('\r', p)
    else if e = byte 'b' then .ok (Char.ofNat 8, p)
    else if e = byte 'f' then .ok (Char.ofNat 12, p)
    else if e = byte 'u' then p.unicodeEscape
    else .error (.message ("bad escape '\\".toList ++ Char.ofNat e.toNat :: p.located "' at "))

/-- The loop of a string. A turn reads a byte, so as many turns as bytes are enough. -/
def stringFrom : Nat → Str → Parser → Except JsonError (Str × Parser)
  | 0, _, _ => .error .outOfFuel
  | turns + 1, s, p =>
    match p.peek with
    | none => refused "unterminated string"
    | some b =>
      if b = byte '\x22' then .ok (s, p.advance 1)
      else if b = byte '\\' then do
        let (c, p) ← (p.advance 1).unescape
        stringFrom turns (s ++ [c]) p
      else if p.rest.length < utf8Len b then refused "truncated utf8 in string"
      else
        match decodeUtf8 (p.rest.take (utf8Len b)) with
        | none => refused "bad utf8 in string"
        | some chunk => stringFrom turns (s ++ chunk) (p.advance (utf8Len b))

/-- The opening quote has been seen. -/
def string (p : Parser) : Except JsonError (Str × Parser) := stringFrom (p.rest.length + 1) [] (p.advance 1)

/-! ### Values -/

section Values

variable {F : Type} [TruncFloat64 F]

def literal (lit : Str) (val : Json F) (p : Parser) : Except JsonError (Json F × Parser) :=
  if p.rest.take (utf8 lit).length = utf8 lit then .ok (val, p.advance (utf8 lit).length)
  else .error (.message (p.located "invalid literal at "))

def number (p : Parser) : Except JsonError (Json F × Parser) :=
  let sign := if p.peek = some (byte '-') then 1 else 0
  let len := sign + ((p.rest.drop sign).takeWhile isNumberByte).length
  match decodeUtf8 (p.rest.take len) with
  | none => refused "bad utf8 in number"
  | some s =>
    match WireFloat64.parse s with
    | some n => .ok (.num n, p.advance len)
    | none => .error (.message ("bad number '".toList ++ s ++ "'".toList))

variable (value : Parser → Except JsonError (Json F × Parser))

/-- The loop over the values of an array. -/
def itemsFrom : Nat → List (Json F) → Parser → Except JsonError (Json F × Parser)
  | 0, _, _ => .error .outOfFuel
  | turns + 1, items, p => do
    let (val, p) ← value p
    let items := items ++ [val]
    let p := p.ws
    if p.peek = some (byte ',') then itemsFrom turns items (p.advance 1)
    else if p.peek = some (byte ']') then .ok (.arr items, p.advance 1)
    else .error (.message (p.located "expected ',' or ']' at "))

def array (p : Parser) : Except JsonError (Json F × Parser) :=
  let p := (p.advance 1).ws
  if p.peek = some (byte ']') then .ok (.arr [], p.advance 1)
  else itemsFrom value (p.rest.length + 1) [] p

/-- The loop over the entries of an object. -/
def entriesFrom : Nat → List (Str × Json F) → Parser → Except JsonError (Json F × Parser)
  | 0, _, _ => .error .outOfFuel
  | turns + 1, entries, p => do
    let p := p.ws
    if p.peek ≠ some (byte '\x22') then .error (.message (p.located "expected key string at "))
    else
      let (key, p) ← p.string
      let p := p.ws
      if p.peek ≠ some (byte ':') then .error (.message (p.located "expected ':' at "))
      else
        let (val, p) ← value (p.advance 1)
        let entries := entries ++ [(key, val)]
        let p := p.ws
        if p.peek = some (byte ',') then entriesFrom turns entries (p.advance 1)
        else if p.peek = some (byte '\x7d') then .ok (.obj entries, p.advance 1)
        else .error (.message (p.located "expected ',' or '\x7d' at "))

def object (p : Parser) : Except JsonError (Json F × Parser) :=
  let p := (p.advance 1).ws
  if p.peek = some (byte '\x7d') then .ok (.obj [], p.advance 1)
  else entriesFrom value (p.rest.length + 1) [] p

end Values

def nested {A : Type} (f : Parser → Except JsonError (A × Parser)) (p : Parser) : Except JsonError (A × Parser) := do
  let (a, p) ← f { p with depth := p.depth + 1 }
  return (a, { p with depth := p.depth - 1 })

/-- A value that nests at most `levels` deep. -/
def value {F : Type} [TruncFloat64 F] : Nat → Parser → Except JsonError (Json F × Parser)
  | 0, _ => .error .outOfFuel
  | levels + 1, p =>
    let p := p.ws
    if maxDepth < p.depth then refused "JSON nesting too deep"
    else
      match p.peek with
      | none => refused "unexpected end of input"
      | some c =>
        if c = byte '\x7b' then nested (object (value levels)) p
        else if c = byte '[' then nested (array (value levels)) p
        else if c = byte '\x22' then do
          let (s, p) ← p.string
          return (.str s, p)
        else if c = byte 't' then literal "true".toList (.bool true) p
        else if c = byte 'f' then literal "false".toList (.bool false) p
        else if c = byte 'n' then literal "null".toList .null p
        else if c = byte '-' || isAsciiDigit c then number p
        else .error (.message ("unexpected byte '".toList ++ Char.ofNat c.toNat :: p.located "' at "))

end Parser

/-- `Json::parse`. The parser itself refuses what nests deeper than `maxDepth`. -/
def Json.parse {F : Type} [TruncFloat64 F] (input : Str) : Except JsonError (Json F) := do
  let (v, p) ← Parser.value (maxDepth + 2) (Parser.ws ⟨utf8 input, 0, 0⟩)
  let p := p.ws
  if p.rest ≠ [] then .error (.message (p.located "trailing data at byte ")) else .ok v

end Ccos.Scirust
