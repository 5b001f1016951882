import Ccos.Lib.Splits
import Mathlib.Data.Rat.Floor

/-!
# Symbolic expressions

Expressions in one variable, their text, and the parser that reads proposals. Numbers are exact. The parser is a
recursive descent that counts how deep it is, and its loops take fuel.
-/

namespace Ccos.Rsi

inductive Expr
  | x
  | const (c : ℚ)
  | add (a b : Expr)
  | sub (a b : Expr)
  | mul (a b : Expr)
  | neg (a : Expr)
  deriving DecidableEq

/-! ## Printing -/

/-- Ties go to the even neighbour. -/
def roundHalfEven (q : ℚ) : Nat :=
  let n := ⌊q⌋₊
  if q - n < 1 / 2 then n else if 1 / 2 < q - n then n + 1 else n + n % 2

/-- `format!("\x7bc:.3\x7d")` -/
def fixed3 (c : ℚ) : Str :=
  let m := roundHalfEven (|c| * 1000)
  (if c < 0 then ['-'] else []) ++ natStr (m / 1000) ++
    ['.', (m / 100 % 10).digitChar, (m / 10 % 10).digitChar, (m % 10).digitChar]

namespace Expr

def eval (x : ℚ) : Expr → ℚ
  | .x => x
  | .const c => c
  | .add a b => a.eval x + b.eval x
  | .sub a b => a.eval x - b.eval x
  | .mul a b => a.eval x * b.eval x
  | .neg a => -a.eval x

def pretty : Expr → Str
  | .x => ['x']
  | .const c => fixed3 c
  | .add a b => '(' :: a.pretty ++ " + ".toList ++ b.pretty ++ [')']
  | .sub a b => '(' :: a.pretty ++ " - ".toList ++ b.pretty ++ [')']
  | .mul a b => '(' :: a.pretty ++ " * ".toList ++ b.pretty ++ [')']
  | .neg a => "(-".toList ++ a.pretty ++ [')']

end Expr

/-! ## Tokens -/

inductive Tok
  | lparen
  | rparen
  | plus
  | minus
  | star
  | x
  | num (n : ℚ)
  deriving DecidableEq

inductive ExprError
  | message (text : Str)
  | outOfFuel
  deriving DecidableEq

def isNumeric (c : Char) : Bool := isAsciiDigit c || c == '.'

/-- `str::parse::<f64>` of digits and points. -/
def parseF64 (lit : Str) : Option ℚ :=
  let whole := lit.takeWhile (· ≠ '.')
  let fraction := (lit.dropWhile (· ≠ '.')).drop 1
  if '.' ∈ fraction ∨ (whole = [] ∧ fraction = []) then none
  else some (Nat.ofDigitChars 10 whole 0 + Nat.ofDigitChars 10 fraction 0 / 10 ^ fraction.length)

def tokenize : Str → Except ExprError (List Tok)
  | [] => .ok []
  | c :: cs => do
    match c with
    | ' ' | '\t' | '\r' | '\n' => tokenize cs
    | '(' => return .lparen :: (← tokenize cs)
    | ')' => return .rparen :: (← tokenize cs)
    | '+' => return .plus :: (← tokenize cs)
    | '-' => return .minus :: (← tokenize cs)
    | '*' => return .star :: (← tokenize cs)
    | 'x' | 'X' => return .x :: (← tokenize cs)
    | c =>
      if isNumeric c then
        let lit := c :: cs.takeWhile isNumeric
        match parseF64 lit with
        | none => .error (.message ("nombre invalide '".toList ++ lit ++ "'".toList))
        | some n => return .num n :: (← tokenize (cs.dropWhile isNumeric))
      else .error (.message ("caractère inattendu '".toList ++ [c] ++ "'".toList))
termination_by s => s.length
decreasing_by
  all_goals have := (List.dropWhile_sublist isNumeric (l := cs)).length_le
  all_goals simp only [List.length_cons]; omega

/-! ## The parser -/

def maxExprDepth : Nat := 256

/-- The tokens that are left, and how deep the parser is. -/
structure ExprParser where
  rest : List Tok
  depth : Nat
  deriving DecidableEq

namespace ExprParser

def enter (p : ExprParser) : Except ExprError ExprParser :=
  if p.depth + 1 > maxExprDepth then
    .error (.message ("expression trop profonde (> ".toList ++ natStr maxExprDepth ++ ")".toList))
  else .ok { p with depth := p.depth + 1 }

def leave (p : ExprParser) : ExprParser := { p with depth := p.depth - 1 }

def primaryExpected (found : Str) : ExprError := .message ("primaire attendu, trouvé ".toList ++ found)

mutual

def parseExpr : Nat → ExprParser → Except ExprError (Expr × ExprParser)
  | 0, _ => .error .outOfFuel
  | fuel + 1, p => do
    let p ← p.enter
    let (lhs, p) ← parseTerm fuel p
    let (lhs, p) ← exprLoop fuel lhs p
    return (lhs, p.leave)

/-- `while let Some(t) = self.peek()` -/
def exprLoop : Nat → Expr → ExprParser → Except ExprError (Expr × ExprParser)
  | 0, _, _ => .error .outOfFuel
  | fuel + 1, lhs, p =>
    match p.rest with
    | .plus :: rest => do
      let (rhs, p) ← parseTerm fuel { p with rest }
      exprLoop fuel (.add lhs rhs) p
    | .minus :: rest => do
      let (rhs, p) ← parseTerm fuel { p with rest }
      exprLoop fuel (.sub lhs rhs) p
    | _ => .ok (lhs, p)

def parseTerm : Nat → ExprParser → Except ExprError (Expr × ExprParser)
  | 0, _ => .error .outOfFuel
  | fuel + 1, p => do
    let (lhs, p) ← parseFactor fuel p
    termLoop fuel lhs p

/-- `while let Some(Tok::Star) = self.peek()` -/
def termLoop : Nat → Expr → ExprParser → Except ExprError (Expr × ExprParser)
  | 0, _, _ => .error .outOfFuel
  | fuel + 1, lhs, p =>
    match p.rest with
    | .star :: rest => do
      let (rhs, p) ← parseFactor fuel { p with rest }
      termLoop fuel (.mul lhs rhs) p
    | _ => .ok (lhs, p)

def parseFactor : Nat → ExprParser → Except ExprError (Expr × ExprParser)
  | 0, _ => .error .outOfFuel
  | fuel + 1, p =>
    match p.rest with
    | .minus :: rest => do
      let p ← p.enter
      let (inner, p) ← parseFactor fuel { p with rest }
      return (.neg inner, p.leave)
    | _ => parsePrimary fuel p

def parsePrimary : Nat → ExprParser → Except ExprError (Expr × ExprParser)
  | 0, _ => .error .outOfFuel
  | fuel + 1, p =>
    match p.rest with
    | .x :: rest => .ok (.x, { p with rest })
    | .num n :: rest => .ok (.const n, { p with rest })
    | .lparen :: rest => do
      let (e, p) ← parseExpr fuel { p with rest }
      match p.rest with
      | .rparen :: rest => return (e, { p with rest })
      | _ => .error (.message "parenthèse fermante manquante".toList)
    | .rparen :: _ => .error (primaryExpected "Some(RParen)".toList)
    | .plus :: _ => .error (primaryExpected "Some(Plus)".toList)
    | .minus :: _ => .error (primaryExpected "Some(Minus)".toList)
    | .star :: _ => .error (primaryExpected "Some(Star)".toList)
    | [] => .error (primaryExpected "None".toList)

end

end ExprParser

/-- Four calls lead from an expression to its first token. -/
def Expr.parse (s : Str) : Except ExprError Expr := do
  let toks ← tokenize s
  if toks.isEmpty then .error (.message "expression vide".toList)
  else
    let (e, p) ← ExprParser.parseExpr (4 * toks.length + 4) ⟨toks, 0⟩
    if p.rest.isEmpty then return e
    else .error (.message ("jetons superflus à partir de la position ".toList
      ++ natStr (toks.length - p.rest.length)))

/-! ## The grammar -/

/-- The documented nonterminals. The loops start from the left side that is read already. -/
inductive Nonterminal
  | expr
  | moreTerms (lhs : Expr)
  | term
  | moreFactors (lhs : Expr)
  | factor
  | primary

/-- The tokens of a nonterminal, what they stand for, and how deeply they nest. -/
inductive Derives : Nonterminal → List Tok → Expr → Nat → Prop
  /-- `expr := term (('+' | '-') term)*` -/
  | expr {ts us : List Tok} {a e : Expr} {m n : Nat} :
    Derives .term ts a m → Derives (.moreTerms a) us e n → Derives .expr (ts ++ us) e (1 + max m n)
  | noTerm {a : Expr} : Derives (.moreTerms a) [] a 0
  | plus {ts us : List Tok} {a b e : Expr} {m n : Nat} :
    Derives .term ts b m → Derives (.moreTerms (.add a b)) us e n → Derives (.moreTerms a) (.plus :: ts ++ us) e (max m n)
  | minus {ts us : List Tok} {a b e : Expr} {m n : Nat} :
    Derives .term ts b m → Derives (.moreTerms (.sub a b)) us e n → Derives (.moreTerms a) (.minus :: ts ++ us) e (max m n)
  /-- `term := factor ('*' factor)*` -/
  | term {ts us : List Tok} {a e : Expr} {m n : Nat} :
    Derives .factor ts a m → Derives (.moreFactors a) us e n → Derives .term (ts ++ us) e (max m n)
  | noFactor {a : Expr} : Derives (.moreFactors a) [] a 0
  | star {ts us : List Tok} {a b e : Expr} {m n : Nat} :
    Derives .factor ts b m → Derives (.moreFactors (.mul a b)) us e n →
      Derives (.moreFactors a) (.star :: ts ++ us) e (max m n)
  /-- `factor := '-' factor | primary` -/
  | neg {ts : List Tok} {a : Expr} {n : Nat} : Derives .factor ts a n → Derives .factor (.minus :: ts) (.neg a) (1 + n)
  | factor {ts : List Tok} {a : Expr} {n : Nat} : Derives .primary ts a n → Derives .factor ts a n
  /-- `primary := 'x' | number | '(' expr ')'` -/
  | x : Derives .primary [.x] .x 0
  | num (c : ℚ) : Derives .primary [.num c] (.const c) 0
  | paren {ts : List Tok} {a : Expr} {n : Nat} : Derives .expr ts a n → Derives .primary (.lparen :: ts ++ [.rparen]) a n

end Ccos.Rsi
