import Ccos.Rsi.Expr

/-!
# The parser and its grammar

The parser accepts what the grammar derives within the depth it allows, and reads back what is printed.
-/

namespace Ccos.Rsi

/-! ## What the grammar derives -/

namespace Nonterminal

/-- The loops derive nothing as well. -/
def isLoop : Nonterminal → Bool
  | .moreTerms _ | .moreFactors _ => true
  | _ => false

/-- No loop goes on with these tokens. -/
def Stops : Nonterminal → List Tok → Prop
  | .expr, rest | .moreTerms _, rest => rest.head? ≠ some .star ∧ rest.head? ≠ some .plus ∧ rest.head? ≠ some .minus
  | .term, rest | .moreFactors _, rest => rest.head? ≠ some .star
  | .factor, _ | .primary, _ => True

/-- The calls that lead to the next token. -/
def calls : Nonterminal → Nat
  | .expr => 4
  | .term => 3
  | .factor => 2
  | .primary | .moreTerms _ | .moreFactors _ => 1

/-- The parser of a nonterminal. -/
def parse : Nonterminal → Nat → ExprParser → Except ExprError (Expr × ExprParser)
  | .expr, fuel, p => ExprParser.parseExpr fuel p
  | .moreTerms lhs, fuel, p => ExprParser.exprLoop fuel lhs p
  | .term, fuel, p => ExprParser.parseTerm fuel p
  | .moreFactors lhs, fuel, p => ExprParser.termLoop fuel lhs p
  | .factor, fuel, p => ExprParser.parseFactor fuel p
  | .primary, fuel, p => ExprParser.parsePrimary fuel p

end Nonterminal

namespace Derives

theorem length_pos {k : Nonterminal} {ts : List Tok} {e : Expr} {n : Nat} (h : Derives k ts e n)
    (hk : k.isLoop = false) : 0 < ts.length := by
  induction h with
  | expr _ _ ih _ | term _ _ ih _ =>
    have := ih rfl
    rw [List.length_append]
    omega
  | factor _ ih => exact ih rfl
  | noTerm | plus | minus | noFactor | star => cases hk
  | neg | x | num | paren => simp

/-- After a term the loop stops, or goes on with a sign. -/
theorem stops_moreTerms {a : Expr} {us : List Tok} {e : Expr} {n : Nat} (h : Derives (.moreTerms a) us e n)
    {rest : List Tok} (hrest : Nonterminal.expr.Stops rest) : Nonterminal.term.Stops (us ++ rest) := by
  cases h with
  | noTerm => exact hrest.1
  | plus | minus => simp [Nonterminal.Stops]

theorem head_ne_minus {ts : List Tok} {e : Expr} {n : Nat} (h : Derives .primary ts e n) {rest rest' : List Tok} :
    ts ++ rest ≠ .minus :: rest' := by
  cases h with
  | x | num | paren => simp

/-- Where nothing can go on, tokens are derived in one way. -/
theorem unique {k : Nonterminal} {ts ts' rest rest' : List Tok} {e e' : Expr} {n n' : Nat} (h : Derives k ts e n)
    (h' : Derives k ts' e' n') (hsame : ts ++ rest = ts' ++ rest') (hrest : k.Stops rest) (hrest' : k.Stops rest') :
    ts = ts' ∧ e = e' ∧ n = n' := by
  induction h generalizing ts' rest rest' e' n' with
  | @expr ts us _ _ _ _ hterm hmore ihterm ihmore =>
    cases h' with
    | @expr ts' us' _ _ _ _ hterm' hmore' =>
      rw [List.append_assoc, List.append_assoc] at hsame
      obtain ⟨rfl, rfl, rfl⟩ := ihterm hterm' hsame (hmore.stops_moreTerms hrest) (hmore'.stops_moreTerms hrest')
      obtain ⟨rfl, rfl, rfl⟩ := ihmore hmore' (List.append_cancel_left hsame) hrest hrest'
      exact ⟨rfl, rfl, rfl⟩
  | noTerm =>
    cases h' with
    | noTerm => exact ⟨rfl, rfl, rfl⟩
    | plus => exact absurd (congrArg List.head? hsame) hrest.2.1
    | minus => exact absurd (congrArg List.head? hsame) hrest.2.2
  | @plus ts us _ _ _ _ _ hterm hmore ihterm ihmore =>
    cases h' with
    | noTerm => exact absurd (congrArg List.head? hsame.symm) hrest'.2.1
    | @plus ts' us' _ _ _ _ _ hterm' hmore' =>
      rw [List.append_assoc, List.append_assoc, List.cons_append, List.cons_append, List.cons_inj_right] at hsame
      obtain ⟨rfl, rfl, rfl⟩ := ihterm hterm' hsame (hmore.stops_moreTerms hrest) (hmore'.stops_moreTerms hrest')
      obtain ⟨rfl, rfl, rfl⟩ := ihmore hmore' (List.append_cancel_left hsame) hrest hrest'
      exact ⟨rfl, rfl, rfl⟩
    | minus => simp at hsame
  | @minus ts us _ _ _ _ _ hterm hmore ihterm ihmore =>
    cases h' with
    | noTerm => exact absurd (congrArg List.head? hsame.symm) hrest'.2.2
    | plus => simp at hsame
    | @minus ts' us' _ _ _ _ _ hterm' hmore' =>
      rw [List.append_assoc, List.append_assoc, List.cons_append, List.cons_append, List.cons_inj_right] at hsame
      obtain ⟨rfl, rfl, rfl⟩ := ihterm hterm' hsame (hmore.stops_moreTerms hrest) (hmore'.stops_moreTerms hrest')
      obtain ⟨rfl, rfl, rfl⟩ := ihmore hmore' (List.append_cancel_left hsame) hrest hrest'
      exact ⟨rfl, rfl, rfl⟩
  | @term ts us _ _ _ _ hfactor hmore ihfactor ihmore =>
    cases h' with
    | @term ts' us' _ _ _ _ hfactor' hmore' =>
      rw [List.append_assoc, List.append_assoc] at hsame
      obtain ⟨rfl, rfl, rfl⟩ := ihfactor hfactor' hsame trivial trivial
      obtain ⟨rfl, rfl, rfl⟩ := ihmore hmore' (List.append_cancel_left hsame) hrest hrest'
      exact ⟨rfl, rfl, rfl⟩
  | noFactor =>
    cases h' with
    | noFactor => exact ⟨rfl, rfl, rfl⟩
    | star => exact absurd (congrArg List.head? hsame) hrest
  | @star ts us _ _ _ _ _ hfactor hmore ihfactor ihmore =>
    cases h' with
    | noFactor => exact absurd (congrArg List.head? hsame.symm) hrest'
    | @star ts' us' _ _ _ _ _ hfactor' hmore' =>
      rw [List.append_assoc, List.append_assoc, List.cons_append, List.cons_append, List.cons_inj_right] at hsame
      obtain ⟨rfl, rfl, rfl⟩ := ihfactor hfactor' hsame trivial trivial
      obtain ⟨rfl, rfl, rfl⟩ := ihmore hmore' (List.append_cancel_left hsame) hrest hrest'
      exact ⟨rfl, rfl, rfl⟩
  | neg hfactor ih =>
    cases h' with
    | neg hfactor' =>
      rw [List.cons_append, List.cons_append, List.cons_inj_right] at hsame
      obtain ⟨rfl, rfl, rfl⟩ := ih hfactor' hsame trivial trivial
      exact ⟨rfl, rfl, rfl⟩
    | factor hprimary' => exact absurd hsame.symm hprimary'.head_ne_minus
  | factor hprimary ih =>
    cases h' with
    | neg => exact absurd hsame hprimary.head_ne_minus
    | factor hprimary' => exact ih hprimary' hsame trivial trivial
  | x =>
    cases h' with
    | x => exact ⟨rfl, rfl, rfl⟩
    | num | paren => simp at hsame
  | num c =>
    cases h' with
    | num c' =>
      obtain ⟨heq, -⟩ := List.cons.inj hsame
      obtain rfl := Tok.num.inj heq
      exact ⟨rfl, rfl, rfl⟩
    | x | paren => simp at hsame
  | @paren ts _ _ hexpr ih =>
    cases h' with
    | @paren ts' _ _ hexpr' =>
      simp only [List.append_assoc, List.cons_append, List.nil_append, List.cons_inj_right] at hsame
      have hstops : ∀ rest, Nonterminal.expr.Stops (.rparen :: rest) := fun rest => by simp [Nonterminal.Stops]
      obtain ⟨rfl, rfl, rfl⟩ := ih hexpr' hsame (hstops _) (hstops _)
      exact ⟨rfl, rfl, rfl⟩
    | x | num => simp at hsame

end Derives

/-! ## What it derives is parsed -/

theorem ExprParser.enter_ok {p : ExprParser} (h : p.depth + 1 ≤ maxExprDepth) :
    p.enter = .ok { p with depth := p.depth + 1 } := by
  unfold enter
  rw [if_neg (by omega)]

theorem ExprParser.enter_eq_ok {p p' : ExprParser} (h : p.enter = .ok p') :
    p' = { p with depth := p.depth + 1 } ∧ p.depth + 1 ≤ maxExprDepth := by
  unfold enter at h
  split at h
  · cases h
  · exact ⟨(Except.ok.inj h).symm, by omega⟩

/-- With the fuel it needs, the parser of a nonterminal reads what the nonterminal derives. -/
theorem Derives.parse {k : Nonterminal} {ts : List Tok} {e : Expr} {n : Nat} (h : Derives k ts e n) {fuel depth : Nat}
    {rest : List Tok} (hfuel : 4 * ts.length + k.calls ≤ fuel) (hrest : k.Stops rest)
    (hdepth : depth + n ≤ maxExprDepth) : k.parse fuel ⟨ts ++ rest, depth⟩ = .ok (e, ⟨rest, depth⟩) := by
  induction h generalizing fuel depth rest with
  | @expr ts us _ _ m n hterm hmore ihterm ihmore =>
    rw [List.length_append, Nonterminal.calls] at hfuel
    simp only [Nonterminal.calls] at ihterm ihmore
    obtain ⟨fuel, rfl⟩ : ∃ f, fuel = f + 1 := ⟨fuel - 1, by omega⟩
    have hfirst := @ihterm fuel (depth + 1) (us ++ rest) (by omega) (hmore.stops_moreTerms hrest) (by omega)
    have hloop := @ihmore fuel (depth + 1) rest (by omega) hrest (by omega)
    rw [Nonterminal.parse, ExprParser.parseExpr, ExprParser.enter_ok (by show depth + 1 ≤ _; omega), List.append_assoc]
    exact bind_eq_ok.mpr ⟨_, rfl, bind_eq_ok.mpr ⟨_, hfirst, bind_eq_ok.mpr ⟨_, hloop, rfl⟩⟩⟩
  | noTerm =>
    obtain ⟨fuel, rfl⟩ : ∃ f, fuel = f + 1 := ⟨fuel - 1, by simp only [Nonterminal.calls] at hfuel; omega⟩
    obtain ⟨-, hplus, hminus⟩ := hrest
    rw [Nonterminal.parse, ExprParser.exprLoop, List.nil_append]
    split
    · rename_i hhead
      exact absurd (congrArg List.head? hhead) hplus
    · rename_i hhead
      exact absurd (congrArg List.head? hhead) hminus
    · rfl
  | @plus ts us _ _ _ m n hterm hmore ihterm ihmore | @minus ts us _ _ _ m n hterm hmore ihterm ihmore =>
    rw [List.length_append, List.length_cons, Nonterminal.calls] at hfuel
    simp only [Nonterminal.calls] at ihterm ihmore
    obtain ⟨fuel, rfl⟩ : ∃ f, fuel = f + 1 := ⟨fuel - 1, by omega⟩
    have hfirst := @ihterm fuel depth (us ++ rest) (by omega) (hmore.stops_moreTerms hrest) (by omega)
    have hloop := @ihmore fuel depth rest (by omega) hrest (by omega)
    rw [Nonterminal.parse, ExprParser.exprLoop, List.append_assoc, List.cons_append]
    exact bind_eq_ok.mpr ⟨_, hfirst, hloop⟩
  | @term ts us _ _ m n hfactor hmore ihfactor ihmore =>
    rw [List.length_append, Nonterminal.calls] at hfuel
    simp only [Nonterminal.calls] at ihfactor ihmore
    obtain ⟨fuel, rfl⟩ : ∃ f, fuel = f + 1 := ⟨fuel - 1, by omega⟩
    have hfirst := @ihfactor fuel depth (us ++ rest) (by omega) trivial (by omega)
    have hloop := @ihmore fuel depth rest (by omega) hrest (by omega)
    rw [Nonterminal.parse, ExprParser.parseTerm, List.append_assoc]
    exact bind_eq_ok.mpr ⟨_, hfirst, hloop⟩
  | noFactor =>
    obtain ⟨fuel, rfl⟩ : ∃ f, fuel = f + 1 := ⟨fuel - 1, by simp only [Nonterminal.calls] at hfuel; omega⟩
    rw [Nonterminal.parse, ExprParser.termLoop, List.nil_append]
    split
    · rename_i hhead
      exact absurd (congrArg List.head? hhead) hrest
    · rfl
  | @star ts us _ _ _ m n hfactor hmore ihfactor ihmore =>
    rw [List.length_append, List.length_cons, Nonterminal.calls] at hfuel
    simp only [Nonterminal.calls] at ihfactor ihmore
    obtain ⟨fuel, rfl⟩ : ∃ f, fuel = f + 1 := ⟨fuel - 1, by omega⟩
    have hfirst := @ihfactor fuel depth (us ++ rest) (by omega) trivial (by omega)
    have hloop := @ihmore fuel depth rest (by omega) hrest (by omega)
    rw [Nonterminal.parse, ExprParser.termLoop, List.append_assoc, List.cons_append]
    exact bind_eq_ok.mpr ⟨_, hfirst, hloop⟩
  | @neg ts _ n hfactor ih =>
    rw [List.length_cons, Nonterminal.calls] at hfuel
    simp only [Nonterminal.calls] at ih
    obtain ⟨fuel, rfl⟩ : ∃ f, fuel = f + 1 := ⟨fuel - 1, by omega⟩
    have hinner := @ih fuel (depth + 1) rest (by omega) trivial (by omega)
    rw [Nonterminal.parse, ExprParser.parseFactor, List.cons_append]
    refine bind_eq_ok.mpr ⟨_, ExprParser.enter_ok (by show depth + 1 ≤ _; omega), ?_⟩
    exact bind_eq_ok.mpr ⟨_, hinner, rfl⟩
  | @factor ts _ n hprimary ih =>
    simp only [Nonterminal.calls] at hfuel ih
    obtain ⟨fuel, rfl⟩ : ∃ f, fuel = f + 1 := ⟨fuel - 1, by omega⟩
    rw [Nonterminal.parse, ExprParser.parseFactor]
    split
    · rename_i hhead
      exact absurd hhead hprimary.head_ne_minus
    · exact ih (by omega) trivial hdepth
  | x | num =>
    obtain ⟨fuel, rfl⟩ : ∃ f, fuel = f + 1 := ⟨fuel - 1, by simp only [Nonterminal.calls] at hfuel; omega⟩
    rfl
  | @paren ts _ n hexpr ih =>
    rw [List.length_append, List.length_cons, List.length_singleton, Nonterminal.calls] at hfuel
    simp only [Nonterminal.calls] at ih
    obtain ⟨fuel, rfl⟩ : ∃ f, fuel = f + 1 := ⟨fuel - 1, by omega⟩
    have hinner := @ih fuel depth (.rparen :: rest) (by omega) (by simp [Nonterminal.Stops]) hdepth
    rw [Nonterminal.parse, ExprParser.parsePrimary, List.append_assoc, List.cons_append, List.singleton_append]
    exact bind_eq_ok.mpr ⟨_, hinner, rfl⟩

/-! ## What is parsed is derived -/

/-- Between two states the tokens of the nonterminal are read, and the depth is back where it was. -/
def Reads (k : Nonterminal) (p : ExprParser) (e : Expr) (p' : ExprParser) : Prop :=
  ∃ ts n, p.rest = ts ++ p'.rest ∧ p'.depth = p.depth ∧ p.depth + n ≤ maxExprDepth ∧ Derives k ts e n

theorem Reads.depth {k : Nonterminal} {p p' : ExprParser} {e : Expr} (h : Reads k p e p') : p'.depth = p.depth := by
  obtain ⟨-, -, -, hdepth, -⟩ := h
  exact hdepth

/-- One part of a rule is read after the tokens `before`, and the other after it. -/
theorem Reads.append {k k' k'' : Nonterminal} {p p' p'' : ExprParser} {a e : Expr} (before : List Tok)
    {rest : List Tok} (hp : p.rest = before ++ rest) (h : Reads k { p with rest } a p') (h' : Reads k' p' e p'')
    (hrule : ∀ {ts us m n}, Derives k ts a m → Derives k' us e n → Derives k'' (before ++ ts ++ us) e (max m n)) :
    Reads k'' p e p'' := by
  obtain ⟨ts, m, hrest, hdepth, hmax, hts⟩ := h
  obtain ⟨us, n, hrest', hdepth', hmax', hus⟩ := h'
  dsimp only at hrest hdepth hmax
  refine ⟨before ++ ts ++ us, max m n, ?_, hdepth'.trans hdepth, ?_, hrule hts hus⟩
  · rw [hp, hrest, hrest', List.append_assoc, List.append_assoc]
  · rw [hdepth] at hmax'
    omega

/-- What the parser of a nonterminal reads, the nonterminal derives. -/
theorem reads_of_parse {fuel : Nat} {k : Nonterminal} {p p' : ExprParser} {e : Expr}
    (h : k.parse fuel p = .ok (e, p')) (hp : p.depth ≤ maxExprDepth) : Reads k p e p' := by
  induction fuel generalizing k p p' e with
  | zero => cases k <;> cases h
  | succ fuel ih =>
    cases k with
    | expr =>
      rw [Nonterminal.parse, ExprParser.parseExpr] at h
      obtain ⟨deeper, henter, h⟩ := bind_eq_ok.mp h
      obtain ⟨⟨a, q⟩, hterm, h⟩ := bind_eq_ok.mp h
      obtain ⟨⟨e', q'⟩, hloop, h⟩ := bind_eq_ok.mp h
      obtain ⟨rfl, rfl⟩ := Prod.mk.inj (Except.ok.inj h)
      obtain ⟨rfl, hroom⟩ := ExprParser.enter_eq_ok henter
      obtain ⟨ts, m, hrest, hdepth, hmax, hts⟩ := @ih .term _ q a hterm hroom
      obtain ⟨us, n, hrest', hdepth', hmax', hus⟩ := @ih (.moreTerms a) q q' e' hloop (by rw [hdepth]; exact hroom)
      dsimp only at hrest hdepth hmax
      refine ⟨ts ++ us, 1 + max m n, ?_, ?_, ?_, .expr hts hus⟩
      · rw [hrest, hrest', List.append_assoc]
        rfl
      · show q'.depth - 1 = p.depth
        omega
      · omega
    | moreTerms lhs =>
      rw [Nonterminal.parse, ExprParser.exprLoop] at h
      split at h
      · rename_i rest hhead
        obtain ⟨⟨b, q⟩, hterm, hloop⟩ := bind_eq_ok.mp h
        have hfirst := @ih .term _ q b hterm hp
        have hmore := @ih (.moreTerms (.add lhs b)) q p' e hloop (by rw [hfirst.depth]; exact hp)
        exact Reads.append [.plus] hhead hfirst hmore .plus
      · rename_i rest hhead
        obtain ⟨⟨b, q⟩, hterm, hloop⟩ := bind_eq_ok.mp h
        have hfirst := @ih .term _ q b hterm hp
        have hmore := @ih (.moreTerms (.sub lhs b)) q p' e hloop (by rw [hfirst.depth]; exact hp)
        exact Reads.append [.minus] hhead hfirst hmore .minus
      · obtain ⟨rfl, rfl⟩ := Prod.mk.inj (Except.ok.inj h)
        exact ⟨[], 0, rfl, rfl, hp, .noTerm⟩
    | term =>
      rw [Nonterminal.parse, ExprParser.parseTerm] at h
      obtain ⟨⟨a, q⟩, hfactor, hloop⟩ := bind_eq_ok.mp h
      have hfirst := @ih .factor p q a hfactor hp
      have hmore := @ih (.moreFactors a) q p' e hloop (by rw [hfirst.depth]; exact hp)
      exact Reads.append [] rfl hfirst hmore .term
    | moreFactors lhs =>
      rw [Nonterminal.parse, ExprParser.termLoop] at h
      split at h
      · rename_i rest hhead
        obtain ⟨⟨b, q⟩, hfactor, hloop⟩ := bind_eq_ok.mp h
        have hfirst := @ih .factor _ q b hfactor hp
        have hmore := @ih (.moreFactors (.mul lhs b)) q p' e hloop (by rw [hfirst.depth]; exact hp)
        exact Reads.append [.star] hhead hfirst hmore .star
      · obtain ⟨rfl, rfl⟩ := Prod.mk.inj (Except.ok.inj h)
        exact ⟨[], 0, rfl, rfl, hp, .noFactor⟩
    | factor =>
      rw [Nonterminal.parse, ExprParser.parseFactor] at h
      split at h
      · rename_i rest hhead
        obtain ⟨deeper, henter, h⟩ := bind_eq_ok.mp h
        obtain ⟨⟨a, q⟩, hinner, h⟩ := bind_eq_ok.mp h
        obtain ⟨rfl, rfl⟩ := Prod.mk.inj (Except.ok.inj h)
        obtain ⟨rfl, hroom⟩ := ExprParser.enter_eq_ok henter
        obtain ⟨ts, n, hrest, hdepth, hmax, hts⟩ := @ih .factor _ q a hinner hroom
        dsimp only at hrest hdepth hmax
        refine ⟨.minus :: ts, 1 + n, ?_, ?_, ?_, .neg hts⟩
        · rw [hhead, hrest]
          rfl
        · show q.depth - 1 = p.depth
          omega
        · omega
      · obtain ⟨ts, n, hrest, hdepth, hmax, hts⟩ := @ih .primary p p' e h hp
        exact ⟨ts, n, hrest, hdepth, hmax, .factor hts⟩
    | primary =>
      rw [Nonterminal.parse, ExprParser.parsePrimary] at h
      split at h
      · rename_i rest hhead
        obtain ⟨rfl, rfl⟩ := Prod.mk.inj (Except.ok.inj h)
        exact ⟨[.x], 0, hhead, rfl, hp, .x⟩
      · rename_i c rest hhead
        obtain ⟨rfl, rfl⟩ := Prod.mk.inj (Except.ok.inj h)
        exact ⟨[.num c], 0, hhead, rfl, hp, .num c⟩
      · rename_i rest hhead
        obtain ⟨⟨a, q⟩, hexpr, h⟩ := bind_eq_ok.mp h
        obtain ⟨ts, n, hrest, hdepth, hmax, hts⟩ := @ih .expr _ q a hexpr hp
        dsimp only at hrest h
        split at h
        · rename_i after hclose
          obtain ⟨rfl, rfl⟩ := Prod.mk.inj (Except.ok.inj h)
          refine ⟨.lparen :: ts ++ [.rparen], n, ?_, hdepth, hmax, .paren hts⟩
          rw [hhead, hrest, hclose, List.append_assoc, List.cons_append, List.singleton_append]
        · cases h
      all_goals cases h

/-! ## The fuel is enough -/

theorem Reads.length_le {k : Nonterminal} {p p' : ExprParser} {e : Expr} (h : Reads k p e p') :
    p'.rest.length ≤ p.rest.length := by
  obtain ⟨ts, n, hrest, -⟩ := h
  rw [hrest, List.length_append]
  omega

theorem bind_ne_error {E A B : Type} {x : Except E A} {f : A → Except E B} {err : E} (hx : x ≠ .error err)
    (hf : ∀ a, x = .ok a → f a ≠ .error err) : x >>= f ≠ .error err := by
  cases x with
  | error err' => exact fun h => hx (congrArg Except.error (Except.error.inj h))
  | ok a => exact hf a rfl

theorem ExprParser.enter_ne_outOfFuel (p : ExprParser) : p.enter ≠ .error .outOfFuel := by
  unfold enter
  split <;> simp

theorem parse_ne_outOfFuel {fuel : Nat} {k : Nonterminal} {p : ExprParser}
    (hfuel : 4 * p.rest.length + k.calls ≤ fuel) (hp : p.depth ≤ maxExprDepth) :
    k.parse fuel p ≠ .error .outOfFuel := by
  induction fuel generalizing k p with
  | zero => cases k <;> exact absurd hfuel (by simp [Nonterminal.calls])
  | succ fuel ih =>
    -- A part of a rule leaves no more tokens than it found, for what comes after it.
    have hpart : ∀ (k : Nonterminal) (q : ExprParser) (f : Expr × ExprParser → Except ExprError (Expr × ExprParser)),
        4 * q.rest.length + k.calls ≤ fuel → q.depth ≤ maxExprDepth →
        (∀ a q', q'.rest.length ≤ q.rest.length → q'.depth ≤ maxExprDepth → f (a, q') ≠ .error .outOfFuel) →
        k.parse fuel q >>= f ≠ .error .outOfFuel := by
      intro k q f hq hdepth hf
      refine bind_ne_error (ih hq hdepth) fun a ha => ?_
      have hread := @reads_of_parse fuel k q a.2 a.1 ha hdepth
      exact hf a.1 a.2 hread.length_le (hread.depth ▸ hdepth)
    cases k with
    | expr =>
      rw [Nonterminal.calls] at hfuel
      rw [Nonterminal.parse, ExprParser.parseExpr]
      refine bind_ne_error (ExprParser.enter_ne_outOfFuel p) fun q henter => ?_
      obtain ⟨rfl, hroom⟩ := ExprParser.enter_eq_ok henter
      refine hpart .term _ _ (by simp only [Nonterminal.calls]; omega) hroom fun a q hlen hq => ?_
      dsimp only at hlen
      refine hpart (.moreTerms a) q _ (by simp only [Nonterminal.calls]; omega) hq fun _ _ _ _ => ?_
      simp [pure, Except.pure]
    | moreTerms lhs =>
      rw [Nonterminal.calls] at hfuel
      rw [Nonterminal.parse, ExprParser.exprLoop]
      split
      · rename_i rest hhead
        rw [hhead, List.length_cons] at hfuel
        refine hpart .term _ _ (by simp only [Nonterminal.calls]; omega) hp fun b q hlen hq => ?_
        dsimp only at hlen
        exact @ih (.moreTerms (.add lhs b)) q (by simp only [Nonterminal.calls]; omega) hq
      · rename_i rest hhead
        rw [hhead, List.length_cons] at hfuel
        refine hpart .term _ _ (by simp only [Nonterminal.calls]; omega) hp fun b q hlen hq => ?_
        dsimp only at hlen
        exact @ih (.moreTerms (.sub lhs b)) q (by simp only [Nonterminal.calls]; omega) hq
      · simp
    | term =>
      rw [Nonterminal.calls] at hfuel
      rw [Nonterminal.parse, ExprParser.parseTerm]
      refine hpart .factor p _ (by simp only [Nonterminal.calls]; omega) hp fun a q hlen hq => ?_
      exact @ih (.moreFactors a) q (by simp only [Nonterminal.calls]; omega) hq
    | moreFactors lhs =>
      rw [Nonterminal.calls] at hfuel
      rw [Nonterminal.parse, ExprParser.termLoop]
      split
      · rename_i rest hhead
        rw [hhead, List.length_cons] at hfuel
        refine hpart .factor _ _ (by simp only [Nonterminal.calls]; omega) hp fun b q hlen hq => ?_
        dsimp only at hlen
        exact @ih (.moreFactors (.mul lhs b)) q (by simp only [Nonterminal.calls]; omega) hq
      · simp
    | factor =>
      rw [Nonterminal.calls] at hfuel
      rw [Nonterminal.parse, ExprParser.parseFactor]
      split
      · rename_i rest hhead
        rw [hhead, List.length_cons] at hfuel
        refine bind_ne_error (ExprParser.enter_ne_outOfFuel p) fun q henter => ?_
        obtain ⟨rfl, hroom⟩ := ExprParser.enter_eq_ok henter
        refine hpart .factor _ _ (by simp only [Nonterminal.calls]; omega) hroom fun _ _ _ _ => ?_
        simp [pure, Except.pure]
      · exact @ih .primary p (by simp only [Nonterminal.calls]; omega) hp
    | primary =>
      rw [Nonterminal.calls] at hfuel
      rw [Nonterminal.parse, ExprParser.parsePrimary]
      split
      case h_3 rest hhead =>
        rw [hhead, List.length_cons] at hfuel
        refine hpart .expr _ _ (by simp only [Nonterminal.calls]; omega) hp fun _ q _ _ => ?_
        dsimp only
        split <;> simp [pure, Except.pure]
      all_goals simp [ExprParser.primaryExpected]

/-! ## The parser of a text -/

/-- A text is parsed exactly when the grammar derives its tokens within the allowed depth. -/
theorem Expr.parse_eq_ok_iff {s : Str} {e : Expr} : Expr.parse s = .ok e ↔
    ∃ ts n, tokenize s = .ok ts ∧ Derives .expr ts e n ∧ n ≤ maxExprDepth := by
  unfold Expr.parse
  constructor
  · intro h
    obtain ⟨ts, htokens, h⟩ := bind_eq_ok.mp h
    split at h
    · cases h
    obtain ⟨⟨e', p⟩, hparse, h⟩ := bind_eq_ok.mp h
    dsimp only at h
    split at h
    · rename_i hend
      obtain rfl := Except.ok.inj h
      have hread := @reads_of_parse (4 * ts.length + 4) .expr ⟨ts, 0⟩ p e' hparse (Nat.zero_le _)
      obtain ⟨us, n, hrest, -, hmax, hus⟩ := hread
      dsimp only at hrest hmax
      rw [List.isEmpty_iff.mp hend, List.append_nil] at hrest
      exact ⟨ts, n, htokens, hrest ▸ hus, by omega⟩
    · cases h
  · rintro ⟨ts, n, htokens, hts, hmax⟩
    have hpos := hts.length_pos rfl
    have hne : ts.isEmpty = false := by
      cases ts with
      | nil => cases hpos
      | cons t ts => rfl
    have hparse := @Derives.parse _ _ _ _ hts (4 * ts.length + 4) 0 [] (by exact Nat.le_refl _)
      (by simp [Nonterminal.Stops]) (by omega)
    rw [List.append_nil] at hparse
    refine bind_eq_ok.mpr ⟨ts, htokens, ?_⟩
    rw [hne, if_neg Bool.false_ne_true]
    exact bind_eq_ok.mpr ⟨_, hparse, rfl⟩

theorem tokenize_ne_outOfFuel (s : Str) : tokenize s ≠ .error .outOfFuel := by
  fun_induction tokenize s
  all_goals first | assumption | exact bind_ne_error (by assumption) (fun _ _ => by simp [pure, Except.pure]) | simp

/-- A text that is not accepted is refused with a message. -/
theorem Expr.parse_ne_outOfFuel (s : Str) : Expr.parse s ≠ .error .outOfFuel := by
  unfold Expr.parse
  refine bind_ne_error (tokenize_ne_outOfFuel s) fun ts _ => ?_
  split
  · simp
  refine bind_ne_error ?_ fun a _ => ?_
  · exact @Rsi.parse_ne_outOfFuel (4 * ts.length + 4) .expr ⟨ts, 0⟩ (Nat.le_refl _) (Nat.zero_le _)
  · dsimp only
    split <;> simp [pure, Except.pure]

/-! ## What is printed -/

namespace Expr

/-- Every constant is a multiple of a thousandth. -/
def Thousandths : Expr → Prop
  | .x => True
  | .const c => ∃ m : ℤ, c = m / 1000
  | .add a b | .sub a b | .mul a b => a.Thousandths ∧ b.Thousandths
  | .neg a => a.Thousandths

/-- The tokens of the printed form. A negative constant has a sign of its own. -/
def tokens : Expr → List Tok
  | .x => [.x]
  | .const c => if c < 0 then [.minus, .num (-c)] else [.num c]
  | .add a b => .lparen :: (a.tokens ++ .plus :: b.tokens) ++ [.rparen]
  | .sub a b => .lparen :: (a.tokens ++ .minus :: b.tokens) ++ [.rparen]
  | .mul a b => .lparen :: (a.tokens ++ .star :: b.tokens) ++ [.rparen]
  | .neg a => .lparen :: (.minus :: a.tokens) ++ [.rparen]

/-- The expression that the printed form stands for. -/
def reread : Expr → Expr
  | .x => .x
  | .const c => if c < 0 then .neg (.const (-c)) else .const c
  | .add a b => .add a.reread b.reread
  | .sub a b => .sub a.reread b.reread
  | .mul a b => .mul a.reread b.reread
  | .neg a => .neg a.reread

/-- How deep a factor of the printed form nests. -/
def printedDepth : Expr → Nat
  | .x => 0
  | .const c => if c < 0 then 1 else 0
  | .add a b | .sub a b | .mul a b => 1 + max a.printedDepth b.printedDepth
  | .neg a => 1 + (1 + a.printedDepth)

theorem eval_reread (e : Expr) (v : ℚ) : e.reread.eval v = e.eval v := by
  induction e with
  | x => rfl
  | const c =>
    rw [reread]
    split
    · exact neg_neg c
    · rfl
  | add a b iha ihb | sub a b iha ihb | mul a b iha ihb => rw [reread, eval, iha, ihb, eval]
  | neg a ih => rw [reread, eval, ih, eval]

/-- One factor is an expression, one deeper. -/
theorem derives_of_factor {ts : List Tok} {e : Expr} {n : Nat} (h : Derives .factor ts e n) :
    Derives .expr ts e (1 + n) := by
  have hexpr := Derives.expr (Derives.term h .noFactor) .noTerm
  simpa using hexpr

theorem derives_tokens (e : Expr) : Derives .factor e.tokens e.reread e.printedDepth := by
  induction e with
  | x => exact .factor .x
  | const c =>
    rw [tokens, reread, printedDepth]
    split
    · exact .neg (.factor (.num _))
    · exact .factor (.num c)
  | add a b iha ihb =>
    have hright := Derives.plus (a := a.reread) (Derives.term ihb .noFactor) .noTerm
    have hsum := Derives.factor (.paren (.expr (.term iha .noFactor) hright))
    simpa [tokens, reread, printedDepth] using hsum
  | sub a b iha ihb =>
    have hright := Derives.minus (a := a.reread) (Derives.term ihb .noFactor) .noTerm
    have hdiff := Derives.factor (.paren (.expr (.term iha .noFactor) hright))
    simpa [tokens, reread, printedDepth] using hdiff
  | mul a b iha ihb =>
    have hright := Derives.star (a := a.reread) ihb .noFactor
    have hprod := Derives.factor (.paren (.expr (.term iha hright) .noTerm))
    simpa [tokens, reread, printedDepth] using hprod
  | neg a ih => exact .factor (.paren (derives_of_factor (.neg ih)))

end Expr

/-! ## What is printed is tokenized -/

/-- A number ends here. -/
def NoNumber (rest : Str) : Prop := ∀ c ∈ rest.head?, isNumeric c = false

theorem tokenize_num {lit rest : Str} {n : ℚ} (hne : lit ≠ []) (hlit : ∀ c ∈ lit, isNumeric c = true)
    (hn : parseF64 lit = some n) (hrest : NoNumber rest) {ts : List Tok} (h : tokenize rest = .ok ts) :
    tokenize (lit ++ rest) = .ok (.num n :: ts) := by
  obtain ⟨c, cs, rfl⟩ := List.exists_cons_of_ne_nil hne
  have hstop : rest.takeWhile isNumeric = [] ∧ rest.dropWhile isNumeric = rest := by
    cases rest with
    | nil => exact ⟨rfl, rfl⟩
    | cons d rest =>
      have hd : isNumeric d = false := hrest d rfl
      simp [hd]
  obtain ⟨hc, hcs⟩ := List.forall_mem_cons.mp hlit
  have hlit' : c :: (cs ++ rest).takeWhile isNumeric = c :: cs := by
    rw [List.takeWhile_append_of_pos hcs, hstop.1, List.append_nil]
  have hafter : (cs ++ rest).dropWhile isNumeric = rest := by rw [List.dropWhile_append_of_pos hcs, hstop.2]
  rw [List.cons_append]
  unfold tokenize
  split
  all_goals first | exact absurd hc (by decide) | skip
  rw [if_pos hc, hlit']
  dsimp only
  rw [hn, hafter, h]
  rfl

theorem tokenize_blank (s : Str) : tokenize (' ' :: s) = tokenize s := by rw [tokenize]

/-- The signs and their tokens. -/
def marks : List (Char × Tok) := [('(', .lparen), (')', .rparen), ('+', .plus), ('-', .minus), ('*', .star), ('x', .x)]

theorem tokenize_mark {c : Char} {t : Tok} (hc : (c, t) ∈ marks) {s : Str} {ts : List Tok} (h : tokenize s = .ok ts) :
    tokenize (c :: s) = .ok (t :: ts) := by
  simp only [marks, List.mem_cons, List.not_mem_nil, or_false, Prod.mk.injEq] at hc
  rcases hc with ⟨rfl, rfl⟩ | ⟨rfl, rfl⟩ | ⟨rfl, rfl⟩ | ⟨rfl, rfl⟩ | ⟨rfl, rfl⟩ | ⟨rfl, rfl⟩
  all_goals
    rw [tokenize, h]
    rfl

theorem noNumber_cons {c : Char} (h : isNumeric c = false) (s : Str) : NoNumber (c :: s) := by
  intro d hd
  obtain rfl := Option.some.inj hd
  exact h

/-! ## Constants -/

theorem roundHalfEven_natCast (n : Nat) : roundHalfEven n = n := by
  simp [roundHalfEven]

theorem isAsciiDigit_digitChar {i : Nat} (hi : i < 10) : isAsciiDigit i.digitChar = true := by
  interval_cases i <;> rfl

theorem isNumeric_of_digit {c : Char} (h : isAsciiDigit c = true) : isNumeric c = true := by
  rw [isNumeric, h, Bool.true_or]

theorem ne_point_of_digit {c : Char} (h : isAsciiDigit c = true) : c ≠ '.' := by
  rintro rfl
  exact absurd h (by decide)

theorem parseF64_decimals (whole : Nat) {i j k : Nat} (hi : i < 10) (hj : j < 10) (hk : k < 10) :
    parseF64 (natStr whole ++ ['.', i.digitChar, j.digitChar, k.digitChar]) =
      some ((whole : ℚ) + ((100 * i + 10 * j + k : Nat) : ℚ) / 1000) := by
  have hpoint : ∀ c ∈ natStr whole, decide (c ≠ '.') = true := fun c hc =>
    decide_eq_true (ne_point_of_digit (isAsciiDigit_of_mem_natStr hc))
  have hdigits : '.' ∉ [i.digitChar, j.digitChar, k.digitChar] := by
    intro hmem
    simp only [List.mem_cons, List.not_mem_nil, or_false] at hmem
    rcases hmem with h | h | h
    · exact ne_point_of_digit (isAsciiDigit_digitChar hi) h.symm
    · exact ne_point_of_digit (isAsciiDigit_digitChar hj) h.symm
    · exact ne_point_of_digit (isAsciiDigit_digitChar hk) h.symm
  have hfraction : Nat.ofDigitChars 10 [i.digitChar, j.digitChar, k.digitChar] 0 = 100 * i + 10 * j + k := by
    rw [Nat.ofDigitChars_cons_digitChar_of_lt_ten hi, Nat.ofDigitChars_cons_digitChar_of_lt_ten hj,
      Nat.ofDigitChars_cons_digitChar_of_lt_ten hk, Nat.ofDigitChars_nil]
    omega
  unfold parseF64
  rw [List.takeWhile_append_of_pos hpoint, List.dropWhile_append_of_pos hpoint, List.takeWhile_cons_of_neg (by simp),
    List.dropWhile_cons_of_neg (by simp), List.append_nil, List.drop_one, List.tail_cons]
  dsimp only
  rw [if_neg (by simp [hdigits]), ofDigitChars_natStr, hfraction]
  norm_num

/-- The digits of a multiple of a thousandth are read back as its absolute value. -/
theorem parseF64_fixed3 (m : Nat) :
    parseF64 (natStr (m / 1000) ++ ['.', (m / 100 % 10).digitChar, (m / 10 % 10).digitChar, (m % 10).digitChar]) =
      some ((m : ℚ) / 1000) := by
  have hten : ∀ n, n % 10 < 10 := fun n => Nat.mod_lt n (by decide)
  rw [parseF64_decimals _ (hten _) (hten _) (hten _), Option.some.injEq]
  have hsplit : m = 1000 * (m / 1000) + (100 * (m / 100 % 10) + 10 * (m / 10 % 10) + m % 10) := by omega
  generalize m / 1000 = whole at hsplit ⊢
  generalize 100 * (m / 100 % 10) + 10 * (m / 10 % 10) + m % 10 = fraction at hsplit ⊢
  rw [hsplit]
  push_cast
  ring

theorem tokenize_fixed3 {c : ℚ} (hc : ∃ m : ℤ, c = m / 1000) {rest : Str} (hrest : NoNumber rest) {ts : List Tok}
    (h : tokenize rest = .ok ts) : tokenize (fixed3 c ++ rest) = .ok ((Expr.const c).tokens ++ ts) := by
  obtain ⟨m, hm⟩ := hc
  have habs : |c| = (m.natAbs : ℚ) / 1000 := by
    rw [hm, abs_div, Nat.abs_ofNat, Nat.cast_natAbs, Int.cast_abs]
  have hround : roundHalfEven (|c| * 1000) = m.natAbs := by
    rw [habs, div_mul_cancel₀ _ (by norm_num), roundHalfEven_natCast]
  generalize hlit : natStr (m.natAbs / 1000) ++
    ['.', (m.natAbs / 100 % 10).digitChar, (m.natAbs / 10 % 10).digitChar, (m.natAbs % 10).digitChar] = lit
  have hparse : parseF64 lit = some |c| := by rw [← hlit, parseF64_fixed3, habs]
  have hnumeric : ∀ d ∈ lit, isNumeric d = true := by
    have hten : ∀ n, isNumeric (n % 10).digitChar = true := fun n =>
      isNumeric_of_digit (isAsciiDigit_digitChar (Nat.mod_lt n (by decide)))
    rw [← hlit]
    simp only [List.forall_mem_append, List.forall_mem_cons, hten]
    refine ⟨fun d hd => isNumeric_of_digit (isAsciiDigit_of_mem_natStr hd), rfl, trivial, trivial, trivial, ?_⟩
    exact fun d hd => absurd hd List.not_mem_nil
  have hne : lit ≠ [] := by
    rw [← hlit]
    simp
  have hnum := tokenize_num hne hnumeric hparse hrest h
  have hfixed : fixed3 c = (if c < 0 then ['-'] else []) ++ lit := by
    unfold fixed3
    rw [hround, ← hlit, List.append_assoc]
  rw [hfixed, Expr.tokens]
  by_cases hneg : c < 0
  · rw [if_pos hneg, if_pos hneg]
    rw [abs_of_neg hneg] at hnum
    exact tokenize_mark (by decide) hnum
  · rw [if_neg hneg, if_neg hneg]
    rw [abs_of_nonneg (not_lt.mp hneg)] at hnum
    exact hnum

theorem tokenize_binary (op : Char) {t : Tok} (hop : (op, t) ∈ marks) {a b : Str} {us vs : List Tok} {rest : Str}
    {ts : List Tok} (h : tokenize rest = .ok ts)
    (ha : ∀ rest ts, NoNumber rest → tokenize rest = .ok ts → tokenize (a ++ rest) = .ok (us ++ ts))
    (hb : ∀ rest ts, NoNumber rest → tokenize rest = .ok ts → tokenize (b ++ rest) = .ok (vs ++ ts)) :
    tokenize ('(' :: a ++ [' ', op, ' '] ++ b ++ [')'] ++ rest) =
      .ok (.lparen :: (us ++ t :: vs) ++ [.rparen] ++ ts) := by
  have hclose := tokenize_mark (c := ')') (t := .rparen) (by decide) h
  have hright := hb _ _ (noNumber_cons (by decide) _) hclose
  have hmiddle : tokenize (' ' :: op :: ' ' :: (b ++ ')' :: rest)) = .ok (t :: (vs ++ .rparen :: ts)) := by
    rw [tokenize_blank]
    refine tokenize_mark hop ?_
    rw [tokenize_blank, hright]
  have hleft := ha _ _ (noNumber_cons (by decide) _) hmiddle
  simpa using tokenize_mark (c := '(') (t := .lparen) (by decide) hleft

theorem tokenize_pretty {e : Expr} (he : e.Thousandths) (rest : Str) (ts : List Tok) (hrest : NoNumber rest)
    (h : tokenize rest = .ok ts) : tokenize (e.pretty ++ rest) = .ok (e.tokens ++ ts) := by
  induction e generalizing rest ts with
  | x => exact tokenize_mark (c := 'x') (by decide) h
  | const c => exact tokenize_fixed3 he hrest h
  | add a b iha ihb => exact tokenize_binary '+' (by decide) h (iha he.1) (ihb he.2)
  | sub a b iha ihb => exact tokenize_binary '-' (by decide) h (iha he.1) (ihb he.2)
  | mul a b iha ihb => exact tokenize_binary '*' (by decide) h (iha he.1) (ihb he.2)
  | neg a ih =>
    have hclose := tokenize_mark (c := ')') (t := .rparen) (by decide) h
    have hinner := ih he _ _ (noNumber_cons (by decide) _) hclose
    have hminus := tokenize_mark (c := '-') (t := .minus) (by decide) hinner
    simpa [Expr.pretty, Expr.tokens] using tokenize_mark (c := '(') (t := .lparen) (by decide) hminus

/-! ## The round trip -/

theorem derives_pretty {e : Expr} (he : e.Thousandths) :
    tokenize e.pretty = .ok e.tokens ∧ Derives .expr e.tokens e.reread (1 + e.printedDepth) := by
  have htokens := tokenize_pretty he [] [] (by intro c hc; cases hc) (by rw [tokenize])
  rw [List.append_nil, List.append_nil] at htokens
  exact ⟨htokens, Expr.derives_of_factor e.derives_tokens⟩

example : tokenize ['#'] ≠ .ok [] := by decide +kernel

/-- What is printed is read back with the same values exactly when it stays within the depth, and a text is read
exactly when the grammar derives its tokens within the depth. -/
theorem expr_round_trip :
    (∀ e : Expr, e.Thousandths →
      ((∃ e', Expr.parse e.pretty = .ok e' ∧ ∀ v, e'.eval v = e.eval v) ↔ 1 + e.printedDepth ≤ maxExprDepth)) ∧
    ∀ (s : Str) (e : Expr), Expr.parse s = .ok e ↔
      ∃ ts n, tokenize s = .ok ts ∧ Derives .expr ts e n ∧ n ≤ maxExprDepth := by
  refine ⟨fun e he => ?_, fun s e => Expr.parse_eq_ok_iff⟩
  obtain ⟨htokens, hderives⟩ := derives_pretty he
  constructor
  · rintro ⟨e', hparse, -⟩
    obtain ⟨ts, n, hts, hderives', hn⟩ := Expr.parse_eq_ok_iff.mp hparse
    obtain rfl := Except.ok.inj (htokens.symm.trans hts)
    have hend : Nonterminal.expr.Stops [] := by simp [Nonterminal.Stops]
    obtain ⟨-, -, hsame⟩ := hderives.unique hderives' rfl hend hend
    rwa [hsame]
  · intro hdepth
    exact ⟨e.reread, Expr.parse_eq_ok_iff.mpr ⟨e.tokens, _, htokens, hderives, hdepth⟩, e.eval_reread⟩

theorem negative_constant_round_trip : ∃ e', Expr.parse "(x - -0.500)".toList = .ok e' ∧
    ∀ v, e'.eval v = (Expr.sub .x (.const (-1 / 2))).eval v := by
  have hpretty : (Expr.sub .x (.const (-1 / 2))).pretty = "(x - -0.500)".toList := by decide +kernel
  rw [← hpretty]
  exact (expr_round_trip.1 (.sub .x (.const (-1 / 2))) ⟨trivial, -500, by norm_num⟩).mpr (by decide +kernel)

end Ccos.Rsi
