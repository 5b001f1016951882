import Ccos.Scalar

/-!
# Embedded weights

A mutation reads a text character by character and rewrites the numbers between brackets. It keeps a run of
characters until a delimiter comes, and an opening bracket does not count as one.
-/

namespace Ccos

variable {R F : Type} [Float64 F]

/-- `(0.0..=1.0).contains(&p)`, the rates that `gen_bool` takes. -/
def isRate (p : F) : Bool := Scalar.ge p (Scalar.lit 0) && Scalar.ge (Scalar.lit 1) p

/-- `f64` as a text, and the generator. A text that parses has no blank, bracket or comma in it. -/
structure WeightTools (R F : Type) [Float64 F] where
  parse : Str → Option F
  /-- `format!("{:.4}", value)` -/
  fixed4 : F → Str
  /-- `none` is a panic. -/
  genBool : R → F → Option (Bool × R)
  genRange : R → F → F → F × R
  parse_clean : ∀ s, (parse s).isSome = true →
    s ≠ [] ∧ ∀ c ∈ s, isWhitespace c = false ∧ c ≠ ',' ∧ c ≠ '[' ∧ c ≠ ']'
  parse_fixed4 : ∀ v, (parse (fixed4 v)).isSome = true
  genBool_isSome : ∀ r p, (genBool r p).isSome = isRate p
  genBool_zero : ∀ r p hit r', Scalar.eq p (Scalar.lit 0) = true → genBool r p = some (hit, r') → hit = false

namespace MicroMutator

/-! ## The scanner -/

structure Scan (R : Type) where
  result : Str
  inBracket : Bool
  currentNum : Str
  rng : R

variable (t : WeightTools R F) (rate : F)

/-- `tweak_token` with the generator after it. -/
def tweakToken (token : Str) (rng : R) : Option (Str × R) :=
  match t.parse (trim token) with
  | none => some (token, rng)
  | some value => do
    let (hit, rng) ← t.genBool rng rate
    if hit then
      let (noise, rng) := t.genRange rng (Scalar.lit (-1)) (Scalar.lit 1)
      let delta := noise * Scalar.lit (1 / 10) * value
      if Scalar.eq delta (Scalar.lit 0) then
        let (nudge, rng) := t.genRange rng (Scalar.lit (-1 / 100)) (Scalar.lit (1 / 100))
        some (t.fixed4 (value + nudge), rng)
      else some (t.fixed4 (value + delta), rng)
    else some (t.fixed4 value, rng)

def flush (s : Scan R) : Option (Scan R) :=
  if s.currentNum = [] then some s
  else do
    let (text, rng) ← tweakToken t rate s.currentNum s.rng
    some { s with result := s.result ++ text, currentNum := [], rng := rng }

def scan (s : Scan R) (c : Char) : Option (Scan R) :=
  if c = '[' then some { s with inBracket := true, result := s.result ++ [c] }
  else if c = ']' then do
    let s ← flush t rate s
    some { s with inBracket := false, result := s.result ++ [c] }
  else if s.inBracket then
    if c = ',' ∨ c = ' ' then do
      let s ← flush t rate s
      some { s with result := s.result ++ [c] }
    else some { s with currentNum := s.currentNum ++ [c] }
  else some { s with result := s.result ++ [c] }

/-- The mutated text with the generator after it; `none` is a panic. What is pending at the end is not in it. -/
def mutateEmbeddedWeights (source : Str) (rng : R) : Option (Str × R) :=
  (source.foldlM (scan t rate) ⟨[], false, [], rng⟩).map fun s => (s.result, s.rng)

/-! ## What a mutation may touch -/

def isDelimiter (c : Char) : Bool := c = ',' || c = ' ' || c = '[' || c = ']'

/-- A character outside the brackets or between the runs, or a run within brackets. -/
inductive Piece
  | plain (c : Char)
  | run (r : Str)

def flushRun (r : Str) : List Piece := if r = [] then [] else [.run r]

/-- The pieces of a text after a pending run. -/
def piecesFrom : Bool → Str → Str → List Piece
  | _, r, [] => flushRun r
  | inside, r, c :: cs =>
    if inside && !isDelimiter c then piecesFrom true (r ++ [c]) cs
    else flushRun r ++ .plain c :: piecesFrom (c = '[' || c ≠ ']' && inside) [] cs

def pieces (source : Str) : List Piece := piecesFrom false [] source

variable {t}

/-- A run that is a number between blanks may become another number between the same blanks. -/
def RunRewritten (t : WeightTools R F) (r out : Str) : Prop :=
  if (t.parse (trim r)).isSome then
    ∃ lead u trail, r = lead ++ trim r ++ trail ∧ (∀ c ∈ lead ++ trail, isWhitespace c = true) ∧
      out = lead ++ u ++ trail ∧ (t.parse u).isSome = true
  else out = r

/-- Every character outside the numbers is there, in order. -/
inductive Rewrites (t : WeightTools R F) : List Piece → Str → Prop
  | nil : Rewrites t [] []
  | plain {c : Char} {ps : List Piece} {out : Str} : Rewrites t ps out → Rewrites t (.plain c :: ps) (c :: out)
  | run {r w : Str} {ps : List Piece} {out : Str} :
    RunRewritten t r w → Rewrites t ps out → Rewrites t (.run r :: ps) (w ++ out)

/-! ## What it needs -/

/-- Every run ends at a delimiter, which is no opening bracket. -/
def closed : List Piece → Bool
  | [] => true
  | .plain _ :: ps => closed ps
  | .run _ :: .plain c :: ps => c ≠ '[' && closed ps
  | .run _ :: _ => false

/-- No number has blanks around it. -/
def Trimmed (t : WeightTools R F) (ps : List Piece) : Prop :=
  ∀ r, .run r ∈ ps → (t.parse (trim r)).isSome = true → trim r = r

/-- Every number is written with four decimals. -/
def Reprinted (t : WeightTools R F) (ps : List Piece) : Prop :=
  ∀ r, .run r ∈ ps → ∀ v, t.parse (trim r) = some v → t.fixed4 v = r

def NoNumbers (t : WeightTools R F) (ps : List Piece) : Prop := ∀ r, .run r ∈ ps → t.parse (trim r) = none

/-! ## Runs -/

def Clean (s : Str) : Prop := ∀ c ∈ s, isDelimiter c = false

theorem clean_of_parse {s : Str} (h : (t.parse s).isSome = true) : Clean s := by
  intro c hc
  obtain ⟨hblank, hcomma, hopen, hclose⟩ := (t.parse_clean s h).2 c hc
  have hspace : c ≠ ' ' := by
    rintro rfl
    exact absurd hblank (by decide)
  simp [isDelimiter, hcomma, hspace, hopen, hclose]

theorem not_mem_of_clean {s : Str} {c : Char} (h : Clean s) (hc : isDelimiter c = true) : c ∉ s := fun hmem => by
  rw [h c hmem] at hc
  cases hc

theorem tweakToken_eq {rate : F} {r w : Str} {rng rng' : R} (h : tweakToken t rate r rng = some (w, rng')) :
    t.parse (trim r) = none ∧ w = r ∨
      ∃ v v', t.parse (trim r) = some v ∧ w = t.fixed4 v' ∧ (Scalar.eq rate (Scalar.lit 0) = true → v' = v) := by
  unfold tweakToken at h
  cases hparse : t.parse (trim r) with
  | none =>
    rw [hparse] at h
    cases h
    exact .inl ⟨rfl, rfl⟩
  | some v =>
    rw [hparse] at h
    obtain ⟨⟨hit, rng₁⟩, hbool, h⟩ := Option.bind_eq_some_iff.mp h
    refine .inr ⟨v, ?_⟩
    have hzero : Scalar.eq rate (Scalar.lit 0) = true → hit = false := fun hrate =>
      t.genBool_zero _ _ _ _ hrate hbool
    cases hit with
    | false =>
      cases h
      exact ⟨v, rfl, rfl, fun _ => rfl⟩
    | true =>
      dsimp only at h
      rw [if_pos rfl] at h
      split at h
      · cases h
        exact ⟨_, rfl, rfl, fun hrate => absurd (hzero hrate) (by decide)⟩
      · cases h
        exact ⟨_, rfl, rfl, fun hrate => absurd (hzero hrate) (by decide)⟩

theorem isSome_tweakToken (rate : F) (r : Str) (rng : R) :
    (tweakToken t rate r rng).isSome = true ↔ (t.parse (trim r) = none ∨ isRate rate = true) := by
  unfold tweakToken
  cases t.parse (trim r) with
  | none => simp
  | some v =>
    have hrate := t.genBool_isSome rng rate
    cases hbool : t.genBool rng rate with
    | none =>
      rw [hbool] at hrate
      simp [← hrate]
    | some p =>
      rw [hbool] at hrate
      obtain ⟨hit, rng⟩ := p
      refine iff_of_true ?_ (.inr hrate.symm)
      dsimp only
      rw [Option.bind_eq_bind, Option.bind_some]
      split
      · split <;> rfl
      · rfl

/-- What a run becomes has no delimiter, and is there if the run is. -/
theorem RunRewritten.clean {r w : Str} (h : RunRewritten t r w) (hr : Clean r) : Clean w ∧ (r ≠ [] → w ≠ []) := by
  unfold RunRewritten at h
  split at h
  · obtain ⟨lead, u, trail, hsplit, -, rfl, hu⟩ := h
    have hlead : Clean lead := fun c hc => hr c (by rw [hsplit]; simp [hc])
    have htrail : Clean trail := fun c hc => hr c (by rw [hsplit]; simp [hc])
    refine ⟨fun c hc => ?_, fun _ hnil => (t.parse_clean u hu).1 ?_⟩
    · rcases List.mem_append.mp hc with hc | hc
      · rcases List.mem_append.mp hc with hc | hc
        · exact hlead c hc
        · exact clean_of_parse hu c hc
      · exact htrail c hc
    · rw [List.append_eq_nil_iff, List.append_eq_nil_iff] at hnil
      exact hnil.1.2
  · subst h
    exact ⟨hr, id⟩

theorem clean_tweakToken {rate : F} {r w : Str} {rng rng' : R} (h : tweakToken t rate r rng = some (w, rng'))
    (hr : Clean r) : Clean w := by
  rcases tweakToken_eq h with ⟨-, rfl⟩ | ⟨v, v', -, rfl, -⟩
  · exact hr
  · exact clean_of_parse (t.parse_fixed4 v')

/-- A number is rewritten as it should be unless it has blanks around it. -/
theorem runRewritten_tweakToken {rate : F} {r w : Str} {rng rng' : R}
    (h : tweakToken t rate r rng = some (w, rng')) :
    RunRewritten t r w ↔ ((t.parse (trim r)).isSome = true → trim r = r) := by
  unfold RunRewritten
  rcases tweakToken_eq h with ⟨hparse, rfl⟩ | ⟨v, v', hparse, rfl, -⟩
  · simp [hparse]
  · rw [hparse, if_pos Option.isSome_some]
    constructor
    · rintro ⟨lead, u, trail, hsplit, hblank, hout, -⟩ -
      -- The new text has no blank, so there was none.
      have hnil : lead ++ trail = [] := by
        refine List.eq_nil_iff_forall_not_mem.mpr fun c hc => ?_
        have hmem : c ∈ t.fixed4 v' := by
          rw [hout]
          rcases List.mem_append.mp hc with hc | hc <;> simp [hc]
        have hnot := ((t.parse_clean _ (t.parse_fixed4 v')).2 c hmem).1
        rw [hblank c hc] at hnot
        cases hnot
      obtain ⟨rfl, rfl⟩ := List.append_eq_nil_iff.mp hnil
      simpa using hsplit.symm
    · intro htrim
      exact ⟨[], t.fixed4 v', [], by simp [htrim rfl], nofun, by simp, t.parse_fixed4 v'⟩

/-! ## Whole texts -/

variable {rate : F}

/-- The pieces, which are the text `raw`, become `tail` as they should exactly when nothing is left open and no number
has blanks around it; at rate zero nothing changes exactly when, moreover, every number has four decimals. -/
structure Faithful (t : WeightTools R F) (rate : F) (ps : List Piece) (raw tail : Str) : Prop where
  rewrites : Rewrites t ps tail ↔ closed ps = true ∧ Trimmed t ps
  unchanged : Scalar.eq rate (Scalar.lit 0) = true → closed ps = true → Trimmed t ps → (tail = raw ↔ Reprinted t ps)

/-- What a pending run is flushed to. -/
def Flushed (t : WeightTools R F) (rate : F) (r w : Str) : Prop :=
  if r = [] then w = [] else ∃ rng rng', tweakToken t rate r rng = some (w, rng')

theorem flush_eq {s s' : Scan R} (h : flush t rate s = some s') :
    ∃ w rng', Flushed t rate s.currentNum w ∧
      s' = { s with result := s.result ++ w, currentNum := [], rng := rng' } := by
  unfold flush at h
  unfold Flushed
  split at h
  · rename_i hnil
    cases h
    refine ⟨[], s.rng, by rw [if_pos hnil], ?_⟩
    rw [List.append_nil, ← hnil]
  · rename_i hsome
    obtain ⟨⟨w, rng'⟩, htweak, h⟩ := Option.bind_eq_some_iff.mp h
    cases h
    exact ⟨w, rng', by rw [if_neg hsome]; exact ⟨_, _, htweak⟩, rfl⟩

theorem rewrites_plain_iff {c : Char} {ps : List Piece} {out : Str} :
    Rewrites t (.plain c :: ps) (c :: out) ↔ Rewrites t ps out := by
  constructor
  · intro h
    cases h with
    | plain h => exact h
  · exact .plain

/-- A run and the delimiter after it are rewritten one by one. -/
theorem rewrites_run_iff {r w out : Str} {c : Char} {ps : List Piece} (hr : Clean r) (hw : Clean w)
    (hc : isDelimiter c = true) :
    Rewrites t (.run r :: .plain c :: ps) (w ++ c :: out) ↔ RunRewritten t r w ∧ Rewrites t ps out := by
  constructor
  · intro h
    generalize hall : w ++ c :: out = all at h
    cases h with
    | run hrun hrest =>
      cases hrest with
      | plain hps =>
        obtain ⟨rfl, rfl⟩ := append_sep_inj (not_mem_of_clean hw hc) (not_mem_of_clean (hrun.clean hr).1 hc) hall
        exact ⟨hrun, hps⟩
  · rintro ⟨hrun, hps⟩
    exact .run hrun (.plain hps)

theorem Faithful.plain {c : Char} {ps : List Piece} {raw tail : Str} (h : Faithful t rate ps raw tail) :
    Faithful t rate (.plain c :: ps) (c :: raw) (c :: tail) := by
  have htrimmed : Trimmed t (.plain c :: ps) ↔ Trimmed t ps := by simp [Trimmed]
  have hreprinted : Reprinted t (.plain c :: ps) ↔ Reprinted t ps := by simp [Reprinted]
  refine ⟨?_, fun hzero hclosed htrim => ?_⟩
  · rw [rewrites_plain_iff, h.rewrites, htrimmed, closed]
  · rw [hreprinted, ← h.unchanged hzero hclosed (htrimmed.mp htrim), List.cons.injEq]
    exact and_iff_right rfl

theorem Faithful.run {r w : Str} {rng rng' : R} {c : Char} {ps : List Piece} {raw tail : Str}
    (h : Faithful t rate ps raw tail) (hr : Clean r) (hc : isDelimiter c = true) (hopen : c ≠ '[')
    (htweak : tweakToken t rate r rng = some (w, rng')) :
    Faithful t rate (.run r :: .plain c :: ps) (r ++ c :: raw) (w ++ c :: tail) := by
  have hw := clean_tweakToken htweak hr
  have htrimmed : Trimmed t (.run r :: .plain c :: ps) ↔
      ((t.parse (trim r)).isSome = true → trim r = r) ∧ Trimmed t ps := by simp [Trimmed]
  have hreprinted : Reprinted t (.run r :: .plain c :: ps) ↔
      (∀ v, t.parse (trim r) = some v → t.fixed4 v = r) ∧ Reprinted t ps := by simp [Reprinted]
  have hclosed : closed (.run r :: .plain c :: ps) = closed ps := by simp [closed, hopen]
  refine ⟨?_, fun hzero hall htrim => ?_⟩
  · rw [rewrites_run_iff hr hw hc, runRewritten_tweakToken htweak, h.rewrites, htrimmed, hclosed]
    tauto
  · rw [hreprinted, ← h.unchanged hzero (hclosed ▸ hall) (htrimmed.mp htrim).2]
    have hsplit : w ++ c :: tail = r ++ c :: raw ↔ w = r ∧ tail = raw :=
      ⟨append_sep_inj (not_mem_of_clean hw hc) (not_mem_of_clean hr hc), by rintro ⟨rfl, rfl⟩; rfl⟩
    rw [hsplit]
    refine and_congr_left fun _ => ?_
    rcases tweakToken_eq htweak with ⟨hparse, rfl⟩ | ⟨v, v', hparse, rfl, hsame⟩
    · simp [hparse]
    · rw [hparse, hsame hzero]
      simp

/-- A flush and the character after it. -/
theorem Faithful.flush {r w : Str} {c : Char} {ps : List Piece} {raw tail : Str} (h : Faithful t rate ps raw tail)
    (hr : Clean r) (hc : r ≠ [] → isDelimiter c = true ∧ c ≠ '[') (hflushed : Flushed t rate r w) :
    Faithful t rate (flushRun r ++ .plain c :: ps) (r ++ c :: raw) (w ++ c :: tail) := by
  unfold Flushed at hflushed
  unfold flushRun
  split at hflushed
  · rename_i hnil
    rw [if_pos hnil, hflushed, hnil]
    exact h.plain
  · rename_i hsome
    obtain ⟨rng, rng', htweak⟩ := hflushed
    rw [if_neg hsome]
    exact h.run hr (hc hsome).1 (hc hsome).2 htweak

/-- Before an opening bracket a pending run is out of its place. -/
theorem Faithful.misplaced {r : Str} {ps : List Piece} (hr : Clean r) (hsome : r ≠ []) (raw tail : Str) :
    Faithful t rate (.run r :: .plain '[' :: ps) raw ('[' :: tail) := by
  have hopen : closed (.run r :: .plain '[' :: ps) = false := by simp [closed]
  refine ⟨iff_of_false (fun h => ?_) fun h => ?_, fun _ hclosed => ?_⟩
  · generalize hall : '[' :: tail = all at h
    cases h with
    | @run _ w _ out hrun hrest =>
      obtain ⟨hclean, hne⟩ := hrun.clean hr
      obtain ⟨c, w', rfl⟩ := List.exists_cons_of_ne_nil (hne hsome)
      obtain ⟨rfl, -⟩ := List.cons.inj hall
      exact not_mem_of_clean hclean (by decide) List.mem_cons_self
  · rw [hopen] at h
    cases h.1
  · rw [hopen] at hclosed
    cases hclosed

/-- What is pending at the end is lost. -/
theorem Faithful.lost {r : Str} (hr : Clean r) : Faithful t rate (flushRun r) r [] := by
  unfold flushRun
  by_cases hnil : r = []
  · rw [if_pos hnil, hnil]
    refine ⟨iff_of_true .nil ⟨rfl, nofun⟩, fun _ _ _ => iff_of_true rfl nofun⟩
  · rw [if_neg hnil]
    refine ⟨iff_of_false (fun h => ?_) fun h => ?_, fun _ hclosed => ?_⟩
    · generalize hall : ([] : Str) = all at h
      cases h with
      | run hrun hrest =>
        exact (hrun.clean hr).2 hnil (List.append_eq_nil_iff.mp hall.symm).1
    · cases h.1
    · cases hclosed

/-- A state of the scanner between two characters. -/
def Scan.Pending (s : Scan R) : Prop := Clean s.currentNum ∧ (s.inBracket = false → s.currentNum = [])

/-- The character keeps what is pending, flushes it, joins it, or is outside. -/
theorem scan_cases {s : Scan R} (hs : s.Pending) (c : Char) :
    (c = '[' ∧ scan t rate s c = some { s with inBracket := true, result := s.result ++ [c] } ∧
      ∀ source, piecesFrom s.inBracket s.currentNum (c :: source) =
        flushRun s.currentNum ++ .plain c :: piecesFrom true [] source) ∨
    ((s.currentNum ≠ [] → isDelimiter c = true ∧ c ≠ '[') ∧ ∃ stays,
      scan t rate s c = (flush t rate s).map (fun s => { s with inBracket := stays, result := s.result ++ [c] }) ∧
      ∀ source, piecesFrom s.inBracket s.currentNum (c :: source) =
        flushRun s.currentNum ++ .plain c :: piecesFrom stays [] source) ∨
    (isDelimiter c = false ∧ s.inBracket = true ∧
      scan t rate s c = some { s with currentNum := s.currentNum ++ [c] } ∧
      ∀ source, piecesFrom s.inBracket s.currentNum (c :: source) = piecesFrom true (s.currentNum ++ [c]) source) := by
  have hpieces : ∀ source, piecesFrom s.inBracket s.currentNum (c :: source) =
      if s.inBracket && !isDelimiter c then piecesFrom true (s.currentNum ++ [c]) source
      else flushRun s.currentNum ++
        .plain c :: piecesFrom (c = '[' || c ≠ ']' && s.inBracket) [] source := fun _ => rfl
  simp only [hpieces]
  unfold scan
  by_cases hopen : c = '['
  · subst hopen
    left
    simp [isDelimiter]
  right
  by_cases hclose : c = ']'
  · subst hclose
    left
    refine ⟨fun _ => ⟨by decide, by decide⟩, false, ?_, ?_⟩
    · rw [if_neg (by decide), if_pos rfl, Option.map_eq_bind]
      rfl
    · simp [isDelimiter]
  cases hinside : s.inBracket with
  | false =>
    left
    have hnil := hs.2 hinside
    refine ⟨fun hne => absurd hnil hne, false, ?_, ?_⟩
    · rw [if_neg hopen, if_neg hclose, if_neg (by simp), flush, if_pos hnil]
      simp
    · simp [hopen]
  | true =>
    by_cases hblank : c = ',' ∨ c = ' '
    · left
      have hdelimiter : isDelimiter c = true := by
        rcases hblank with rfl | rfl <;> decide
      refine ⟨fun _ => ⟨hdelimiter, hopen⟩, true, ?_, ?_⟩
      · rw [if_neg hopen, if_neg hclose, if_pos rfl, if_pos hblank]
        unfold flush
        split
        · simp [hinside]
        · cases tweakToken t rate s.currentNum s.rng <;> simp [hinside]
      · simp [hdelimiter, hclose]
    · right
      rw [not_or] at hblank
      have hplain : isDelimiter c = false := by simp [isDelimiter, hopen, hclose, hblank.1, hblank.2]
      simp [hopen, hclose, hblank, hplain]

theorem faithful_foldlM {source : Str} {s s' : Scan R} (hs : s.Pending)
    (h : source.foldlM (scan t rate) s = some s') :
    ∃ tail, s'.result = s.result ++ tail ∧
      Faithful t rate (piecesFrom s.inBracket s.currentNum source) (s.currentNum ++ source) tail := by
  induction source generalizing s with
  | nil =>
    cases h
    refine ⟨[], by simp, ?_⟩
    rw [List.append_nil]
    exact .lost hs.1
  | cons c source ih =>
    rw [List.foldlM_cons] at h
    obtain ⟨s₁, hstep, h⟩ := Option.bind_eq_some_iff.mp h
    rcases @scan_cases _ _ _ t rate s hs c with
      ⟨rfl, hscan, hpieces⟩ | ⟨hc, stays, hscan, hpieces⟩ | ⟨hplain, hinside, hscan, hpieces⟩
    · obtain rfl := Option.some.inj (hscan.symm.trans hstep)
      obtain ⟨tail, htail, hfaithful⟩ := ih (by exact ⟨hs.1, nofun⟩) h
      refine ⟨'[' :: tail, by rw [htail]; simp, ?_⟩
      rw [hpieces]
      by_cases hnil : s.currentNum = []
      · rw [hnil] at hfaithful ⊢
        exact hfaithful.plain
      · rw [flushRun, if_neg hnil]
        exact .misplaced hs.1 hnil _ _
    · obtain ⟨s₂, hflush, rfl⟩ := Option.map_eq_some_iff.mp (hscan.symm.trans hstep)
      obtain ⟨w, rng', hflushed, rfl⟩ := flush_eq hflush
      obtain ⟨tail, htail, hfaithful⟩ := ih (by exact ⟨nofun, fun _ => rfl⟩) h
      refine ⟨w ++ c :: tail, by rw [htail]; simp, ?_⟩
      rw [hpieces]
      exact hfaithful.flush hs.1 hc hflushed
    · obtain rfl := Option.some.inj (hscan.symm.trans hstep)
      have hclean : Clean (s.currentNum ++ [c]) := List.forall_mem_append.mpr ⟨hs.1, by simpa using hplain⟩
      obtain ⟨tail, htail, hfaithful⟩ := ih (by exact ⟨hclean, fun hout => by simp [hinside] at hout⟩) h
      refine ⟨tail, htail, ?_⟩
      rw [hpieces]
      simpa [hinside] using hfaithful

/-! ## Panics -/

theorem isSome_flush (s : Scan R) : (flush t rate s).isSome = true ↔
    (NoNumbers t (flushRun s.currentNum) ∨ isRate rate = true) := by
  unfold flush flushRun
  by_cases hnil : s.currentNum = []
  · rw [if_pos hnil, if_pos hnil]
    exact iff_of_true rfl (.inl nofun)
  · have htweak := isSome_tweakToken (t := t) rate s.currentNum s.rng
    rw [if_neg hnil, if_neg hnil]
    cases hresult : tweakToken t rate s.currentNum s.rng <;> rw [hresult] at htweak <;> simpa [NoNumbers] using htweak

theorem noNumbers_append (ps qs : List Piece) : NoNumbers t (ps ++ qs) ↔ NoNumbers t ps ∧ NoNumbers t qs := by
  simp only [NoNumbers, List.mem_append, or_imp, forall_and]

/-- The scanner of a text with nothing left open panics exactly when it has a number and the rate is none. -/
theorem isSome_foldlM {source : Str} {s : Scan R} (hs : s.Pending)
    (hclosed : closed (piecesFrom s.inBracket s.currentNum source) = true) :
    (source.foldlM (scan t rate) s).isSome = true ↔
      (NoNumbers t (piecesFrom s.inBracket s.currentNum source) ∨ isRate rate = true) := by
  have hplain : ∀ c ps, NoNumbers t (.plain c :: ps) ↔ NoNumbers t ps := fun c ps => by simp [NoNumbers]
  induction source generalizing s with
  | nil =>
    rw [piecesFrom, flushRun] at hclosed ⊢
    split at hclosed
    · exact iff_of_true rfl (.inl (by simp [*, NoNumbers]))
    · cases hclosed
  | cons c source ih =>
    rw [List.foldlM_cons]
    rcases @scan_cases _ _ _ t rate s hs c with
      ⟨rfl, hscan, hpieces⟩ | ⟨hc, stays, hscan, hpieces⟩ | ⟨hclean, hinside, hscan, hpieces⟩
    · rw [hpieces] at hclosed ⊢
      have hnil : s.currentNum = [] := by
        by_contra hsome
        rw [flushRun, if_neg hsome] at hclosed
        simp [closed] at hclosed
      rw [hnil, flushRun, if_pos rfl] at hclosed
      rw [hscan, hnil, flushRun, if_pos rfl, List.nil_append, hplain]
      exact ih ⟨nofun, nofun⟩ hclosed
    · rw [hpieces] at hclosed ⊢
      have hrest : closed (piecesFrom stays [] source) = true := by
        unfold flushRun at hclosed
        split at hclosed
        · exact hclosed
        · rw [List.singleton_append, closed, Bool.and_eq_true] at hclosed
          exact hclosed.2
      have hflush : (flush t rate s).isSome = true ↔ (NoNumbers t (flushRun s.currentNum) ∨ isRate rate = true) :=
        isSome_flush s
      rw [noNumbers_append, hplain, hscan]
      cases hflushed : flush t rate s with
      | none =>
        rw [hflushed] at hflush
        have hnot := hflush.not.mp Bool.false_ne_true
        rw [not_or] at hnot
        exact iff_of_false Bool.false_ne_true (by tauto)
      | some s₂ =>
        rw [hflushed] at hflush
        obtain ⟨w, rng', -, rfl⟩ := flush_eq hflushed
        have hhere := hflush.mp rfl
        refine Iff.trans (ih ?_ hrest) (by tauto)
        exact ⟨List.forall_mem_nil _, fun _ => rfl⟩
    · rw [hpieces] at hclosed ⊢
      rw [hscan, Option.bind_eq_bind, Option.bind_some]
      have hall : Clean (s.currentNum ++ [c]) := List.forall_mem_append.mpr ⟨hs.1, by simpa using hclean⟩
      refine Iff.trans (ih ⟨hall, fun hout => ?_⟩ (by rwa [hinside])) (by rw [hinside])
      rw [hinside] at hout
      cases hout

/-! ## When a mutation touches only weights -/

theorem touches_only_weights_iff (t : WeightTools R F) (source : Str) (rng : R) (rate : F) :
    (∃ out rng', mutateEmbeddedWeights t rate source rng = some (out, rng') ∧ Rewrites t (pieces source) out ∧
      (Scalar.eq rate (Scalar.lit 0) = true → out = source)) ↔
    closed (pieces source) = true ∧ Trimmed t (pieces source) ∧
      (NoNumbers t (pieces source) ∨ isRate rate = true) ∧
      (Scalar.eq rate (Scalar.lit 0) = true → Reprinted t (pieces source)) := by
  have hstart : (⟨[], false, [], rng⟩ : Scan R).Pending := ⟨List.forall_mem_nil _, fun _ => rfl⟩
  have hruns : closed (pieces source) = true →
      ((source.foldlM (scan t rate) ⟨[], false, [], rng⟩).isSome = true ↔
        (NoNumbers t (pieces source) ∨ isRate rate = true)) := isSome_foldlM hstart
  unfold mutateEmbeddedWeights
  cases hrun : source.foldlM (scan t rate) ⟨[], false, [], rng⟩ with
  | none =>
    refine iff_of_false (by rintro ⟨_, _, h, -⟩; cases h) ?_
    rintro ⟨hclosed, -, hrate, -⟩
    have hsome := (hruns hclosed).mpr hrate
    rw [hrun] at hsome
    cases hsome
  | some s =>
    obtain ⟨tail, hresult, hfaithful⟩ := faithful_foldlM hstart hrun
    rw [List.nil_append] at hresult hfaithful
    have hrewrites : Rewrites t (pieces source) tail ↔ closed (pieces source) = true ∧ Trimmed t (pieces source) :=
      hfaithful.rewrites
    constructor
    · rintro ⟨out, rng', hout, hall, hzero⟩
      cases hout
      rw [hresult] at hall hzero
      obtain ⟨hclosed, htrimmed⟩ := hrewrites.mp hall
      refine ⟨hclosed, htrimmed, (hruns hclosed).mp (by rw [hrun]; rfl), fun hrate => ?_⟩
      exact (hfaithful.unchanged hrate hclosed htrimmed).mp (hzero hrate)
    · rintro ⟨hclosed, htrimmed, -, hreprinted⟩
      refine ⟨s.result, s.rng, rfl, ?_, fun hrate => ?_⟩
      · rw [hresult]
        exact hrewrites.mpr ⟨hclosed, htrimmed⟩
      · rw [hresult]
        exact (hfaithful.unchanged hrate hclosed htrimmed).mpr (hreprinted hrate)

/-! ### Decimals -/

namespace Decimal

def isNumeral (c : Char) : Bool := c.isDigit || c = '.' || c = '-'

/-- The digits of a text as a number, and how many of them are behind the point. -/
def digits (s : Str) : Nat × Nat × Bool :=
  s.foldl (fun (n, places, behind) c =>
    if c.isDigit then (10 * n + (c.toNat - 48), if behind then places + 1 else places, behind)
    else (n, places, behind || c = '.')) (0, 0, false)

/-- Right on a decimal without an exponent. -/
def parse (s : Str) : Option ℚ :=
  if s ≠ [] ∧ s.all isNumeral then
    let (n, places, _) := digits s
    some ((if s.head? = some '-' then -n else n : ℚ) / 10 ^ places)
  else none

def fixed4 (q : ℚ) : Str :=
  let n := (|q| * 10000 + 1 / 2).floor.toNat
  (if q < 0 then ['-'] else []) ++ natStr (n / 10000) ++
    '.' :: [Nat.digitChar (n / 1000 % 10), Nat.digitChar (n / 100 % 10), Nat.digitChar (n / 10 % 10),
      Nat.digitChar (n % 10)]

theorem isNumeral_digitChar : ∀ n < 10, isNumeral (Nat.digitChar n) = true := by decide

theorem clean_of_isNumeral {c : Char} (h : isNumeral c = true) :
    isWhitespace c = false ∧ c ≠ ',' ∧ c ≠ '[' ∧ c ≠ ']' := by
  have hnum : isWhitespace c = false ∧ c.toNat ≠ 44 ∧ c.toNat ≠ 91 ∧ c.toNat ≠ 93 := by
    rw [isNumeral, Bool.or_eq_true, Bool.or_eq_true, decide_eq_true_eq, decide_eq_true_eq] at h
    rcases h with (h | rfl) | rfl
    · have hval : c.val.toNat = c.toNat := rfl
      simp only [Char.isDigit, Bool.and_eq_true, decide_eq_true_eq, ge_iff_le, UInt32.le_iff_toNat_le, hval] at h
      have hlow : 48 ≤ c.toNat := h.1
      have hhigh : c.toNat ≤ 57 := h.2
      refine ⟨?_, by omega, by omega, by omega⟩
      rw [← Bool.not_eq_true]
      unfold isWhitespace
      simp only [Bool.or_eq_true, Bool.and_eq_true, decide_eq_true_eq, List.mem_cons, List.not_mem_nil,
        or_false]
      omega
    · decide
    · decide
  refine ⟨hnum.1, ?_, ?_, ?_⟩ <;> rintro rfl <;> exact absurd hnum (by decide)

theorem isSome_parse_iff (s : Str) : (parse s).isSome = true ↔ s ≠ [] ∧ s.all isNumeral = true := by
  unfold parse
  split <;> simp_all

theorem parse_fixed4 (q : ℚ) : (parse (fixed4 q)).isSome = true := by
  rw [isSome_parse_iff]
  unfold fixed4
  refine ⟨by simp, ?_⟩
  have hnat : ∀ n, (natStr n).all isNumeral = true := fun n => List.all_eq_true.mpr fun c hc => by
    rw [natStr, Nat.toList_repr] at hc
    rw [isNumeral, Nat.isDigit_of_mem_toDigits (by decide) (by decide) hc]
    rfl
  have hdigit : ∀ n, isNumeral (Nat.digitChar (n % 10)) = true := fun n =>
    isNumeral_digitChar _ (Nat.mod_lt _ (by decide))
  simp only [List.all_append, List.all_cons, List.all_nil, hnat, hdigit]
  split <;> decide

/-- The generator always hits at a rate above zero, and draws the lower bound. -/
def tools : WeightTools Unit ℚ where
  parse := parse
  fixed4 := fixed4
  genBool r p := if isRate p then some (0 < p, r) else none
  genRange r low _ := (low, r)
  parse_clean s h := by
    obtain ⟨hne, hall⟩ := (isSome_parse_iff s).mp h
    exact ⟨hne, fun c hc => clean_of_isNumeral (List.all_eq_true.mp hall c hc)⟩
  parse_fixed4 := parse_fixed4
  genBool_isSome r p := by split <;> simp_all
  genBool_zero r p hit r' hzero h := by
    have hp : p = 0 := by simpa [Scalar.eq, Scalar.partialCmp, Scalar.lit] using hzero
    subst hp
    split at h
    · cases h
      rfl
    · cases h

/-- The text of the tests: nothing is left open, and every number has four decimals. -/
example : mutateEmbeddedWeights tools 0 "[0.1234, -0.5678, 1.0000]".toList () =
    some ("[0.1234, -0.5678, 1.0000]".toList, ()) := by
  decide +kernel

/-- A bracket that is never closed. -/
theorem open_bracket_loses_text : ¬ ∀ (source : Str) (rate : ℚ), ∃ out rng',
    mutateEmbeddedWeights tools rate source () = some (out, rng') ∧ Rewrites tools (pieces source) out ∧
      (Scalar.eq rate (Scalar.lit 0) = true → out = source) := by
  intro h
  obtain ⟨out, rng', hout, -, hsame⟩ := h "[1".toList 0
  have hlost : mutateEmbeddedWeights tools 0 "[1".toList () = some ("[".toList, ()) := by decide
  obtain ⟨rfl, -⟩ := Prod.mk.inj (Option.some.inj (hlost.symm.trans hout))
  exact absurd (hsame (by decide)) (by decide)

end Decimal

end MicroMutator

end Ccos
