import Mathlib.Logic.Relation
import Ccos.Candidate.Search

/-!
# What the search finds

The search reports the first failing case, unless its digest was seen before or shrinking it reaches
the empty input, which no receipt accepts.
-/

open Std ByteCodec

namespace Ccos

/-! ## The order of the cases -/

theorem caseOrder_eq : caseOrder = compareLex (compareOn List.length) compare := rfl

instance : TransCmp caseOrder := caseOrder_eq ▸ inferInstance

theorem caseOrder_length {a b : Bytes} (h : caseOrder a b ≠ .gt) : a.length ≤ b.length := by
  by_contra hlt
  have hgt : compare a.length b.length = .gt := Nat.compare_eq_gt.mpr (Nat.lt_of_not_le hlt)
  exact h (by rw [caseOrder, hgt]; rfl)

theorem caseOrder_nil (a : Bytes) : caseOrder a [] ≠ .lt := by
  intro h
  have hlen := caseOrder_length (a := a) (b := []) (by rw [h]; decide)
  obtain rfl := List.length_eq_zero_iff.mp (Nat.le_zero.mp hlen)
  revert h
  decide

theorem mem_dedupBy {α : Type} [DecidableEq α] {a : α} {l : List α} :
    a ∈ dedupBy (fun a b => decide (a = b)) l ↔ a ∈ l := by
  cases l with
  | nil => rfl
  | cons b rest => exact mem_dedupFrom

namespace CounterexampleEngine

variable (engine : CounterexampleEngine) (candidate : CandidateEnvelope)

/-! ## Rounds -/

def Fails (failureKind : Str) (input : Bytes) : Prop :=
  engine.evaluate candidate input = .ok (.counterexample failureKind)

/-- The oracle passes an input, or fails it with a valid kind. -/
def Answers : Prop := ∀ input, engine.evaluate candidate input = .ok .pass ∨
  ∃ kind, engine.Fails candidate kind input ∧ validateFailureKind kind = .ok ()

/-- The first proposal that fails with the kind is taken, and every proposal up to it costs a query. -/
def Shrinks (failureKind : Str) (s s' : Bytes × Nat) : Prop :=
  ∃ pre post, engine.normalized s.1 = .ok (pre ++ s'.1 :: post) ∧
    (∀ p ∈ pre, ¬ engine.Fails candidate failureKind p) ∧ engine.Fails candidate failureKind s'.1 ∧
    s.2 = s'.2 + pre.length + 1

variable {engine candidate} {failureKind : Str}

theorem round_pass {remaining : Nat} {proposed : Bytes} {rest : List Bytes}
    (hanswers : engine.Answers candidate)
    (h : ¬ engine.Fails candidate failureKind proposed) :
    engine.round candidate failureKind (remaining + 1) (proposed :: rest) =
      engine.round candidate failureKind remaining rest := by
  rw [round]
  rcases hanswers proposed with hpass | ⟨kind, hfails, hvalid⟩
  · rw [hpass]
    rfl
  · have hkind : kind ≠ failureKind := fun heq => h (heq ▸ hfails)
    rw [show engine.evaluate candidate proposed = .ok (.counterexample kind) from hfails]
    simp only [bind, Except.bind, hvalid, if_neg hkind]

theorem round_fails {remaining : Nat} {proposed : Bytes} {rest : List Bytes}
    (hanswers : engine.Answers candidate)
    (h : engine.Fails candidate failureKind proposed) :
    engine.round candidate failureKind (remaining + 1) (proposed :: rest) = .ok (.accepted proposed remaining) := by
  have hvalid : validateFailureKind failureKind = .ok () := by
    rcases hanswers proposed with hpass | ⟨kind, hfails, hvalid⟩
    · cases h.symm.trans hpass
    · cases h.symm.trans hfails
      exact hvalid
  rw [round, show engine.evaluate candidate proposed = .ok (.counterexample failureKind) from h]
  simp only [bind, Except.bind, hvalid, if_true]

theorem round_of_split {remaining : Nat} {pre post : List Bytes} {smaller : Bytes}
    (hanswers : engine.Answers candidate)
    (hpre : ∀ p ∈ pre, ¬ engine.Fails candidate failureKind p) (h : engine.Fails candidate failureKind smaller) :
    engine.round candidate failureKind (remaining + pre.length + 1) (pre ++ smaller :: post) =
      .ok (.accepted smaller remaining) := by
  induction pre with
  | nil => exact round_fails hanswers h
  | cons p pre ih =>
    obtain ⟨hp, hpre⟩ := List.forall_mem_cons.mp hpre
    rw [List.cons_append, round_pass hanswers hp]
    exact ih hpre

/-- How a round ends. -/
theorem round_cases (hanswers : engine.Answers candidate) (remaining : Nat) (proposals : List Bytes) :
    (∃ remaining' ≤ remaining, engine.round candidate failureKind remaining proposals = .ok (.rejected remaining') ∧
      ∀ p ∈ proposals, ¬ engine.Fails candidate failureKind p) ∨
    engine.round candidate failureKind remaining proposals = .ok .exhausted ∨
    ∃ pre smaller post remaining', proposals = pre ++ smaller :: post ∧
      (∀ p ∈ pre, ¬ engine.Fails candidate failureKind p) ∧ engine.Fails candidate failureKind smaller ∧
      remaining = remaining' + pre.length + 1 := by
  induction proposals generalizing remaining with
  | nil => exact .inl ⟨remaining, Nat.le_refl _, by rw [round], fun _ h => absurd h List.not_mem_nil⟩
  | cons proposed rest ih =>
    cases remaining with
    | zero => exact .inr (.inl (by rw [round]))
    | succ remaining =>
      by_cases h : engine.Fails candidate failureKind proposed
      · exact .inr (.inr ⟨[], proposed, rest, remaining, rfl, fun _ h => absurd h List.not_mem_nil, h, rfl⟩)
      · rw [round_pass hanswers h]
        rcases ih remaining with ⟨remaining', hle, hround, hnone⟩ | hround | ⟨pre, smaller, post, remaining', hsplit, hpre, hfails, hcost⟩
        · exact .inl ⟨remaining', by omega, hround, List.forall_mem_cons.mpr ⟨h, hnone⟩⟩
        · exact .inr (.inl hround)
        · refine .inr (.inr ⟨proposed :: pre, smaller, post, remaining', by rw [hsplit]; rfl,
            List.forall_mem_cons.mpr ⟨h, hpre⟩, hfails, ?_⟩)
          rw [hcost, List.length_cons]
          omega

/-! ## The whole shrink -/

/-- No smaller proposal on the input fails with the kind. -/
def Minimal (engine : CounterexampleEngine) (candidate : CandidateEnvelope) (failureKind : Str)
    (input : Bytes) : Prop :=
  ∀ proposals, engine.candidates input = .ok proposals → ∀ p ∈ proposals, caseOrder p input = .lt →
    ¬ engine.Fails candidate failureKind p

/-- The inputs that shrinking goes through, with the queries that are left there. -/
def Reaches (engine : CounterexampleEngine) (candidate : CandidateEnvelope) (failureKind : Str) :
    Bytes × Nat → Bytes × Nat → Prop :=
  Relation.ReflTransGen (engine.Shrinks candidate failureKind)

theorem normalized_of_ok {input : Bytes} {proposals : List Bytes}
    (h : engine.candidates input = .ok proposals) :
    ∃ smaller, engine.normalized input = .ok smaller ∧ ∀ p, p ∈ smaller ↔
      p ∈ proposals ∧ p.length ≤ engine.config.maxCaseBytes.toNat ∧ caseOrder p input = .lt := by
  refine ⟨_, by rw [normalized, h]; rfl, fun p => ?_⟩
  rw [mem_dedupBy, mem_sortBy, List.mem_filter]
  simp only [Bool.and_eq_true, decide_eq_true_eq, beq_iff_eq]

theorem normalized_of_error {input : Bytes} {e : CandidateProtocolError}
    (h : engine.candidates input = .error e) :
    engine.normalized input = .error e := by
  rw [normalized, h]
  rfl

theorem Shrinks.smaller {s s' : Bytes × Nat} (h : engine.Shrinks candidate failureKind s s') :
    caseOrder s'.1 s.1 = .lt ∧ s'.2 < s.2 ∧ engine.Fails candidate failureKind s'.1 := by
  obtain ⟨pre, post, hnormalized, _, hfails, hcost⟩ := h
  cases hcandidates : engine.candidates s.1 with
  | error e => rw [normalized_of_error hcandidates] at hnormalized; cases hnormalized
  | ok proposals =>
    obtain ⟨smaller, hsmaller, hmem⟩ := normalized_of_ok hcandidates
    cases hnormalized.symm.trans hsmaller
    exact ⟨((hmem s'.1).mp (by simp)).2.2, by omega, hfails⟩

theorem Reaches.smaller {s s' : Bytes × Nat} (h : engine.Reaches candidate failureKind s s')
    (hfails : engine.Fails candidate failureKind s.1) :
    caseOrder s'.1 s.1 ≠ .gt ∧ s'.2 ≤ s.2 ∧ engine.Fails candidate failureKind s'.1 := by
  induction h with
  | refl =>
    have hself : caseOrder s.1 s.1 = .eq := ReflCmp.compare_self
    exact ⟨by rw [hself]; decide, Nat.le_refl _, hfails⟩
  | tail _ hstep ih =>
    obtain ⟨horder, hle, _⟩ := ih
    obtain ⟨hlt, hcost, hfails'⟩ := hstep.smaller
    refine ⟨?_, by omega, hfails'⟩
    exact Ordering.ne_gt_iff_isLE.mpr (TransCmp.isLE_trans (Ordering.isLE_of_eq_lt hlt)
      (Ordering.ne_gt_iff_isLE.mp horder))

/-- One accepted proposal is one round of the loop. -/
theorem shrinkFrom_shrinks {s s' : Bytes × Nat} (rounds : Nat) (hanswers : engine.Answers candidate)
    (h : engine.Shrinks candidate failureKind s s') :
    engine.shrinkFrom candidate failureKind (rounds + 1) s.2 s.1 =
      engine.shrinkFrom candidate failureKind rounds s'.2 s'.1 := by
  obtain ⟨pre, post, hnormalized, hpre, hfails, hcost⟩ := h
  rw [shrinkFrom, hnormalized, hcost]
  simp only [bind, Except.bind]
  rw [round_of_split hanswers hpre hfails]

theorem shrinkFrom_reaches {s s' : Bytes × Nat} (hanswers : engine.Answers candidate)
    (h : engine.Reaches candidate failureKind s s') : ∀ rounds, s.2 < rounds → ∃ rounds', s'.2 < rounds' ∧
      engine.shrinkFrom candidate failureKind rounds s.2 s.1 =
        engine.shrinkFrom candidate failureKind rounds' s'.2 s'.1 := by
  induction h with
  | refl => exact fun rounds hlt => ⟨rounds, hlt, rfl⟩
  | tail _ hstep ih =>
    intro rounds hlt
    obtain ⟨rounds', hlt', heq⟩ := ih rounds hlt
    obtain ⟨rounds', rfl⟩ := Nat.exists_eq_succ_of_ne_zero (Nat.ne_of_gt (Nat.zero_lt_of_lt hlt'))
    have hcost := hstep.smaller.2.1
    exact ⟨rounds', by omega, heq.trans (shrinkFrom_shrinks rounds' hanswers hstep)⟩

/-- Shrinking ends where the shrinker fails, or where it has nothing more to offer or no query is left. -/
theorem shrinkFrom_ends (hanswers : engine.Answers candidate) {rounds remaining : Nat} {current : Bytes}
    (hlt : remaining < rounds) (hlen : current.length ≤ engine.config.maxCaseBytes.toNat) :
    ∃ s, engine.Reaches candidate failureKind (current, remaining) s ∧
      ((∃ e, engine.candidates s.1 = .error e) ∨ ∃ left ≤ s.2,
        engine.shrinkFrom candidate failureKind rounds remaining current = .ok (s.1, left) ∧
          (0 < left → engine.Minimal candidate failureKind s.1)) := by
  induction rounds generalizing remaining current with
  | zero => exact absurd hlt (Nat.not_lt_zero _)
  | succ rounds ih =>
    cases hcandidates : engine.candidates current with
    | error e => exact ⟨(current, remaining), .refl, .inl ⟨e, hcandidates⟩⟩
    | ok proposals =>
      obtain ⟨smaller, hnormalized, hmem⟩ := normalized_of_ok hcandidates
      rcases @round_cases engine candidate failureKind hanswers remaining smaller with
        ⟨left, hle, hround, hnone⟩ | hround | ⟨pre, next, post, left, hsplit, hpre, hfails, hcost⟩
      · refine ⟨(current, remaining), .refl, .inr ⟨left, hle, ?_, fun _ all hall p hp horder => ?_⟩⟩
        · rw [shrinkFrom, hnormalized]
          simp only [bind, Except.bind, hround]
        · cases hcandidates.symm.trans hall
          have hplen := caseOrder_length (a := p) (b := current) (by rw [horder]; decide)
          exact hnone p ((hmem p).mpr ⟨hp, by omega, horder⟩)
      · refine ⟨(current, remaining), .refl, .inr ⟨0, Nat.zero_le _, ?_, fun h => absurd h (Nat.lt_irrefl _)⟩⟩
        rw [shrinkFrom, hnormalized]
        simp only [bind, Except.bind, hround]
      · have hstep : engine.Shrinks candidate failureKind (current, remaining) (next, left) :=
          ⟨pre, post, hnormalized.trans (by rw [hsplit]), hpre, hfails, hcost⟩
        have hnext := caseOrder_length (a := next) (b := current) (by rw [hstep.smaller.1]; decide)
        obtain ⟨s, hreaches, hend⟩ := @ih left next (by omega) (by omega)
        refine ⟨s, .head hstep hreaches, ?_⟩
        rw [shrinkFrom_shrinks rounds hanswers hstep]
        exact hend

/-- From the empty input nothing is smaller. -/
theorem shrinkFrom_nil {rounds remaining : Nat} (hlt : remaining < rounds) :
    (∃ e, engine.shrinkFrom candidate failureKind rounds remaining [] = .error e) ∨
      engine.shrinkFrom candidate failureKind rounds remaining [] = .ok ([], remaining) := by
  obtain ⟨rounds, rfl⟩ := Nat.exists_eq_succ_of_ne_zero (Nat.ne_of_gt (Nat.zero_lt_of_lt hlt))
  rw [shrinkFrom]
  cases hcandidates : engine.candidates [] with
  | error e => exact .inl ⟨e, by rw [normalized_of_error hcandidates]; rfl⟩
  | ok proposals =>
    obtain ⟨smaller, hnormalized, hmem⟩ := normalized_of_ok hcandidates
    have hempty : smaller = [] := List.eq_nil_iff_forall_not_mem.mpr fun p hp =>
      caseOrder_nil p ((hmem p).mp hp).2.2
    refine .inr ?_
    rw [hnormalized, hempty]
    simp only [bind, Except.bind, round]

theorem shrink_ends (hanswers : engine.Answers candidate) {input : Bytes}
    (hlen : input.length ≤ engine.config.maxCaseBytes.toNat) :
    ∃ s, engine.Reaches candidate failureKind (input, engine.config.shrinkQueryBudget.toNat) s ∧
      ((∃ e, engine.candidates s.1 = .error e) ∨ ∃ queries ≤ engine.config.shrinkQueryBudget,
        engine.shrink candidate input failureKind = .ok (s.1, queries) ∧
          (queries < engine.config.shrinkQueryBudget → engine.Minimal candidate failureKind s.1)) := by
  have hbudget := engine.config.shrinkQueryBudget.toNat_lt
  obtain ⟨s, hreaches, hend⟩ := @shrinkFrom_ends engine candidate failureKind hanswers _ _ _
    (Nat.lt_succ_self engine.config.shrinkQueryBudget.toNat) hlen
  refine ⟨s, hreaches, hend.imp id ?_⟩
  rintro ⟨left, hleft, hshrink, hminimal⟩
  have hqueries : (UInt64.ofNat (engine.config.shrinkQueryBudget.toNat - left)).toNat =
      engine.config.shrinkQueryBudget.toNat - left :=
    UInt64.toNat_ofNat_of_lt' (Nat.lt_of_le_of_lt (Nat.sub_le _ _) hbudget)
  refine ⟨UInt64.ofNat (engine.config.shrinkQueryBudget.toNat - left), ?_, ?_, fun h => hminimal ?_⟩
  · rw [UInt64.le_iff_toNat_le, hqueries]
    omega
  · rw [shrink, hshrink]
    rfl
  · rw [UInt64.lt_iff_toNat_lt, hqueries] at h
    omega

/-- Once the shrinker fails or the empty input is reached, nothing better comes out. -/
theorem shrink_of_reaches (hanswers : engine.Answers candidate) {input : Bytes} {s : Bytes × Nat}
    (hreaches : engine.Reaches candidate failureKind (input, engine.config.shrinkQueryBudget.toNat) s)
    (h : s.1 = [] ∨ ∃ e, engine.candidates s.1 = .error e) :
    ∀ minimized queries, engine.shrink candidate input failureKind = .ok (minimized, queries) → minimized = [] := by
  intro minimized queries hshrink
  obtain ⟨rounds, hlt, heq⟩ := shrinkFrom_reaches hanswers hreaches _ (Nat.lt_succ_self _)
  rw [shrink] at hshrink
  obtain ⟨⟨last, left⟩, hfrom, hret⟩ := bind_eq_ok.mp hshrink
  cases hret
  rw [show engine.shrinkFrom candidate failureKind _ _ input = _ from heq] at hfrom
  rcases h with hnil | ⟨e, herror⟩
  · rw [hnil] at hfrom
    rcases @shrinkFrom_nil engine candidate failureKind _ _ hlt with ⟨e, hnil⟩ | hnil
    · cases hfrom.symm.trans hnil
    · cases hfrom.symm.trans hnil
      rfl
  · obtain ⟨rounds, rfl⟩ := Nat.exists_eq_succ_of_ne_zero (Nat.ne_of_gt (Nat.zero_lt_of_lt hlt))
    rw [shrinkFrom, normalized_of_error herror] at hfrom
    cases hfrom

/-! ## The report -/

variable {sha256 : Bytes → Bytes} {seed : UInt64}

theorem validate_witness {ordinal queries shrinkQueries : UInt64} {input minimized : Bytes}
    (hsha : ∀ bytes, (sha256 bytes).length = 32) (hcandidate : validateCandidate sha256 candidate = .ok ())
    (hnew : engine.new = .ok engine) (hkind : validateFailureKind failureKind = .ok ()) (hqueries : queries ≠ 0)
    (hinput : input.length < 2 ^ 64) (hle : minimized.length ≤ input.length) :
    (engine.witness sha256 candidate seed ordinal input minimized failureKind queries shrinkQueries).validate
      sha256 candidate = .ok () ↔ minimized ≠ [] := by
  obtain ⟨hgenerator, h⟩ := check_eq_ok.mp hnew
  obtain ⟨hshrinker, h⟩ := check_eq_ok.mp h
  obtain ⟨horacle, h⟩ := check_eq_ok.mp h
  obtain ⟨hcontract, -⟩ := check_eq_ok.mp h
  have hcontract : ¬ isSha256Hex engine.contractSha256 = false := refuseIf_ok.mp hcontract
  have hin : (UInt64.ofNat input.length).toNat = input.length := UInt64.toNat_ofNat_of_lt' hinput
  have hmin : (UInt64.ofNat minimized.length).toNat = minimized.length :=
    UInt64.toNat_ofNat_of_lt' (Nat.lt_of_le_of_lt hle hinput)
  have hzero : ∀ n : UInt64, n = 0 ↔ n.toNat = 0 := fun n => UInt64.toNat_inj.symm
  have hbytes : (UInt64.ofNat input.length = 0 ∨ UInt64.ofNat minimized.length = 0 ∨
      UInt64.ofNat minimized.length > UInt64.ofNat input.length) ↔ minimized = [] := by
    rw [gt_iff_lt, UInt64.lt_iff_toNat_lt, hzero, hzero, hin, hmin, ← List.length_eq_zero_iff]
    omega
  simp only [CounterexampleWitness.validate, validateCounterexampleReceipt, witness, check_eq_ok, refuseIf_ok,
    hcandidate, hgenerator, hshrinker, horacle, hkind, hcontract, digestHex, isSha256Hex_lowerHex (hsha _),
    hbytes, hqueries]
  simp

theorem report_eq_ok {ordinal queries : UInt64} {input : Bytes} {result : CounterexampleSearchResult}
    (h : engine.report sha256 candidate seed ordinal input failureKind queries = .ok result) :
    ∃ minimized shrinkQueries, engine.shrink candidate input failureKind = .ok (minimized, shrinkQueries) ∧
      (engine.witness sha256 candidate seed ordinal input minimized failureKind queries shrinkQueries).validate
        sha256 candidate = .ok () ∧
      result = .found (engine.witness sha256 candidate seed ordinal input minimized failureKind queries
        shrinkQueries) := by
  obtain ⟨-, h⟩ := check_eq_ok.mp h
  obtain ⟨⟨minimized, shrinkQueries⟩, hshrink, h⟩ := bind_eq_ok.mp h
  obtain ⟨hvalid, h⟩ := check_eq_ok.mp h
  cases h
  exact ⟨minimized, shrinkQueries, hshrink, hvalid, rfl⟩

/-! ## The loop over the cases -/

/-- The case of an ordinal that the budget allows. -/
def IsCase (engine : CounterexampleEngine) (seed : UInt64) (i : Nat) (input : Bytes) : Prop :=
  i < engine.config.generationBudget.toNat ∧ engine.generate seed (UInt64.ofNat i) = .ok input

def Passes (engine : CounterexampleEngine) (candidate : CandidateEnvelope) (seed : UInt64) (i : Nat) : Prop :=
  ∃ input, engine.generate seed (UInt64.ofNat i) = .ok input ∧ engine.evaluate candidate input = .ok .pass

/-- No case is larger than the limit of the engine. -/
def Within (engine : CounterexampleEngine) (seed : UInt64) : Prop :=
  ∀ i input, engine.IsCase seed i input → input.length ≤ engine.config.maxCaseBytes.toNat

theorem validateGeneratedCase_ok {i : Nat} {input : Bytes} (hwithin : engine.Within seed)
    (h : engine.IsCase seed i input) : engine.validateGeneratedCase input = .ok () :=
  refuseIf_ok.mpr (Nat.not_lt.mpr (hwithin i input h))

/-- Cases that pass only leave their digests behind. -/
theorem searchFrom_passes (hwithin : engine.Within seed) (n : Nat) {k start : Nat} {hashes : ExtTreeSet Str}
    {queries : UInt64} (hstart : start + k ≤ engine.config.generationBudget.toNat)
    (h : ∀ i < start + k, start ≤ i → engine.Passes candidate seed i) :
    ∃ hashes' queries', engine.searchFrom sha256 candidate seed (n + k) (UInt64.ofNat start) hashes queries =
        engine.searchFrom sha256 candidate seed n (UInt64.ofNat (start + k)) hashes' queries' ∧
      ∀ digest, digest ∈ hashes' ↔ digest ∈ hashes ∨
        ∃ i < start + k, start ≤ i ∧ ∃ input, engine.IsCase seed i input ∧ digestHex sha256 input = digest := by
  induction k generalizing start hashes queries with
  | zero =>
    refine ⟨hashes, queries, rfl, fun digest => ⟨.inl, ?_⟩⟩
    rintro (hmem | ⟨i, hlt, hle, -⟩)
    · exact hmem
    · omega
  | succ k ih =>
    obtain ⟨input, hgenerate, hpass⟩ := h start (by omega) (Nat.le_refl _)
    have hcase : engine.IsCase seed start input := ⟨by omega, hgenerate⟩
    have hnext : UInt64.ofNat start + 1 = UInt64.ofNat (start + 1) := by
      rw [UInt64.ofNat_add]
      rfl
    have hfirst : ∀ digest, (∃ i < start + (k + 1), start ≤ i ∧ ∃ input, engine.IsCase seed i input ∧
          digestHex sha256 input = digest) ↔ digestHex sha256 input = digest ∨
        ∃ i < start + 1 + k, start + 1 ≤ i ∧ ∃ input, engine.IsCase seed i input ∧
          digestHex sha256 input = digest := by
      intro digest
      constructor
      · rintro ⟨i, hlt, hle, other, hother, hdigest⟩
        rcases Nat.eq_or_lt_of_le hle with rfl | hlt'
        · cases hother.2.symm.trans hgenerate
          exact .inl hdigest
        · exact .inr ⟨i, by omega, hlt', other, hother, hdigest⟩
      · rintro (hdigest | ⟨i, hlt, hle, other, hother, hdigest⟩)
        · exact ⟨start, by omega, Nat.le_refl _, input, hcase, hdigest⟩
        · exact ⟨i, by omega, by omega, other, hother, hdigest⟩
    have hrest : ∀ hashes queries, ∃ hashes' queries',
        engine.searchFrom sha256 candidate seed (n + k) (UInt64.ofNat start + 1) hashes queries =
          engine.searchFrom sha256 candidate seed n (UInt64.ofNat (start + (k + 1))) hashes' queries' ∧
        ∀ digest, digest ∈ hashes' ↔ digest ∈ hashes ∨
          ∃ i < start + 1 + k, start + 1 ≤ i ∧ ∃ input, engine.IsCase seed i input ∧
            digestHex sha256 input = digest := by
      intro hashes queries
      have := @ih (start + 1) hashes queries (by omega) fun i hlt hle => h i (by omega) (by omega)
      rwa [hnext, show start + (k + 1) = start + 1 + k by omega]
    rw [← Nat.add_assoc, searchFrom, hgenerate]
    simp only [bind, Except.bind, validateGeneratedCase_ok hwithin hcase, hpass]
    split
    · rename_i hmem
      obtain ⟨hashes', queries', heq, hhashes⟩ := hrest hashes queries
      refine ⟨hashes', queries', heq, fun digest => ?_⟩
      rw [hhashes, hfirst]
      constructor
      · rintro (h | h)
        · exact .inl h
        · exact .inr (.inr h)
      · rintro (h | rfl | h)
        · exact .inl h
        · exact .inl hmem
        · exact .inr h
    · obtain ⟨hashes', queries', heq, hhashes⟩ :=
        hrest (hashes.insert (digestHex sha256 input)) (saturatingSucc queries)
      refine ⟨hashes', queries', heq, fun digest => ?_⟩
      rw [hhashes, hfirst, ExtTreeSet.mem_insert, Std.compare_eq_iff_eq]
      tauto

/-- What is found was not seen before. -/
theorem searchFrom_found {n : Nat} {ordinal queries : UInt64} {hashes : ExtTreeSet Str}
    {w : CounterexampleWitness}
    (h : engine.searchFrom sha256 candidate seed n ordinal hashes queries = .ok (.found w)) :
    digestHex sha256 w.originalInput ∉ hashes := by
  induction n generalizing ordinal hashes queries with
  | zero => cases h
  | succ n ih =>
    rw [searchFrom] at h
    obtain ⟨input, -, h⟩ := bind_eq_ok.mp h
    obtain ⟨-, h⟩ := check_eq_ok.mp h
    dsimp only at h
    split at h
    · exact ih h
    · rename_i hnew
      obtain ⟨verdict, -, h⟩ := bind_eq_ok.mp h
      cases verdict with
      | pass => exact fun hmem => ih h (ExtTreeSet.mem_insert.mpr (.inr hmem))
      | infrastructureFailure reason => cases h
      | counterexample kind =>
        obtain ⟨minimized, shrinkQueries, -, -, hw⟩ := report_eq_ok h
        cases hw
        exact hnew

/-! ## No failure is lost -/

/-- The first case that is a counterexample, with its kind. -/
structure FirstFailure (engine : CounterexampleEngine) (candidate : CandidateEnvelope) (seed : UInt64)
    (i : Nat)
    (input : Bytes) (failureKind : Str) : Prop where
  isCase : engine.IsCase seed i input
  fails : engine.Fails candidate failureKind input
  first : ∀ j < i, ∀ earlier kind, engine.IsCase seed j earlier → ¬ engine.Fails candidate kind earlier

/-- What a witness promises of the failure that it reports. -/
structure Reports (engine : CounterexampleEngine) (candidate : CandidateEnvelope) (seed : UInt64)
    (w : CounterexampleWitness) (i : Nat) (failureKind : Str) : Prop where
  first : engine.FirstFailure candidate seed i w.originalInput failureKind
  fails : engine.Fails candidate failureKind w.minimizedInput
  smaller : caseOrder w.minimizedInput w.originalInput ≠ .gt
  budget : w.receipt.shrinkOracleQueries ≤ engine.config.shrinkQueryBudget
  minimal : w.receipt.shrinkOracleQueries < engine.config.shrinkQueryBudget →
    engine.Minimal candidate failureKind w.minimizedInput

/-- A search answers, finds a counterexample exactly when a case is one, and reports the first. -/
def NeverLoses (sha256 : Bytes → Bytes) (engine : CounterexampleEngine) (candidate : CandidateEnvelope)
    (seed : UInt64) : Prop :=
  ∃ result, engine.search sha256 candidate seed = .ok result ∧
    ((∃ w, result = .found w) ↔
      ∃ i input kind, engine.IsCase seed i input ∧ engine.Fails candidate kind input) ∧
    ∀ w, result = .found w → ∃ i kind, engine.Reports candidate seed w i kind

/-- The generator has a case at every ordinal up to the first failure, no earlier case has the digest of
that one, and shrinking it stays away from the empty input and from errors of the shrinker. -/
structure Findable (sha256 : Bytes → Bytes) (engine : CounterexampleEngine) (candidate : CandidateEnvelope)
    (seed : UInt64) : Prop where
  generates : ∀ i < engine.config.generationBudget.toNat,
    (∀ j < i, ∀ earlier kind, engine.IsCase seed j earlier → ¬ engine.Fails candidate kind earlier) →
      ∃ input, engine.generate seed (UInt64.ofNat i) = .ok input
  distinct : ∀ i input kind, engine.FirstFailure candidate seed i input kind →
    ∀ j < i, ∀ earlier, engine.IsCase seed j earlier → digestHex sha256 earlier ≠ digestHex sha256 input
  shrinks : ∀ i input kind, engine.FirstFailure candidate seed i input kind →
    ∀ s, engine.Reaches candidate kind (input, engine.config.shrinkQueryBudget.toNat) s →
      s.1 ≠ [] ∧ ∃ proposals, engine.candidates s.1 = .ok proposals

theorem Passes.not_fails {i : Nat} {input : Bytes} (h : engine.Passes candidate seed i)
    (hcase : engine.IsCase seed i input) (kind : Str) : ¬ engine.Fails candidate kind input := by
  obtain ⟨input', hgenerate, hpass⟩ := h
  cases hcase.2.symm.trans hgenerate
  exact fun hfails => nomatch hfails.symm.trans hpass

theorem FirstFailure.unique {i j : Nat} {input input' : Bytes} {kind kind' : Str}
    (h : engine.FirstFailure candidate seed i input kind) (h' : engine.FirstFailure candidate seed j input' kind') :
    i = j ∧ input = input' ∧ kind = kind' := by
  have hij : i = j := by
    rcases Nat.lt_trichotomy i j with hlt | heq | hlt
    · exact absurd h.fails (h'.first i hlt input kind h.isCase)
    · exact heq
    · exact absurd h'.fails (h.first j hlt input' kind' h'.isCase)
  subst hij
  cases h.isCase.2.symm.trans h'.isCase.2
  cases h.fails.symm.trans h'.fails
  exact ⟨rfl, rfl, rfl⟩

theorem passes_or_first (engine : CounterexampleEngine) (candidate : CandidateEnvelope) (seed : UInt64)
    (n : Nat) :
    (∀ i < n, engine.Passes candidate seed i) ∨
      ∃ k < n, (∀ i < k, engine.Passes candidate seed i) ∧ ¬ engine.Passes candidate seed k := by
  induction n with
  | zero => exact .inl fun i hi => absurd hi (Nat.not_lt_zero i)
  | succ n ih =>
    rcases ih with hall | ⟨k, hk, h⟩
    · by_cases hn : engine.Passes candidate seed n
      · refine .inl fun i hi => ?_
        rcases Nat.lt_succ_iff_lt_or_eq.mp hi with hlt | rfl
        · exact hall i hlt
        · exact hn
      · exact .inr ⟨n, Nat.lt_succ_self n, hall, hn⟩
    · exact .inr ⟨k, Nat.lt_succ_of_lt hk, h⟩

theorem search_eq (hcandidate : validateCandidate sha256 candidate = .ok ()) :
    engine.search sha256 candidate seed =
      engine.searchFrom sha256 candidate seed engine.config.generationBudget.toNat 0 ∅ 0 := by
  rw [search, hcandidate]
  rfl

/-- Up to an ordinal before which every case passes, the search only collects digests. -/
theorem search_passes (hcandidate : validateCandidate sha256 candidate = .ok ())
    (hwithin : engine.Within seed)
    {k : Nat} (hk : k ≤ engine.config.generationBudget.toNat) (h : ∀ i < k, engine.Passes candidate seed i) :
    ∃ hashes queries, engine.search sha256 candidate seed =
        engine.searchFrom sha256 candidate seed (engine.config.generationBudget.toNat - k) (UInt64.ofNat k) hashes
          queries ∧
      ∀ digest, digest ∈ hashes ↔ ∃ i < k, ∃ input, engine.IsCase seed i input ∧ digestHex sha256 input = digest := by
  obtain ⟨hashes, queries, heq, hhashes⟩ := @searchFrom_passes engine candidate sha256 seed hwithin
    (engine.config.generationBudget.toNat - k) k 0 ∅ 0 (by omega) fun i hi _ => h i (by omega)
  refine ⟨hashes, queries, ?_, fun digest => ?_⟩
  · rw [search_eq hcandidate]
    rw [Nat.sub_add_cancel hk, Nat.zero_add] at heq
    exact heq
  · simpa using hhashes digest

/-- A failing case with a new digest is reported, and lost only where shrinking it goes wrong. -/
theorem report_cases {ordinal queries : UInt64} {i : Nat} {input : Bytes}
    (hsha : ∀ bytes, (sha256 bytes).length = 32)
    (hcandidate : validateCandidate sha256 candidate = .ok ()) (hnew : engine.new = .ok engine)
    (hanswers : engine.Answers candidate) (hlen : input.length ≤ engine.config.maxCaseBytes.toNat)
    (hqueries : queries ≠ 0) (h : engine.FirstFailure candidate seed i input failureKind) :
    (∃ w, engine.report sha256 candidate seed ordinal input failureKind queries = .ok (.found w) ∧
        engine.Reports candidate seed w i failureKind) ∧
      (∀ s, engine.Reaches candidate failureKind (input, engine.config.shrinkQueryBudget.toNat) s →
        s.1 ≠ [] ∧ ∃ proposals, engine.candidates s.1 = .ok proposals) ∨
    (¬ ∃ result, engine.report sha256 candidate seed ordinal input failureKind queries = .ok result) ∧
      ∃ s, engine.Reaches candidate failureKind (input, engine.config.shrinkQueryBudget.toNat) s ∧
        (s.1 = [] ∨ ∃ e, engine.candidates s.1 = .error e) := by
  have hmax := engine.config.maxCaseBytes.toNat_lt
  have hkind : validateFailureKind failureKind = .ok () := by
    rcases hanswers input with hpass | ⟨kind, hfails, hvalid⟩
    · cases h.fails.symm.trans hpass
    · cases h.fails.symm.trans hfails
      exact hvalid
  by_cases hbad : ∃ s, engine.Reaches candidate failureKind (input, engine.config.shrinkQueryBudget.toNat) s ∧
      (s.1 = [] ∨ ∃ e, engine.candidates s.1 = .error e)
  · obtain ⟨s, hreaches, hbad⟩ := hbad
    refine .inr ⟨?_, s, hreaches, hbad⟩
    rintro ⟨result, hreport⟩
    obtain ⟨minimized, shrinkQueries, hshrink, hvalid, -⟩ := report_eq_ok hreport
    obtain rfl := shrink_of_reaches hanswers hreaches hbad minimized shrinkQueries hshrink
    exact (validate_witness hsha hcandidate hnew hkind hqueries (by omega) (Nat.zero_le _)).mp hvalid rfl
  · have hclean : ∀ s, engine.Reaches candidate failureKind (input, engine.config.shrinkQueryBudget.toNat) s →
        s.1 ≠ [] ∧ ∃ proposals, engine.candidates s.1 = .ok proposals := by
      intro s hreaches
      refine ⟨fun hnil => hbad ⟨s, hreaches, .inl hnil⟩, ?_⟩
      cases hcandidates : engine.candidates s.1 with
      | error e => exact absurd ⟨s, hreaches, .inr ⟨e, hcandidates⟩⟩ hbad
      | ok proposals => exact ⟨proposals, rfl⟩
    obtain ⟨s, hreaches, ⟨e, herror⟩ | ⟨shrinkQueries, hle, hshrink, hminimal⟩⟩ :=
      @shrink_ends engine candidate failureKind hanswers input hlen
    · exact absurd ⟨s, hreaches, .inr ⟨e, herror⟩⟩ hbad
    · obtain ⟨horder, -, hfails⟩ := hreaches.smaller h.fails
      have hsmaller : s.1.length ≤ input.length := caseOrder_length horder
      have hvalid : (engine.witness sha256 candidate seed ordinal input s.1 failureKind queries
          shrinkQueries).validate sha256 candidate = .ok () :=
        (validate_witness hsha hcandidate hnew hkind hqueries (by omega) hsmaller).mpr (hclean s hreaches).1
      refine .inl ⟨⟨engine.witness sha256 candidate seed ordinal input s.1 failureKind queries shrinkQueries, ?_,
        h, hfails, horder, hle, hminimal⟩, hclean⟩
      · rw [report, hkind, hshrink]
        simp only [bind, Except.bind, hvalid]
        rfl

theorem saturatingSucc_ne_zero (n : UInt64) : saturatingSucc n ≠ 0 := by
  unfold saturatingSucc
  split
  · rename_i hmax
    rw [hmax]
    decide
  · rename_i hmax
    intro hzero
    have htoNat := congrArg UInt64.toNat hzero
    have hlt := n.toNat_lt
    have hne : n.toNat ≠ 18446744073709551615 := fun heq => hmax (UInt64.toNat_inj.mp heq)
    rw [UInt64.toNat_add] at htoNat
    simp only [UInt64.toNat_one, UInt64.toNat_zero] at htoNat
    omega

/-! ## The three ways a search goes -/

theorem never_loses_of_passes (hcandidate : validateCandidate sha256 candidate = .ok ())
    (hwithin : engine.Within seed)
    (hall : ∀ i < engine.config.generationBudget.toNat, engine.Passes candidate seed i) :
    engine.NeverLoses sha256 candidate seed ∧ engine.Findable sha256 candidate seed := by
  obtain ⟨hashes, queries, heq, -⟩ := search_passes hcandidate hwithin (Nat.le_refl _) hall
  rw [Nat.sub_self, searchFrom] at heq
  have hnone : ∀ i input kind, engine.IsCase seed i input → ¬ engine.Fails candidate kind input :=
    fun i input kind hcase => (hall i hcase.1).not_fails hcase kind
  refine ⟨⟨_, heq, ⟨?_, ?_⟩, ?_⟩, fun i hi _ => ?_, ?_, ?_⟩
  · rintro ⟨w, hw⟩
    cases hw
  · rintro ⟨i, input, kind, hcase, hfails⟩
    exact absurd hfails (hnone i input kind hcase)
  · intro w hw
    cases hw
  · obtain ⟨input, hgenerate, -⟩ := hall i hi
    exact ⟨input, hgenerate⟩
  · exact fun i input kind h => absurd h.fails (hnone i input kind h.isCase)
  · exact fun i input kind h => absurd h.fails (hnone i input kind h.isCase)

theorem search_of_error (hcandidate : validateCandidate sha256 candidate = .ok ())
    (hwithin : engine.Within seed)
    {k : Nat} {e : CandidateProtocolError} (hk : k < engine.config.generationBudget.toNat)
    (hpasses : ∀ i < k, engine.Passes candidate seed i) (h : engine.generate seed (UInt64.ofNat k) = .error e) :
    engine.search sha256 candidate seed = .error e := by
  obtain ⟨hashes, queries, heq, -⟩ := search_passes hcandidate hwithin (Nat.le_of_lt hk) hpasses
  obtain ⟨n, hn⟩ := Nat.exists_eq_succ_of_ne_zero (Nat.sub_ne_zero_of_lt hk)
  rw [heq, hn, searchFrom, h]
  rfl

/-- The first failure is skipped when its digest was seen, and otherwise reported. -/
theorem search_of_first (hcandidate : validateCandidate sha256 candidate = .ok ())
    (hwithin : engine.Within seed)
    {k : Nat} {input : Bytes} (hpasses : ∀ i < k, engine.Passes candidate seed i)
    (h : engine.FirstFailure candidate seed k input failureKind) :
    (∃ j < k, ∃ earlier, engine.IsCase seed j earlier ∧ digestHex sha256 earlier = digestHex sha256 input) ∧
      (∀ w, engine.search sha256 candidate seed = .ok (.found w) → w.originalInput ≠ input) ∨
    (∀ j < k, ∀ earlier, engine.IsCase seed j earlier → digestHex sha256 earlier ≠ digestHex sha256 input) ∧
      ∃ queries, queries ≠ 0 ∧ engine.search sha256 candidate seed =
        engine.report sha256 candidate seed (UInt64.ofNat k) input failureKind queries := by
  obtain ⟨hashes, queries, heq, hhashes⟩ := search_passes hcandidate hwithin (Nat.le_of_lt h.isCase.1) hpasses
  obtain ⟨n, hn⟩ := Nat.exists_eq_succ_of_ne_zero (Nat.sub_ne_zero_of_lt h.isCase.1)
  rw [hn, searchFrom, h.isCase.2] at heq
  simp only [bind, Except.bind, validateGeneratedCase_ok hwithin h.isCase] at heq
  split at heq
  · rename_i hmem
    refine .inl ⟨(hhashes _).mp hmem, ?_⟩
    rintro w hw rfl
    exact searchFrom_found (heq.symm.trans hw) hmem
  · rename_i hfresh
    rw [show engine.evaluate candidate input = .ok (.counterexample failureKind) from h.fails] at heq
    refine .inr ⟨fun j hj earlier hearlier hdigest => hfresh ((hhashes _).mpr ⟨j, hj, earlier, hearlier, hdigest⟩),
      saturatingSucc queries, saturatingSucc_ne_zero queries, heq⟩

/-- For generators within the limit, any shrinker and oracles that answer, a search never loses a failure
exactly when the failure is findable. -/
theorem never_loses_iff (hsha : ∀ bytes, (sha256 bytes).length = 32)
    (hcandidate : validateCandidate sha256 candidate = .ok ()) (hnew : engine.new = .ok engine)
    (hanswers : engine.Answers candidate) (hwithin : engine.Within seed) :
    engine.NeverLoses sha256 candidate seed ↔ engine.Findable sha256 candidate seed := by
  rcases passes_or_first engine candidate seed engine.config.generationBudget.toNat with
    hall | ⟨k, hk, hpasses, hnot⟩
  · have hboth := never_loses_of_passes hcandidate hwithin hall
    exact iff_of_true hboth.1 hboth.2
  have hbefore : ∀ j < k, ∀ earlier kind, engine.IsCase seed j earlier → ¬ engine.Fails candidate kind earlier :=
    fun j hj earlier kind hcase => (hpasses j hj).not_fails hcase kind
  cases hgenerate : engine.generate seed (UInt64.ofNat k) with
  | error e =>
    have herror := search_of_error hcandidate hwithin hk hpasses hgenerate
    refine iff_of_false ?_ fun hfindable => ?_
    · rintro ⟨result, hresult, -⟩
      cases hresult.symm.trans herror
    · obtain ⟨input, hinput⟩ := hfindable.generates k hk hbefore
      cases hinput.symm.trans hgenerate
  | ok input =>
    obtain ⟨kind, hfails, -⟩ := (hanswers input).resolve_left fun hpass => hnot ⟨input, hgenerate, hpass⟩
    have hfirst : engine.FirstFailure candidate seed k input kind := ⟨⟨hk, hgenerate⟩, hfails, hbefore⟩
    have hfailure : ∃ i input kind, engine.IsCase seed i input ∧ engine.Fails candidate kind input :=
      ⟨k, input, kind, ⟨hk, hgenerate⟩, hfails⟩
    rcases search_of_first hcandidate hwithin hpasses hfirst with
      ⟨⟨j, hj, earlier, hearlier, hdigest⟩, hother⟩ | ⟨hdistinct, queries, hqueries, heq⟩
    · refine iff_of_false ?_ fun hfindable =>
        hfindable.distinct k input kind hfirst j hj earlier hearlier hdigest
      rintro ⟨result, hresult, hfound, hreports⟩
      obtain ⟨w, rfl⟩ := hfound.mpr hfailure
      obtain ⟨i, kind', hw⟩ := hreports w rfl
      exact hother w hresult (hw.first.unique hfirst).2.1
    rcases report_cases hsha hcandidate hnew hanswers (hwithin k input ⟨hk, hgenerate⟩) hqueries hfirst with
      ⟨⟨w, hreport, hw⟩, hclean⟩ | ⟨hlost, s, hreaches, hbad⟩
    · refine iff_of_true ⟨_, heq.trans hreport, ⟨fun _ => hfailure, fun _ => ⟨w, rfl⟩⟩, ?_⟩
        ⟨fun i hi hnone => ?_, ?_, ?_⟩
      · intro w' hw'
        cases hw'
        exact ⟨k, kind, hw⟩
      · rcases Nat.lt_trichotomy i k with hlt | rfl | hlt
        · obtain ⟨earlier, hearlier, -⟩ := hpasses i hlt
          exact ⟨earlier, hearlier⟩
        · exact ⟨input, hgenerate⟩
        · exact absurd hfails (hnone k hlt input kind ⟨hk, hgenerate⟩)
      · intro i input' kind' h
        obtain ⟨rfl, rfl, rfl⟩ := h.unique hfirst
        exact hdistinct
      · intro i input' kind' h
        obtain ⟨rfl, rfl, rfl⟩ := h.unique hfirst
        exact hclean
    · refine iff_of_false ?_ fun hfindable => ?_
      · rintro ⟨result, hresult, -⟩
        exact hlost ⟨result, heq.symm.trans hresult⟩
      · obtain ⟨hne, proposals, hproposals⟩ := hfindable.shrinks k input kind hfirst s hreaches
        rcases hbad with hnil | ⟨e, herror⟩
        · exact hne hnil
        · cases hproposals.symm.trans herror

/-! ## A failure on every input -/

namespace Sample

/-- Not SHA-256, but as long. -/
def pad32 (bytes : Bytes) : Bytes := (bytes ++ List.replicate 32 0).take 32

def sorter : CandidateEnvelope :=
  let source := digestHex pad32 [7]
  { schemaVersion := 1, candidateId := digestHex pad32 (identityBytes .forge "sort".toList source)
    producerCandidateId := none, parentCandidateId := none, origin := .forge, domain := "sort".toList
    sourceSha256 := source, proposalSha256 := none, trialSeed := 1 }

/-- The only case is one byte, and the oracle fails the inputs of at least `smallest` bytes. -/
def crashing (smallest : Nat) : CounterexampleEngine where
  generatorId := "one-byte".toList
  generate _ _ := .ok [1]
  shrinkerId := "byte-chunk-delete-v1".toList
  candidates := ChunkDeletionShrinker.candidates
  oracleId := "length".toList
  contractSha256 := digestHex pad32 [8]
  evaluate _ input := .ok (if smallest ≤ input.length then .counterexample "crash".toList else .pass)
  config := ⟨1, 4, 8⟩

theorem length_pad32 (bytes : Bytes) : (pad32 bytes).length = 32 := by
  simp only [pad32, List.length_take, List.length_append, List.length_replicate]
  omega

theorem sorter_valid : validateCandidate pad32 sorter = .ok () := by decide

theorem crashing_new (smallest : Nat) : (crashing smallest).new = .ok (crashing smallest) := by
  have hgenerator : validateId (crashing smallest).generatorId "counterexample.generator_id".toList = .ok () := by
    show validateId "one-byte".toList _ = _
    decide
  have hshrinker : validateId (crashing smallest).shrinkerId "counterexample.shrinker_id".toList = .ok () := by
    show validateId "byte-chunk-delete-v1".toList _ = _
    decide
  have horacle : validateId (crashing smallest).oracleId "counterexample.oracle_id".toList = .ok () := by
    show validateId "length".toList _ = _
    decide
  have hcontract : isSha256Hex (crashing smallest).contractSha256 = true := isSha256Hex_lowerHex (length_pad32 [8])
  rw [new, hgenerator, hshrinker, horacle, hcontract]
  rfl

theorem crashing_evaluate (smallest : Nat) (input : Bytes) : (crashing smallest).evaluate sorter input =
    .ok (if smallest ≤ input.length then .counterexample "crash".toList else .pass) := rfl

theorem crashing_answers (smallest : Nat) : (crashing smallest).Answers sorter := by
  intro input
  by_cases h : smallest ≤ input.length
  · exact .inr ⟨"crash".toList, by rw [Fails, crashing_evaluate, if_pos h], by decide⟩
  · exact .inl (by rw [crashing_evaluate, if_neg h])

theorem crashing_within (smallest : Nat) : (crashing smallest).Within 0 := by
  rintro i input ⟨-, hgenerate⟩
  cases hgenerate
  show 1 ≤ 8
  decide

theorem crashing_first {i : Nat} {input : Bytes} {kind : Str}
    (h : (crashing 1).FirstFailure sorter 0 i input kind) : i = 0 ∧ input = [1] := by
  obtain ⟨⟨hi, hgenerate⟩, -, -⟩ := h
  cases hgenerate
  exact ⟨Nat.lt_one_iff.mp hi, rfl⟩

/-- The empty input passes, so nothing is accepted. -/
theorem crashing_reaches {kind : Str} {s : Bytes × Nat} (h : (crashing 1).Reaches sorter kind ([1], 4) s) :
    s = ([1], 4) := by
  induction h with
  | refl => rfl
  | tail _ hstep ih =>
    subst ih
    obtain ⟨pre, post, hnormalized, -, hfails, -⟩ := hstep
    obtain ⟨smaller, hsmaller, hmem⟩ := @normalized_of_ok (crashing 1) [1] _ rfl
    cases hsmaller.symm.trans hnormalized
    rename_i next _
    have hnil : next.1 = [] := by
      simpa [ChunkDeletionShrinker.chunksFrom, ChunkDeletionShrinker.deletions] using
        ((hmem next.1).mp (by simp)).1
    rw [Fails, crashing_evaluate, hnil] at hfails
    cases hfails

end Sample

/-- One byte that crashes, under the shrinker of the source. -/
theorem crash_is_found : (Sample.crashing 1).NeverLoses Sample.pad32 Sample.sorter 0 := by
  refine (never_loses_iff Sample.length_pad32 Sample.sorter_valid (Sample.crashing_new 1)
    (Sample.crashing_answers 1) (Sample.crashing_within 1)).mpr ⟨fun _ _ _ => ⟨[1], rfl⟩, ?_, ?_⟩
  · intro i input kind h j hj
    rw [(Sample.crashing_first h).1] at hj
    exact absurd hj (Nat.not_lt_zero j)
  · intro i input kind h s hreaches
    rw [(Sample.crashing_first h).2] at hreaches
    rw [Sample.crashing_reaches hreaches]
    exact ⟨by decide, _, rfl⟩

/-- When the empty input crashes too, shrinking reaches it and the search fails. -/
theorem crash_on_nothing_is_lost :
    ¬ ∀ (sha256 : Bytes → Bytes) (engine : CounterexampleEngine) (candidate : CandidateEnvelope) (seed : UInt64),
      (∀ bytes, (sha256 bytes).length = 32) → validateCandidate sha256 candidate = .ok () → engine.new = .ok engine →
        engine.Answers candidate → engine.Within seed → engine.NeverLoses sha256 candidate seed := by
  intro h
  obtain ⟨result, hsearch, -⟩ := h Sample.pad32 (Sample.crashing 0) Sample.sorter 0 Sample.length_pad32
    Sample.sorter_valid (Sample.crashing_new 0) (Sample.crashing_answers 0) (Sample.crashing_within 0)
  have hlost : ((Sample.crashing 0).search Sample.pad32 Sample.sorter 0).toOption = none := by decide
  rw [hsearch] at hlost
  cases hlost

end CounterexampleEngine

end Ccos
