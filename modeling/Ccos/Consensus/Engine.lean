import Ccos.Text
import Mathlib.Algebra.Field.Defs
import Mathlib.Algebra.BigOperators.Group.List.Defs
import Mathlib.Order.Defs.LinearOrder
import Mathlib.Data.UInt
import Ccos.Lib.RankedChoice
import Mathlib.Algebra.BigOperators.Group.List.Basic

/-!
# Consensus of several models

The outputs of the models are votes. The output with the most votes, or the most confidence, is the answer, and it is a
consensus when its share reaches the threshold.
-/

open Std

namespace Ccos.Consensus

structure LlmVote (F : Type) where
  model : Str
  output : Str
  confidence : F
  deriving DecidableEq

structure ConsensusResult (F : Type) where
  output : Str
  voteCount : UInt32
  totalVotes : UInt32
  agreementRatio : F
  modelsInAgreement : List Str
  consensusReached : Bool
  deriving DecidableEq

structure ConsensusEngine (F : Type) where
  minAgreementRatio : F

def noConsensus : Str := "NO_CONSENSUS".toList

section

variable {F : Type} [Field F] [LinearOrder F]

/-- What the hash map holds under an output: its score and its models. -/
def scoreMap {S : Type} [Zero S] [Add S] (score : LlmVote F → S) (votes : List (LlmVote F)) :
    BTreeMap Str (S × List Str) :=
  votes.foldl (fun m vote =>
    let entry := (m[vote.output]?).getD (0, [])
    m.insert vote.output (entry.1 + score vote, entry.2 ++ [vote.model])) ∅

/-- The entries of a hash map, in an order in which it may be iterated. -/
def IteratedAs {V : Type} (m : BTreeMap Str V) (entries : List (Str × V)) : Prop := entries.Perm m.toList

def weight (vote : LlmVote F) : F := max vote.confidence 0

namespace ConsensusEngine

def new : ConsensusEngine F := ⟨1 / 2⟩

def withThreshold (threshold : F) : ConsensusEngine F := ⟨max 0 (min threshold 1)⟩

def empty : ConsensusResult F := ⟨noConsensus, 0, 0, 0, [], false⟩

/-- `entries` are those of `scoreMap` by number of votes, as they are iterated. -/
def resolve (engine : ConsensusEngine F) (votes : List (LlmVote F)) (entries : List (Str × UInt32 × List Str)) :
    ConsensusResult F :=
  if votes = [] then empty
  else
    let best := (maxBy (compareOn fun e => e.2.1) entries).getD (noConsensus, 0, [])
    let total := UInt32.ofNat votes.length
    let ratio : F := (best.2.1.toNat : F) / ((max total.toNat 1 : Nat) : F)
    ⟨best.1, best.2.1, total, ratio, best.2.2, decide (engine.minAgreementRatio ≤ ratio)⟩

/-- `entries` are those of `scoreMap` by weight, as they are iterated. -/
def resolveWeighted (engine : ConsensusEngine F) (votes : List (LlmVote F)) (entries : List (Str × F × List Str)) :
    ConsensusResult F :=
  if votes = [] then empty
  else
    let best := (maxBy (compareOn fun e => e.2.1) entries).getD (noConsensus, 0, [])
    let totalConfidence := (votes.map weight).sum
    let ratio := if 0 < totalConfidence then best.2.1 / totalConfidence else 0
    ⟨best.1, UInt32.ofNat best.2.2.length, UInt32.ofNat votes.length, ratio, best.2.2,
      decide (engine.minAgreementRatio ≤ ratio)⟩

/-- `resolve` may return `r`. -/
def Resolves (engine : ConsensusEngine F) (votes : List (LlmVote F)) (r : ConsensusResult F) : Prop :=
  ∃ entries, IteratedAs (scoreMap (fun _ => 1) votes) entries ∧ engine.resolve votes entries = r

/-- `resolve_weighted` may return `r`. -/
def ResolvesWeighted (engine : ConsensusEngine F) (votes : List (LlmVote F)) (r : ConsensusResult F) : Prop :=
  ∃ entries, IteratedAs (scoreMap weight votes) entries ∧ engine.resolveWeighted votes entries = r

end ConsensusEngine

end

end Ccos.Consensus

/-!
## When a consensus is unambiguous

The winner is the greatest entry of a hash map, so where outputs tie the order of iteration decides.
-/

open Std

namespace Ccos.Consensus

section

variable {F : Type} [Field F] [LinearOrder F]

/-! ## What the votes say -/

def outputs (votes : List (LlmVote F)) : List Str := votes.map LlmVote.output

def votesFor (votes : List (LlmVote F)) (o : Str) : List (LlmVote F) := votes.filter fun v => v.output = o

/-- The 32 bits in which the votes of an output are counted. -/
def counter (votes : List (LlmVote F)) (o : Str) : Nat := (votesFor votes o).length % 2 ^ 32

def share (votes : List (LlmVote F)) (o : Str) : F :=
  (counter votes o : F) / ((max (votes.length % 2 ^ 32) 1 : Nat) : F)

def weightFor (votes : List (LlmVote F)) (o : Str) : F := ((votesFor votes o).map weight).sum

def weightShare (votes : List (LlmVote F)) (o : Str) : F :=
  if 0 < (votes.map weight).sum then weightFor votes o / (votes.map weight).sum else 0

/-- Any consensus that is reported has more support than any other output, and all runs report the same, in whatever
order the votes come and the map is iterated. -/
def Unambiguous {S : Type} [LT S] (support : List (LlmVote F) → Str → S)
    (resolves : List (LlmVote F) → ConsensusResult F → Prop) (votes : List (LlmVote F)) : Prop :=
  ∀ r, resolves votes r → r.consensusReached = true →
    (∀ o ∈ outputs votes, o ≠ r.output → support votes o < support votes r.output) ∧
    ∀ votes' r', votes'.Perm votes → resolves votes' r' →
      r'.output = r.output ∧ r'.voteCount = r.voteCount ∧ r'.agreementRatio = r.agreementRatio ∧
        ∀ m, m ∈ r'.modelsInAgreement ↔ m ∈ r.modelsInAgreement

/-- Where the greatest counter has the share that is asked for, one output has it alone, and more votes than any
other. -/
def DecidedByCount (threshold : F) (votes : List (LlmVote F)) : Prop :=
  ∀ a ∈ outputs votes, (∀ b ∈ outputs votes, counter votes b ≤ counter votes a) → threshold ≤ share votes a →
    ∀ b ∈ outputs votes, b ≠ a →
      counter votes b < counter votes a ∧ (votesFor votes b).length < (votesFor votes a).length

/-- Where the greatest weight has the share that is asked for, one output has it alone. -/
def DecidedByWeight (threshold : F) (votes : List (LlmVote F)) : Prop :=
  ∀ a ∈ outputs votes, (∀ b ∈ outputs votes, weightFor votes b ≤ weightFor votes a) → threshold ≤ weightShare votes a →
    ∀ b ∈ outputs votes, b ≠ a → weightFor votes b < weightFor votes a

/-! ## The map -/

omit [Field F] [LinearOrder F] in
theorem getElem?_scoreMap {S : Type} [AddCommMonoid S] (score : LlmVote F → S) (votes : List (LlmVote F)) (o : Str) :
    (scoreMap score votes)[o]? = if o ∈ outputs votes then
      some (((votesFor votes o).map score).sum, (votesFor votes o).map LlmVote.model) else none := by
  have hfold : ∀ (l : List (LlmVote F)) (s : S) (ms : List Str),
      l.foldl (fun (entry : S × List Str) v => (entry.1 + score v, entry.2 ++ [v.model])) (s, ms) =
        (s + (l.map score).sum, ms ++ l.map LlmVote.model) := by
    intro l
    induction l with
    | nil => simp
    | cons v l ih =>
      intro s ms
      rw [List.foldl_cons, ih]
      simp [add_assoc]
  have hgather := Tally.getElem?_gather LlmVote.output
    (fun (entry : S × List Str) v => (entry.1 + score v, entry.2 ++ [v.model])) (0, []) votes o
  refine hgather.trans ?_
  rw [hfold, zero_add, List.nil_append]
  by_cases ho : o ∈ outputs votes
  · rw [if_pos ho]
    exact if_pos ho
  · rw [if_neg ho]
    exact if_neg ho

omit [Field F] [LinearOrder F] in
/-- What a run may choose. -/
theorem exists_choice_iff {S T : Type} [AddCommMonoid S] [LinearOrder T] (score : LlmVote F → S) (rank : S → T)
    (votes : List (LlmVote F)) (best : Str × S × List Str) :
    (∃ entries, IteratedAs (scoreMap score votes) entries ∧
      Tally.choice (compareOn fun e : Str × S × List Str => rank e.2.1) entries = some best) ↔
    best.1 ∈ outputs votes ∧
      best.2 = (((votesFor votes best.1).map score).sum, (votesFor votes best.1).map LlmVote.model) ∧
      ∀ o ∈ outputs votes, rank ((votesFor votes o).map score).sum ≤ rank ((votesFor votes best.1).map score).sum := by
  classical
  have hmem : ∀ e : Str × S × List Str, e ∈ (scoreMap score votes).toList ↔ e.1 ∈ outputs votes ∧
      e.2 = (((votesFor votes e.1).map score).sum, (votesFor votes e.1).map LlmVote.model) := by
    rintro ⟨o, entry⟩
    rw [ExtTreeMap.mem_toList_iff_getElem?_eq_some, getElem?_scoreMap]
    by_cases ho : o ∈ outputs votes
    · rw [if_pos ho, and_iff_right ho, Option.some.injEq, eq_comm]
    · rw [if_neg ho]
      exact iff_of_false nofun fun h => ho h.1
  refine Tally.exists_order_iff.trans ?_
  rw [hmem, and_assoc]
  refine and_congr_right fun hout => and_congr_right fun hbest => ?_
  rw [hbest]
  constructor
  · intro h o ho
    exact h (o, _) ((hmem (o, ((votesFor votes o).map score).sum, (votesFor votes o).map LlmVote.model)).mpr ⟨ho, rfl⟩)
  · rintro h ⟨o, entry⟩ he
    obtain ⟨ho, heq⟩ := (hmem _).mp he
    dsimp only at ho heq ⊢
    rw [heq]
    exact h o ho

/-! ## Runs -/

omit [Field F] [LinearOrder F] in
theorem sum_ones (l : List (LlmVote F)) : (l.map fun _ => (1 : UInt32)).sum = UInt32.ofNat l.length := by
  induction l with
  | nil => rfl
  | cons v l ih => rw [List.map_cons, List.sum_cons, ih, List.length_cons, UInt32.ofNat_add, add_comm]; rfl

theorem maxBy_eq {α : Type} (cmp : α → α → Ordering) (l : List α) : maxBy cmp l = Tally.choice cmp l := by
  cases l <;> rfl

theorem compareOn_toNat {α : Type} (f : α → UInt32) : (compareOn f) = compareOn fun e => (f e).toNat := by
  funext a b
  simp only [compareOn, compare, compareOfLessAndEq, UInt32.lt_iff_toNat_lt, UInt32.toNat_inj]

omit [Field F] [LinearOrder F] in
/-- The run chooses something once there are votes. -/
theorem choice_of_votes {S T : Type} [AddCommMonoid S] [LinearOrder T] {score : LlmVote F → S} (rank : S → T)
    {votes : List (LlmVote F)} (hsome : votes ≠ []) {entries : List (Str × S × List Str)}
    (hentries : IteratedAs (scoreMap score votes) entries) :
    ∃ best, Tally.choice (compareOn fun e : Str × S × List Str => rank e.2.1) entries = some best := by
  cases entries with
  | cons e entries => exact ⟨_, rfl⟩
  | nil =>
    obtain ⟨v, votes, rfl⟩ := List.exists_cons_of_ne_nil hsome
    have hmem : v.output ∈ outputs (v :: votes) := List.mem_cons_self
    have hget := getElem?_scoreMap score (v :: votes) v.output
    rw [if_pos hmem] at hget
    have hentry := hentries.mem_iff.mpr (ExtTreeMap.mem_toList_iff_getElem?_eq_some.mpr hget)
    cases hentry

theorem resolves_iff {engine : ConsensusEngine F} {votes : List (LlmVote F)} (hsome : votes ≠ [])
    (r : ConsensusResult F) : engine.Resolves votes r ↔ ∃ a ∈ outputs votes,
      (∀ b ∈ outputs votes, counter votes b ≤ counter votes a) ∧
      r = ⟨a, UInt32.ofNat (votesFor votes a).length, UInt32.ofNat votes.length, share votes a,
        (votesFor votes a).map LlmVote.model, decide (engine.minAgreementRatio ≤ share votes a)⟩ := by
  have hchoice := exists_choice_iff (fun _ => 1) UInt32.toNat votes
  simp only [sum_ones, UInt32.toNat_ofNat'] at hchoice
  have hresult : ∀ {entries best}, Tally.choice (compareOn fun e : Str × UInt32 × List Str => e.2.1.toNat) entries =
      some best → best.2 = (UInt32.ofNat (votesFor votes best.1).length, (votesFor votes best.1).map LlmVote.model) →
      engine.resolve votes entries = ⟨best.1, UInt32.ofNat (votesFor votes best.1).length, UInt32.ofNat votes.length,
        share votes best.1, (votesFor votes best.1).map LlmVote.model,
        decide (engine.minAgreementRatio ≤ share votes best.1)⟩ := by
    rintro entries ⟨a, entry⟩ hbest heq
    dsimp only at heq ⊢
    subst heq
    rw [ConsensusEngine.resolve, if_neg hsome, maxBy_eq, compareOn_toNat, hbest, Option.getD_some]
    dsimp only
    rw [UInt32.toNat_ofNat', UInt32.toNat_ofNat']
    rfl
  constructor
  · rintro ⟨entries, hentries, rfl⟩
    obtain ⟨best, hbest⟩ := choice_of_votes UInt32.toNat hsome hentries
    obtain ⟨hout, heq, hmax⟩ := (hchoice best).mp ⟨entries, hentries, hbest⟩
    exact ⟨best.1, hout, hmax, hresult hbest heq⟩
  · rintro ⟨a, hout, hmax, rfl⟩
    obtain ⟨entries, hentries, hbest⟩ := (hchoice (a, UInt32.ofNat (votesFor votes a).length,
      (votesFor votes a).map LlmVote.model)).mpr ⟨hout, rfl, hmax⟩
    exact ⟨entries, hentries, hresult hbest rfl⟩

theorem resolvesWeighted_iff {engine : ConsensusEngine F} {votes : List (LlmVote F)} (hsome : votes ≠ [])
    (r : ConsensusResult F) : engine.ResolvesWeighted votes r ↔ ∃ a ∈ outputs votes,
      (∀ b ∈ outputs votes, weightFor votes b ≤ weightFor votes a) ∧
      r = ⟨a, UInt32.ofNat (votesFor votes a).length, UInt32.ofNat votes.length, weightShare votes a,
        (votesFor votes a).map LlmVote.model, decide (engine.minAgreementRatio ≤ weightShare votes a)⟩ := by
  have hchoice := exists_choice_iff weight (fun w => w) votes
  have hresult : ∀ {entries best}, Tally.choice (compareOn fun e : Str × F × List Str => e.2.1) entries = some best →
      best.2 = (weightFor votes best.1, (votesFor votes best.1).map LlmVote.model) →
      engine.resolveWeighted votes entries = ⟨best.1, UInt32.ofNat (votesFor votes best.1).length,
        UInt32.ofNat votes.length, weightShare votes best.1, (votesFor votes best.1).map LlmVote.model,
        decide (engine.minAgreementRatio ≤ weightShare votes best.1)⟩ := by
    rintro entries ⟨a, entry⟩ hbest heq
    dsimp only at heq ⊢
    subst heq
    rw [ConsensusEngine.resolveWeighted, if_neg hsome, maxBy_eq, hbest, Option.getD_some]
    dsimp only
    rw [List.length_map]
    rfl
  constructor
  · rintro ⟨entries, hentries, rfl⟩
    obtain ⟨best, hbest⟩ := choice_of_votes (fun w : F => w) hsome hentries
    obtain ⟨hout, heq, hmax⟩ := (hchoice best).mp ⟨entries, hentries, hbest⟩
    exact ⟨best.1, hout, hmax, hresult hbest heq⟩
  · rintro ⟨a, hout, hmax, rfl⟩
    obtain ⟨entries, hentries, hbest⟩ := (hchoice (a, weightFor votes a,
      (votesFor votes a).map LlmVote.model)).mpr ⟨hout, rfl, hmax⟩
    exact ⟨entries, hentries, hresult hbest rfl⟩

/-! ## Unambiguous runs -/

omit [Field F] [LinearOrder F] in
theorem perm_votesFor {votes votes' : List (LlmVote F)} (h : votes'.Perm votes) (o : Str) :
    (votesFor votes' o).Perm (votesFor votes o) := h.filter _

/-- What a run may report from the outputs that rank highest. -/
def Reports {T : Type} [LE T] (rank : List (LlmVote F) → Str → T) (ratio : List (LlmVote F) → Str → F) (threshold : F)
    (votes : List (LlmVote F)) (r : ConsensusResult F) : Prop :=
  ∃ a ∈ outputs votes, (∀ b ∈ outputs votes, rank votes b ≤ rank votes a) ∧
    r = ⟨a, UInt32.ofNat (votesFor votes a).length, UInt32.ofNat votes.length, ratio votes a,
      (votesFor votes a).map LlmVote.model, decide (threshold ≤ ratio votes a)⟩

omit [Field F] in
theorem unambiguous_iff {S T : Type} [LT S] [LinearOrder T] {support : List (LlmVote F) → Str → S}
    {rank : List (LlmVote F) → Str → T} {ratio : List (LlmVote F) → Str → F} {threshold : F}
    {resolves : List (LlmVote F) → ConsensusResult F → Prop}
    (hrun : ∀ {votes}, votes ≠ [] → ∀ r, resolves votes r ↔ Reports rank ratio threshold votes r)
    (hrank : ∀ {votes votes' : List (LlmVote F)}, votes'.Perm votes → rank votes' = rank votes)
    (hratio : ∀ {votes votes' : List (LlmVote F)}, votes'.Perm votes → ratio votes' = ratio votes)
    {votes : List (LlmVote F)} (hsome : votes ≠ []) :
    Unambiguous support resolves votes ↔ ∀ a ∈ outputs votes, (∀ b ∈ outputs votes, rank votes b ≤ rank votes a) →
      threshold ≤ ratio votes a → ∀ b ∈ outputs votes, b ≠ a →
        rank votes b < rank votes a ∧ support votes b < support votes a := by
  constructor
  · intro h a ha hmax hreached b hb hne
    obtain ⟨hsupport, hsame⟩ := h _ ((hrun hsome _).mpr ⟨a, ha, hmax, rfl⟩) (decide_eq_true hreached)
    refine ⟨?_, hsupport b hb hne⟩
    by_contra hlt
    -- The other output would be chosen in another order.
    have hmaxb : ∀ c ∈ outputs votes, rank votes c ≤ rank votes b := fun c hc => (hmax c hc).trans (le_of_not_gt hlt)
    exact hne (hsame votes _ (List.Perm.refl votes) ((hrun hsome _).mpr ⟨b, hb, hmaxb, rfl⟩)).1
  · intro h r hr hreached
    obtain ⟨a, ha, hmax, rfl⟩ := (hrun hsome r).mp hr
    have hdecided := h a ha hmax (of_decide_eq_true hreached)
    refine ⟨fun o ho hne => (hdecided o ho hne).2, fun votes' r' hperm hr' => ?_⟩
    have hsome' : votes' ≠ [] := fun hnil => hsome (List.nil_perm.mp (hnil ▸ hperm))
    obtain ⟨a', ha', hmax', rfl⟩ := (hrun hsome' r').mp hr'
    have houtputs : (outputs votes').Perm (outputs votes) := hperm.map _
    have heq : a' = a := by
      by_contra hne
      have hlt := (hdecided a' (houtputs.mem_iff.mp ha') hne).1
      have hle := hmax' a (houtputs.mem_iff.mpr ha)
      rw [hrank hperm] at hle
      exact absurd hlt hle.not_gt
    subst heq
    refine ⟨rfl, ?_, ?_, fun m => ((perm_votesFor hperm _).map _).mem_iff⟩
    · dsimp only
      rw [(perm_votesFor hperm _).length_eq]
    · dsimp only
      rw [hratio hperm]

omit [Field F] [LinearOrder F] in
theorem counter_of_perm {votes votes' : List (LlmVote F)} (h : votes'.Perm votes) : counter votes' = counter votes := by
  funext o
  rw [counter, counter, (perm_votesFor h o).length_eq]

omit [LinearOrder F] in
theorem share_of_perm {votes votes' : List (LlmVote F)} (h : votes'.Perm votes) : share votes' = share votes := by
  funext o
  rw [share, share, counter_of_perm h, h.length_eq]

theorem weightFor_of_perm {votes votes' : List (LlmVote F)} (h : votes'.Perm votes) :
    weightFor votes' = weightFor votes := funext fun o => ((perm_votesFor h o).map _).sum_eq

theorem weightShare_of_perm {votes votes' : List (LlmVote F)} (h : votes'.Perm votes) :
    weightShare votes' = weightShare votes := by
  funext o
  rw [weightShare, weightShare, weightFor_of_perm h, (h.map weight).sum_eq]

omit [Field F] [LinearOrder F] in
theorem unambiguous_nil {S : Type} [LT S] {support : List (LlmVote F) → Str → S}
    {resolves : List (LlmVote F) → ConsensusResult F → Prop}
    (h : ∀ r, resolves [] r → r.consensusReached = false) : Unambiguous support resolves [] :=
  fun r hr hreached => absurd hreached (by rw [h r hr]; decide)

/-- A consensus is unambiguous exactly when the greatest count, or weight, is either below the threshold's share or one
output's alone. -/
theorem unambiguous_exactly (engine : ConsensusEngine F) (votes : List (LlmVote F)) :
    (Unambiguous (fun votes o => (votesFor votes o).length) engine.Resolves votes ↔
      DecidedByCount engine.minAgreementRatio votes) ∧
    (Unambiguous weightFor engine.ResolvesWeighted votes ↔ DecidedByWeight engine.minAgreementRatio votes) := by
  by_cases hsome : votes = []
  · subst hsome
    refine ⟨iff_of_true (unambiguous_nil ?_) (fun a ha => absurd ha List.not_mem_nil),
      iff_of_true (unambiguous_nil ?_) (fun a ha => absurd ha List.not_mem_nil)⟩
    all_goals
      rintro r ⟨entries, -, rfl⟩
      rfl
  constructor
  · exact unambiguous_iff (fun hsome => resolves_iff hsome) counter_of_perm share_of_perm hsome
  · refine (unambiguous_iff (fun hsome => resolvesWeighted_iff hsome) weightFor_of_perm weightShare_of_perm
      hsome).trans ?_
    simp only [and_self]
    rfl

/-! ## A tie -/

def tied : List (LlmVote ℚ) := [⟨['a'], ['A'], 1⟩, ⟨['b'], ['B'], 1⟩]

/-- Two votes for two outputs are a consensus of half the votes. -/
theorem tied_ambiguous :
    ¬ Unambiguous (fun votes o => (votesFor votes o).length)
      (ConsensusEngine.new : ConsensusEngine ℚ).Resolves tied := by
  intro h
  have hrun := (@resolves_iff ℚ _ _ ConsensusEngine.new tied (by decide) _).mpr
    ⟨['A'], by decide, by decide, rfl⟩
  have hreached : ConsensusEngine.new.minAgreementRatio ≤ share tied ['A'] := by decide +kernel
  have hsupport := (h _ hrun (decide_eq_true hreached)).1 ['B'] (by decide) (by decide)
  exact absurd hsupport (by decide)

end

end Ccos.Consensus
