import Ccos.Session.Packing

/-!
# Compressed recall with feedback

What compression frees of the budget is spent on a larger recall. Each round compares the larger window
with the one it would replace.
-/

open Std

set_option linter.unusedSectionVars false

namespace Ccos

/-- What a feedback recall uses of a compressor: the pass over a window and the statistics it leaves. -/
structure Compressor (C F : Type) where
  compressWindow : C → List (WindowItem F) → List CompressedItem × C
  /-- The sum of `tokens_before` over `last_stats`. -/
  rawTokens : C → Nat
  clearStats : C → C

variable {C F : Type} [Scalar F]

open Scalar

def CausalCompressor.compressor (enc : Encoders F) : Compressor (CausalCompressor F) F where
  compressWindow := CausalCompressor.compressWindow enc
  rawTokens c := (c.lastStats.map (·.tokensBefore)).sum
  clearStats c := { c with lastStats := [] }

/-! ## One compressed recall -/

def RecallItem.toWindowItem (item : RecallItem F) : WindowItem F :=
  { kind := item.kind, score := item.score, uri := item.uri, content := item.content }

/-- The items with their compressed forms, as far as these go. -/
def withCompressed : List (RecallItem F) → List CompressedItem → List (RecallItem F)
  | item :: items, c :: cs => { item with content := c.content, ccrRef := c.ccrRef } :: withCompressed items cs
  | items, _ => items

def recallCompressed (k : Compressor C F) (recallAt : Nat → RecallWindow F) (budget : Nat) (c : C) :
    RecallWindow F × C :=
  let win := recallAt budget
  let compressed := k.compressWindow c (win.items.map RecallItem.toWindowItem)
  let tokens := (List.zipWith (fun _ (c : CompressedItem) => c.content.length / 4) win.items compressed.1).sum
  ({ win with items := withCompressed win.items compressed.1, tokens }, compressed.2)

/-! ## The rounds -/

/-- The window so far, its tokens at the last comparison, and the compressor. -/
structure Feedback (C F : Type) where
  win : RecallWindow F
  lastTokens : Nat
  compressor : C

def observedRatio (k : Compressor C F) (s : Feedback C F) : F :=
  if s.win.tokens > 0 then
    let raw := k.rawTokens s.compressor
    if raw = 0 then lit 1 else ofNat s.win.tokens / ofNat raw
  else lit 1

def grownBudget (k : Compressor C F) (asUsize : F → Nat) (budget : Nat) (s : Feedback C F) : Nat :=
  budget + asUsize (ofNat (budget - s.win.tokens) / observedRatio k s)

/-- The larger window of a round. -/
def larger (k : Compressor C F) (asUsize : F → Nat) (recallAt : Nat → RecallWindow F) (budget : Nat)
    (s : Feedback C F) : RecallWindow F × C :=
  recallCompressed k recallAt (grownBudget k asUsize budget s) (k.clearStats s.compressor)

/-- What a round takes over, with the tokens it compares with afterwards. -/
def accepted (budget : Nat) (win next : RecallWindow F) (lastTokens : Nat) : Option (RecallWindow F × Nat) :=
  if next.items.length > win.items.length ∧ next.tokens ≤ budget then some (next, lastTokens)
  else if next.items.length ≥ win.items.length ∧ next.tokens > lastTokens then some (next, next.tokens)
  else none

def feedbackRounds (k : Compressor C F) (asUsize : F → Nat) (recallAt : Nat → RecallWindow F) (budget : Nat) :
    Nat → Feedback C F → RecallWindow F × C
  | 0, s => (s.win, s.compressor)
  | rounds + 1, s =>
    if s.win.tokens ≥ budget then (s.win, s.compressor)
    else
      let next := larger k asUsize recallAt budget s
      match accepted budget s.win next.1 s.lastTokens with
      | none => (s.win, next.2)
      | some (win, lastTokens) =>
        if win.tokens = lastTokens then (win, next.2)
        else feedbackRounds k asUsize recallAt budget rounds ⟨win, win.tokens, next.2⟩

def recallCompressedWithFeedback (k : Compressor C F) (asUsize : F → Nat) (recallAt : Nat → RecallWindow F)
    (budget : Nat) (c : C) (maxRounds : Nat) : RecallWindow F × C :=
  let first := recallCompressed k recallAt budget c
  feedbackRounds k asUsize recallAt budget (max maxRounds 1 - 1) ⟨first.1, first.1.tokens, first.2⟩

/-! ## When the budget holds -/

/-- At every round, the larger window has fewer items than the one it would replace, or it fits. -/
def RoundsFit (k : Compressor C F) (asUsize : F → Nat) (recallAt : Nat → RecallWindow F) (budget : Nat) :
    Nat → Feedback C F → Prop
  | 0, _ => True
  | rounds + 1, s =>
    s.win.tokens < budget →
      let next := larger k asUsize recallAt budget s
      (next.1.items.length < s.win.items.length ∨ next.1.tokens ≤ budget) ∧
        (s.win.items.length < next.1.items.length → next.1.tokens ≠ s.win.tokens →
          RoundsFit k asUsize recallAt budget rounds ⟨next.1, next.1.tokens, next.2⟩)

/-- A round that takes the second way ends the loop, whatever the window costs. -/
theorem accepted_cases (budget : Nat) (win next : RecallWindow F) :
    (next.items.length > win.items.length ∧ next.tokens ≤ budget ∧
      accepted budget win next win.tokens = some (next, win.tokens)) ∨
    (¬ (next.items.length > win.items.length ∧ next.tokens ≤ budget) ∧ next.items.length ≥ win.items.length ∧
      next.tokens > win.tokens ∧ accepted budget win next win.tokens = some (next, next.tokens)) ∨
    (¬ (next.items.length > win.items.length ∧ next.tokens ≤ budget) ∧
      (next.items.length < win.items.length ∨ next.tokens ≤ win.tokens) ∧ accepted budget win next win.tokens = none) := by
  unfold accepted
  split
  · rename_i hmore
    exact Or.inl ⟨hmore.1, hmore.2, rfl⟩
  · rename_i hmore
    split
    · rename_i htokens
      exact Or.inr (Or.inl ⟨hmore, htokens.1, htokens.2, rfl⟩)
    · rename_i hneither
      exact Or.inr (Or.inr ⟨hmore, by omega, rfl⟩)

theorem feedbackRounds_le_iff (k : Compressor C F) (asUsize : F → Nat) (recallAt : Nat → RecallWindow F) (budget : Nat)
    (rounds : Nat) {s : Feedback C F} (hlast : s.lastTokens = s.win.tokens) (hfits : s.win.tokens ≤ budget) :
    (feedbackRounds k asUsize recallAt budget rounds s).1.tokens ≤ budget ↔
      RoundsFit k asUsize recallAt budget rounds s := by
  induction rounds generalizing s with
  | zero => exact iff_of_true hfits trivial
  | succ rounds ih =>
    unfold feedbackRounds RoundsFit
    dsimp only
    split
    · rename_i hfull
      exact iff_of_true hfits fun hlt => absurd hlt (Nat.not_lt.mpr hfull)
    · rename_i hspare
      have hlt : s.win.tokens < budget := Nat.lt_of_not_le hspare
      rw [hlast, forall_prop_of_true hlt]
      rcases accepted_cases budget s.win (larger k asUsize recallAt budget s).1 with
        ⟨hitems, hle, h⟩ | ⟨hmore, hitems, htokens, h⟩ | ⟨hmore, hneither, h⟩
      · rw [h]
        dsimp only
        split
        · rename_i hsame
          exact iff_of_true hle ⟨Or.inr hle, fun _ hne => absurd hsame hne⟩
        · rename_i hne
          rw [ih rfl hle]
          exact ⟨fun hrest => ⟨Or.inr hle, fun _ _ => hrest⟩, fun hall => hall.2 hitems hne⟩
      · -- The larger window is taken over without a look at the budget.
        rw [h]
        dsimp only
        rw [if_pos rfl]
        refine ⟨fun hle => ⟨Or.inr hle, fun hgrew => absurd ⟨hgrew, hle⟩ hmore⟩, ?_⟩
        rintro ⟨hfewer | hle, -⟩
        · omega
        · exact hle
      · rw [h]
        refine iff_of_true hfits ⟨?_, fun hgrew hne => absurd ⟨hgrew, ?_⟩ hmore⟩
        · omega
        · omega

/-- A feedback recall stays within its budget exactly when each larger window that does not lose items fits. -/
theorem feedback_within_budget_iff (k : Compressor C F) (asUsize : F → Nat) (recallAt : Nat → RecallWindow F)
    (budget : Nat) (c : C) (maxRounds : Nat) (hfirst : (recallCompressed k recallAt budget c).1.tokens ≤ budget) :
    (recallCompressedWithFeedback k asUsize recallAt budget c maxRounds).1.tokens ≤ budget ↔
      RoundsFit k asUsize recallAt budget (max maxRounds 1 - 1)
        ⟨(recallCompressed k recallAt budget c).1, (recallCompressed k recallAt budget c).1.tokens,
          (recallCompressed k recallAt budget c).2⟩ :=
  feedbackRounds_le_iff k asUsize recallAt budget _ rfl hfirst

/-! ## A window that overruns -/

/-- Every encoder leaves one line. -/
def oneLine : Encoders ℚ where
  sha256Hex s := s
  crush _ := "{..}".toList
  skeletonizeWith _ _ := "fn..".toList
  summarize _ _ _ := "....".toList

def withoutDedup : CausalCompressor ℚ := .withConfig { CompressorConfig.default with enableDedup := false }

/-- One long symbol and three that are too short to compress. -/
def fourSymbols : MemoryGraph ℚ :=
  MemoryGraph.ofEdges ["sym:src/parser.rs:parse_expression_statement".toList, "sym:src/scan.rs:next_token".toList,
    "sym:src/type.rs:unify_vars".toList, "sym:src/walk.rs:visit_stmt".toList] []

def recallSymbols (budget : Nat) : RecallWindow ℚ :=
  assembleWindow plainPacking fourSymbols "working-set".toList fourSymbols.ids budget none none

/-- The first window costs one token of eleven, the one that replaces it nineteen. -/
theorem feedback_overruns :
    (recallCompressed (CausalCompressor.compressor oneLine) recallSymbols 11 withoutDedup).1.tokens ≤ 11 ∧
    (recallCompressedWithFeedback (CausalCompressor.compressor oneLine) plainPacking.asUsize recallSymbols 11
      withoutDedup 3).1.tokens = 19 := by
  decide +kernel

theorem rounds_fit_on_a_larger_budget :
    RoundsFit (CausalCompressor.compressor oneLine) plainPacking.asUsize recallSymbols 30 2
      ⟨(recallCompressed (CausalCompressor.compressor oneLine) recallSymbols 30 withoutDedup).1,
        (recallCompressed (CausalCompressor.compressor oneLine) recallSymbols 30 withoutDedup).1.tokens,
        (recallCompressed (CausalCompressor.compressor oneLine) recallSymbols 30 withoutDedup).2⟩ :=
  (feedback_within_budget_iff _ _ _ 30 _ 3 (by decide +kernel)).mp (by decide +kernel)

end Ccos
