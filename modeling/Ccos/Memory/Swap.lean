import Ccos.Memory.Facts

/-!
# What paging to disk touches

The three budgets are loops over single moves of one COLD entry. A property that every move keeps is
kept by all of paging to disk, whatever the budgets are.
-/

open Std

set_option linter.unusedSectionVars false

namespace Ccos.MemoryGraph

variable {F : Type} [Scalar F]

/-! ## The moves of a COLD entry -/

/-- `P` is kept by every move that enforcing a budget makes. -/
structure KeptByMoves (h : Host F) (P : MemoryGraph F → Prop) : Prop where
  fill : ∀ g, P g → P g.fillScoreCaches
  content : ∀ (g : MemoryGraph F) (id : NodeId) (c : ColdNode F),
    P g → g.cold[id]? = some c → c.spill = none → P (g.spillContent h id c)
  husk : ∀ (g : MemoryGraph F) (id : NodeId) (c entry : ColdNode F),
    P g → g.cold[id]? = some c → g.foldInline h c = some entry → g.huskStore.isSome →
      P (g.deepSpill h id c entry)
  stray : ∀ (g : MemoryGraph F) (id : NodeId) (c entry : ColdNode F),
    P g → g.cold[id]? = some c → g.foldInline h c = some entry → P (g.spillPut h (h.printCold entry))
  floor : ∀ (g : MemoryGraph F) (id : NodeId) (c : ColdNode F),
    P g → g.cold[id]? = some c → P { g with cold := g.cold.insert id { c with atFloor := true } }
  compact : ∀ (g : MemoryGraph F) (id : NodeId) (c : ColdNode F) (content : Str) (len : Nat)
      (hash : Option Hash),
    P g → g.cold[id]? = some c → g.materialise h c = some (content, len, hash) →
      P (g.compactEntry id c (h.compactContent c.node.nodeType.debug content) hash)

namespace KeptByMoves

variable {h : Host F} {P Q : MemoryGraph F → Prop}

theorem and (hP : KeptByMoves h P) (hQ : KeptByMoves h Q) : KeptByMoves h fun g => P g ∧ Q g where
  fill g hg := ⟨hP.fill g hg.1, hQ.fill g hg.2⟩
  content g id c hg hc hs := ⟨hP.content g id c hg.1 hc hs, hQ.content g id c hg.2 hc hs⟩
  husk g id c entry hg hc he hh := ⟨hP.husk g id c entry hg.1 hc he hh, hQ.husk g id c entry hg.2 hc he hh⟩
  stray g id c entry hg hc he := ⟨hP.stray g id c entry hg.1 hc he, hQ.stray g id c entry hg.2 hc he⟩
  floor g id c hg hc := ⟨hP.floor g id c hg.1 hc, hQ.floor g id c hg.2 hc⟩
  compact g id c content len hash hg hc hm :=
    ⟨hP.compact g id c content len hash hg.1 hc hm, hQ.compact g id c content len hash hg.2 hc hm⟩

theorem rank (hP : KeptByMoves h P) {g : MemoryGraph F} (hg : P g)
    (candidates : List (NodeId × GraphNode F)) : P (g.rank candidates).2 := by
  unfold MemoryGraph.rank
  split
  · exact hg
  · exact hP.fill g hg

theorem spillLoop (hP : KeptByMoves h P) (budget : Nat) (order : List NodeId) :
    ∀ (resident : Nat) (g : MemoryGraph F), P g → P (spillLoop h budget order resident g) := by
  induction order with
  | nil => exact fun _ _ hg => hg
  | cons id order ih =>
    intro resident g hg
    unfold MemoryGraph.spillLoop
    split
    · exact hg
    · split
      · exact ih _ g hg
      · rename_i c hc
        split
        · exact ih _ g hg
        · rename_i hinline
          exact ih _ _ (hP.content g id c hg hc (by simpa using hinline))

theorem deepSpillLoop (hP : KeptByMoves h P) (budget : Nat) (order : List NodeId) :
    ∀ (resident : Nat) (g : MemoryGraph F), P g → P (deepSpillLoop h budget order resident g) := by
  induction order with
  | nil => exact fun _ _ hg => hg
  | cons id order ih =>
    intro resident g hg
    unfold MemoryGraph.deepSpillLoop
    split
    · exact hg
    · split
      · exact ih _ g hg
      · rename_i c hc
        dsimp only
        split
        · exact ih _ g hg
        · split
          · exact ih _ g hg
          · rename_i entry hentry
            split
            · exact ih _ _ (hP.stray g id c entry hg hc hentry)
            · rename_i hhusks
              exact ih _ _ (hP.husk g id c entry hg hc hentry (by simpa [Option.isSome_iff_ne_none] using hhusks))

theorem compactLoop (hP : KeptByMoves h P) (budget : Nat) (order : List NodeId) :
    ∀ (total : Nat) (g : MemoryGraph F), P g → P (compactLoop h budget order total g) := by
  induction order with
  | nil => exact fun _ _ hg => hg
  | cons id order ih =>
    intro total g hg
    unfold MemoryGraph.compactLoop
    split
    · exact hg
    · split
      · exact ih _ g hg
      · rename_i c hc
        split
        · exact ih _ g hg
        · split
          · exact ih _ g hg
          · rename_i content len hash hmat
            dsimp only
            split
            · exact ih _ _ (hP.floor g id c hg hc)
            · exact ih _ _ (hP.compact g id c content len hash hg hc hmat)

theorem enforceColdBudget (hP : KeptByMoves h P) {g : MemoryGraph F} (hg : P g) :
    P (g.enforceColdBudget h) := by
  unfold MemoryGraph.enforceColdBudget
  split
  · exact hg
  · split
    · exact hg
    · exact hP.spillLoop _ _ _ _ (hP.rank hg _)

theorem enforceColdResidentBudget (hP : KeptByMoves h P) {g : MemoryGraph F} (hg : P g) :
    P (g.enforceColdResidentBudget h) := by
  unfold MemoryGraph.enforceColdResidentBudget
  split
  · split
    · exact hg
    · exact hP.deepSpillLoop _ _ _ _ (hP.rank hg _)
  · exact hg

theorem enforceColdContentBudget (hP : KeptByMoves h P) {g : MemoryGraph F} (hg : P g) :
    P (g.enforceColdContentBudget h) := by
  unfold MemoryGraph.enforceColdContentBudget
  split
  · exact hg
  · split
    · exact hg
    · exact hP.compactLoop _ _ _ _ (hP.rank hg _)

theorem enforceColdBudgets (hP : KeptByMoves h P) {g : MemoryGraph F} (hg : P g) :
    P (g.enforceColdBudgets h) :=
  hP.enforceColdResidentBudget (hP.enforceColdBudget (hP.enforceColdContentBudget hg))

end KeptByMoves

/-! ## The frame -/

/-- A step inside the COLD tier. Scoring its candidates may fill the centrality caches. -/
def ColdFrame (g g' : MemoryGraph F) : Prop :=
  ∃ cold spill huskStore radj indegreeCache eigencentralityCache,
    g' = { g with cold, spill, huskStore, radj, indegreeCache, eigencentralityCache }

namespace ColdFrame

theorem refl (g : MemoryGraph F) : ColdFrame g g := ⟨_, _, _, _, _, _, rfl⟩

theorem trans {a b c : MemoryGraph F} : ColdFrame a b → ColdFrame b c → ColdFrame a c := by
  rintro ⟨_, _, _, _, _, _, rfl⟩ ⟨_, _, _, _, _, _, rfl⟩
  exact ⟨_, _, _, _, _, _, rfl⟩

theorem nodes {g g' : MemoryGraph F} : ColdFrame g g' → g'.nodes = g.nodes := by
  rintro ⟨_, _, _, _, _, _, rfl⟩
  rfl

theorem edges {g g' : MemoryGraph F} : ColdFrame g g' → g'.edges = g.edges := by
  rintro ⟨_, _, _, _, _, _, rfl⟩
  rfl

end ColdFrame

theorem spillRemove_frame (g : MemoryGraph F) (hash : Hash) : ColdFrame g (g.spillRemove hash) :=
  ⟨_, _, _, _, _, _, rfl⟩

theorem releaseContentBlobIfOrphan_frame (g : MemoryGraph F) (hash : Hash) :
    ColdFrame g (g.releaseContentBlobIfOrphan hash) := by
  unfold releaseContentBlobIfOrphan
  split
  · exact ColdFrame.refl g
  · exact spillRemove_frame g hash

theorem releaseBlobIfOrphan_frame (g : MemoryGraph F) (hash : Hash) :
    ColdFrame g (g.releaseBlobIfOrphan hash) := by
  unfold releaseBlobIfOrphan
  split
  · exact ColdFrame.refl g
  · exact spillRemove_frame g hash

theorem deepGet_frame (g : MemoryGraph F) (id : NodeId) : ColdFrame g (g.deepGet id).2 := by
  unfold deepGet
  split
  · exact ColdFrame.refl g
  · exact ⟨_, _, _, _, _, _, rfl⟩

theorem forgetFull_frame (g : MemoryGraph F) (id : NodeId) : ColdFrame g (g.forgetFull id).1 := by
  have hdrop : ColdFrame g (g.dropCold id) := ⟨_, _, _, _, _, _, rfl⟩
  unfold forgetFull
  split
  · exact ColdFrame.refl g
  · split
    · exact hdrop.trans (releaseContentBlobIfOrphan_frame _ _)
    · exact hdrop

theorem forgetHusk_frame (g : MemoryGraph F) (id : NodeId) : ColdFrame g (g.forgetHusk id).1 := by
  have hget := g.deepGet_frame id
  unfold forgetHusk
  generalize g.deepGet id = read at hget
  obtain ⟨husk, g'⟩ := read
  cases husk with
  | none => exact hget
  | some husk =>
    have hdelete : ColdFrame g' (g'.deepDelete id) := ⟨_, _, _, _, _, _, rfl⟩
    exact hget.trans (hdelete.trans (releaseBlobIfOrphan_frame _ _))

theorem forgetColdShadow_frame (g : MemoryGraph F) (id : NodeId) : ColdFrame g (g.forgetColdShadow id) := by
  have hboth := (g.forgetFull_frame id).trans (forgetHusk_frame _ id)
  exact hboth.trans ⟨_, _, _, _, _, _, rfl⟩

theorem forgetColdShadow_nodes (g : MemoryGraph F) (id : NodeId) : (g.forgetColdShadow id).nodes = g.nodes :=
  (forgetColdShadow_frame g id).nodes

theorem coldFrame_moves (h : Host F) (g : MemoryGraph F) : KeptByMoves h (ColdFrame g) where
  fill _ hg := hg.trans ⟨_, _, _, _, _, _, rfl⟩
  content _ _ _ hg _ _ := hg.trans ⟨_, _, _, _, _, _, rfl⟩
  husk g' id c entry hg _ _ _ := by
    refine hg.trans ?_
    unfold deepSpill
    dsimp only
    split
    · exact ColdFrame.trans ⟨_, _, _, _, _, _, rfl⟩ (releaseContentBlobIfOrphan_frame _ _)
    · exact ⟨_, _, _, _, _, _, rfl⟩
  stray _ _ _ _ hg _ _ := hg.trans ⟨_, _, _, _, _, _, rfl⟩
  floor _ _ _ hg _ := hg.trans ⟨_, _, _, _, _, _, rfl⟩
  compact g' id c content len hash hg _ _ := by
    refine hg.trans ?_
    unfold compactEntry
    dsimp only
    split
    · exact ColdFrame.trans ⟨_, _, _, _, _, _, rfl⟩ (releaseContentBlobIfOrphan_frame _ _)
    · exact ⟨_, _, _, _, _, _, rfl⟩

/-- What every step inside the COLD tier keeps, every move keeps. -/
theorem KeptByMoves.of_frame {h : Host F} {P : MemoryGraph F → Prop}
    (cold : ∀ g g', ColdFrame g g' → P g → P g') : KeptByMoves h P where
  fill g hg := cold g _ ((coldFrame_moves h g).fill g (ColdFrame.refl g)) hg
  content g id c hg hc hs := cold g _ ((coldFrame_moves h g).content g id c (ColdFrame.refl g) hc hs) hg
  husk g id c entry hg hc he hh :=
    cold g _ ((coldFrame_moves h g).husk g id c entry (ColdFrame.refl g) hc he hh) hg
  stray g id c entry hg hc he := cold g _ ((coldFrame_moves h g).stray g id c entry (ColdFrame.refl g) hc he) hg
  floor g id c hg hc := cold g _ ((coldFrame_moves h g).floor g id c (ColdFrame.refl g) hc) hg
  compact g id c content len hash hg hc hm :=
    cold g _ ((coldFrame_moves h g).compact g id c content len hash (ColdFrame.refl g) hc hm) hg

theorem enforceColdBudgets_frame (h : Host F) (g : MemoryGraph F) :
    ColdFrame g (g.enforceColdBudgets h) :=
  (coldFrame_moves h g).enforceColdBudgets (ColdFrame.refl g)

theorem faultDeep_frame (h : Host F) (g : MemoryGraph F) (id : NodeId) :
    ColdFrame g (g.faultDeep h id).1 := by
  have hget := g.deepGet_frame id
  unfold faultDeep
  generalize g.deepGet id = read at hget
  obtain ⟨husk, g'⟩ := read
  cases husk with
  | none => exact hget
  | some husk =>
    dsimp only
    split
    · exact hget
    · refine hget.trans (ColdFrame.trans ⟨_, _, _, _, _, _, rfl⟩ (releaseBlobIfOrphan_frame _ _))

theorem faultContent_frame (h : Host F) (g : MemoryGraph F) (id : NodeId) :
    ColdFrame g (g.faultContent h id).1 := by
  unfold faultContent
  split
  · exact ColdFrame.refl g
  · split
    · exact ColdFrame.refl g
    · exact ColdFrame.trans ⟨_, _, _, _, _, _, rfl⟩ (releaseContentBlobIfOrphan_frame _ _)

/-! ## Paging out and in -/

/-- What the budgets, every demotion and every prune keep, paging out keeps. -/
theorem enforcePaging_of_moves {h : Host F} {P : MemoryGraph F → Prop} {g : MemoryGraph F}
    (moves : KeptByMoves h P) (demote : ∀ g id, P g → P (g.demote id))
    (prune : ∀ g, P g → P g.pruneDanglingEdges) (start : P g) : P (g.enforcePaging h) := by
  have hfold : ∀ (ids : List NodeId) g, P g → P (ids.foldl MemoryGraph.demote g) := by
    intro ids
    induction ids with
    | nil => exact fun _ hp => hp
    | cons a ids ih => exact fun g hp => ih _ (demote g a hp)
  unfold enforcePaging
  split
  · exact start
  · exact moves.enforceColdBudgets (prune _ (hfold _ _ (moves.fill g start)))

/-- What the two faults, the restore and paging out keep, a page-in keeps. -/
theorem pageIn_of_moves {h : Host F} {P : MemoryGraph F → Prop} {g : MemoryGraph F}
    (moves : KeptByMoves h P) (demote : ∀ g id, P g → P (g.demote id))
    (prune : ∀ g, P g → P g.pruneDanglingEdges)
    (deep : ∀ (g : MemoryGraph F) id, P g → P (g.faultDeep h id).1)
    (content : ∀ (g : MemoryGraph F) id, P g → P (g.faultContent h id).1)
    (restore : ∀ (g : MemoryGraph F) id c, P g → g.cold[id]? = some c → P (g.restore id c))
    (start : P g) (id : NodeId) : P (g.pageIn h id).1 := by
  have hdeep := deep g id start
  unfold pageIn
  generalize g.faultDeep h id = faulted at hdeep
  obtain ⟨g₁, ok⟩ := faulted
  cases ok with
  | false => exact hdeep
  | true =>
    have hcontent := content g₁ id hdeep
    dsimp only
    generalize g₁.faultContent h id = faulted at hcontent
    obtain ⟨g₂, ok⟩ := faulted
    cases ok with
    | false => exact hcontent
    | true =>
      dsimp only
      split
      · exact hcontent
      · rename_i c hc
        refine moves.enforceColdBudgets (prune _ ?_)
        exact makeRoom_induct id moves.fill (fun g v hg _ _ => demote g v hg) _ _ (restore g₂ id c hcontent hc)

end Ccos.MemoryGraph
