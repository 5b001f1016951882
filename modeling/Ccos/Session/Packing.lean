import Ccos.Query.Walk
import Ccos.Compress.Window
import Ccos.Region.Engine
import Mathlib.Data.Prod.Lex

/-!
# Packing a recall window

The nodes are scored, sorted and packed in that order. Without a quota packing stops at the first item
that does not fit. With one it skips what does not fit. The first item is always taken.
-/

open Std

set_option linter.unusedSectionVars false

namespace Ccos

structure RecallItem (F : Type) where
  uri : Str
  score : F
  kind : Str
  content : Str
  ccrRef : Option CcrRef
  deriving DecidableEq

structure RecallWindow (F : Type) where
  strategy : Str
  items : List (RecallItem F)
  tokens : Nat
  deriving DecidableEq

/-- What packing takes from outside: the configured share of one file, and `as usize`. -/
structure PackConfig (F : Type) where
  recallFileCap : F
  asUsize : F → Nat

/-- The hops from the anchor, the decay of a hop, and the radius. -/
structure Proximity (F : Type) where
  dist : BTreeMap NodeId Nat
  decay : F
  maxHops : Nat

section

variable {F : Type} [Scalar F]

open Scalar

/-! ## Scoring -/

/-- The item of a resident node. Hop counts are far from the bounds of `i32`. -/
def recallItem (g : MemoryGraph F) (proximity : Option (Proximity F)) (lsa : Option (BTreeMap NodeId F)) (id : NodeId) :
    Option (RecallItem F) :=
  (g.nodes[id]?).map fun node =>
    let causal := g.computeNodeScore node
    let near := match proximity with
      | some p => causal * powi p.decay ((p.dist[id]?).getD (p.maxHops + 1))
      | none => causal
    let score := match lsa.bind fun m => m[id]? with
      | some sim => near * (lit 1 + lit 3 * Scalar.max sim (lit 0))
      | none => near
    { uri := id, score, kind := node.nodeType.debug, content := node.content, ccrRef := none }

/-- The items of the ids, each id once. Dependency hubs are left out. -/
def scoreIds (item : NodeId → Option (RecallItem F)) : List NodeId → List NodeId → List (RecallItem F)
  | _, [] => []
  | seen, id :: rest =>
    if id ∈ seen then scoreIds item seen rest
    else
      (if startsWith "dep:".toList id then none else item id).toList ++ scoreIds item (id :: seen) rest

/-- Highest score first, then by uri. -/
def itemOrder (a b : RecallItem F) : Ordering :=
  ((partialCmp b.score a.score).getD .eq).then (compare a.uri b.uri)

/-! ## Packing -/

structure Packed (F : Type) where
  items : List (RecallItem F)
  tokens : Nat
  seenContent : List Str
  perFile : BTreeMap Str Nat

def RecallItem.estimate (item : RecallItem F) : Nat := item.content.length / 4

def Packed.empty : Packed F := { items := [], tokens := 0, seenContent := [], perFile := ∅ }

def Packed.used (p : Packed F) (file : Str) : Nat := (p.perFile[file]?).getD 0

def Packed.take (p : Packed F) (item : RecallItem F) : Packed F :=
  { p with items := p.items ++ [item], tokens := p.tokens + item.estimate }

/-- `seen_content.insert`. -/
def Packed.see (p : Packed F) (item : RecallItem F) : Packed F :=
  { p with seenContent := item.content :: p.seenContent }

/-- Charges an item to the quota of its file. -/
def Packed.charge (p : Packed F) (item : RecallItem F) : Packed F :=
  { p with perFile := p.perFile.insert (fileOf item.uri) (p.used (fileOf item.uri) + item.estimate) }

def pack (budget : Nat) (fileCap : Option Nat) : Packed F → List (RecallItem F) → Packed F
  | p, [] => p
  | p, item :: rest =>
    if (trim item.content).isEmpty || item.content ∈ p.seenContent then pack budget fileCap p rest
    else
      let p := p.see item
      let tooLarge := budget < p.tokens + item.estimate && !p.items.isEmpty
      match fileCap with
      | some cap =>
        if !p.items.isEmpty && cap < p.used (fileOf item.uri) + item.estimate then pack budget fileCap p rest
        else if tooLarge then pack budget fileCap p rest
        else pack budget fileCap ((p.charge item).take item) rest
      | none => if tooLarge then p else pack budget fileCap (p.take item) rest

/-- The quota of one file. It only applies to an anchored recall. -/
def fileCap (config : PackConfig F) (budget : Nat) (proximity : Option (Proximity F)) : Option Nat :=
  proximity.map fun _ => config.asUsize (ofNat budget * config.recallFileCap)

def scoredItems (g : MemoryGraph F) (ids : List NodeId) (proximity : Option (Proximity F))
    (lsa : Option (BTreeMap NodeId F)) : List (RecallItem F) := scoreIds (recallItem g proximity lsa) [] ids

def assembleWindow (config : PackConfig F) (g : MemoryGraph F) (strategy : Str) (ids : List NodeId) (budget : Nat)
    (proximity : Option (Proximity F)) (lsa : Option (BTreeMap NodeId F)) : RecallWindow F :=
  let scored := sortBy itemOrder (scoredItems g ids proximity lsa)
  let packed := pack budget (fileCap config budget proximity) Packed.empty scored
  { strategy, items := packed.items, tokens := packed.tokens }

/-! ## The uris -/

theorem uri_recallItem {g : MemoryGraph F} {proximity : Option (Proximity F)} {lsa : Option (BTreeMap NodeId F)}
    {id : NodeId} {item : RecallItem F} (h : recallItem g proximity lsa id = some item) : item.uri = id := by
  unfold recallItem at h
  obtain ⟨node, -, rfl⟩ := Option.map_eq_some_iff.mp h
  rfl

/-- No two items have one uri, as each id is scored once. -/
theorem uris_scoreIds {item : NodeId → Option (RecallItem F)} (hitem : ∀ id x, item id = some x → x.uri = id)
    (ids seen : List NodeId) :
    ((scoreIds item seen ids).map (·.uri)).Nodup ∧ ∀ x ∈ scoreIds item seen ids, x.uri ∉ seen := by
  induction ids generalizing seen with
  | nil => exact ⟨List.nodup_nil, by simp [scoreIds]⟩
  | cons id rest ih =>
    unfold scoreIds
    split
    · exact ih seen
    · rename_i hnew
      obtain ⟨hnodup, hout⟩ := ih (id :: seen)
      have hrest : ∀ x ∈ scoreIds item (id :: seen) rest, x.uri ≠ id ∧ x.uri ∉ seen := fun x hx =>
        ⟨fun heq => hout x hx (heq ▸ List.mem_cons_self), fun hin => hout x hx (List.mem_cons_of_mem _ hin)⟩
      cases hfound : (if startsWith "dep:".toList id then none else item id) with
      | none => exact ⟨hnodup, fun x hx => (hrest x hx).2⟩
      | some x =>
        have huri : x.uri = id := by
          split at hfound
          · exact absurd hfound nofun
          · exact hitem id x hfound
        refine ⟨?_, ?_⟩
        · rw [Option.toList_some, List.singleton_append, List.map_cons, List.nodup_cons]
          refine ⟨fun hin => ?_, hnodup⟩
          obtain ⟨y, hy, heq⟩ := List.mem_map.mp hin
          exact (hrest y hy).1 (heq.trans huri)
        · intro y hy
          rw [Option.toList_some, List.singleton_append] at hy
          rcases List.mem_cons.mp hy with rfl | hy
          · exact huri ▸ hnew
          · exact (hrest y hy).2

/-! ## The bounds -/

/-- The estimate of all items of a file. -/
def fileTokens (items : List (RecallItem F)) (file : Str) : Nat :=
  ((items.filter fun x => fileOf x.uri = file).map RecallItem.estimate).sum

/-- A file is within its quota, or it is there with the first item of the window and nothing else. -/
def WithinQuota (cap : Nat) (items : List (RecallItem F)) (file : Str) : Prop :=
  fileTokens items file ≤ cap ∨
    ∃ first, items.head? = some first ∧ items.filter (fun x => fileOf x.uri = file) = [first]

/-- What packing keeps. -/
structure Fits (budget : Nat) (fileCap : Option Nat) (p : Packed F) : Prop where
  tokens : p.tokens = (p.items.map RecallItem.estimate).sum
  bounded : p.tokens ≤ budget ∨ p.items.length = 1
  seen : ∀ x ∈ p.items, x.content ∈ p.seenContent
  distinct : (p.items.map (·.content)).Nodup
  filled : ∀ x ∈ p.items, trim x.content ≠ []
  charged : ∀ cap, fileCap = some cap → ∀ file, p.used file = fileTokens p.items file
  quota : ∀ cap, fileCap = some cap → ∀ file, WithinQuota cap p.items file

theorem fits_empty (budget : Nat) (fileCap : Option Nat) : Fits budget fileCap (Packed.empty : Packed F) where
  tokens := rfl
  bounded := Or.inl (Nat.zero_le _)
  seen := by simp [Packed.empty]
  distinct := List.nodup_nil
  filled := by simp [Packed.empty]
  charged _ _ file := by simp [Packed.empty, Packed.used, fileTokens]
  quota _ _ file := Or.inl (Nat.zero_le _)

theorem Fits.see {budget : Nat} {fileCap : Option Nat} {p : Packed F} (h : Fits budget fileCap p) (item : RecallItem F) :
    Fits budget fileCap (p.see item) :=
  ⟨h.tokens, h.bounded, fun x hx => List.mem_cons_of_mem _ (h.seen x hx), h.distinct, h.filled, h.charged, h.quota⟩

theorem fileTokens_append (items : List (RecallItem F)) (item : RecallItem F) (file : Str) :
    fileTokens (items ++ [item]) file =
      fileTokens items file + if fileOf item.uri = file then item.estimate else 0 := by
  unfold fileTokens
  rw [List.filter_append, List.map_append, List.sum_append]
  split <;> simp [*]

/-- An item within the quota leaves every file within it. -/
theorem WithinQuota.append {cap : Nat} {items : List (RecallItem F)} {item : RecallItem F}
    (h : ∀ file, WithinQuota cap items file)
    (hroom : items = [] ∨ fileTokens items (fileOf item.uri) + item.estimate ≤ cap) (file : Str) :
    WithinQuota cap (items ++ [item]) file := by
  by_cases hfile : fileOf item.uri = file
  · rcases hroom with rfl | hroom
    · refine Or.inr ⟨item, rfl, ?_⟩
      simp [hfile]
    · left
      rw [fileTokens_append, if_pos hfile, ← hfile]
      exact hroom
  · have hfilter : (items ++ [item]).filter (fun x => fileOf x.uri = file) = items.filter fun x => fileOf x.uri = file := by
      rw [List.filter_append]
      simp [hfile]
    rcases h file with hle | ⟨first, hhead, honly⟩
    · left
      rwa [fileTokens_append, if_neg hfile, Nat.add_zero]
    · refine Or.inr ⟨first, ?_, hfilter.trans honly⟩
      rw [List.head?_append, hhead]
      rfl

/-- The first item, or one within the budget and the quota of its file. -/
structure Room (budget : Nat) (fileCap : Option Nat) (p : Packed F) (item : RecallItem F) : Prop where
  filled : trim item.content ≠ []
  fresh : item.content ∉ p.seenContent
  budget : p.items = [] ∨ p.tokens + item.estimate ≤ budget
  quota : ∀ cap, fileCap = some cap → p.items = [] ∨ p.used (fileOf item.uri) + item.estimate ≤ cap

/-- What an admitted item leaves, charged to its file when there is a quota. -/
theorem Fits.admitted {budget : Nat} {fileCap : Option Nat} {p q : Packed F} {item : RecallItem F}
    (h : Fits budget fileCap p) (hroom : Room budget fileCap p item) (hitems : q.items = p.items ++ [item])
    (htokens : q.tokens = p.tokens + item.estimate) (hseen : q.seenContent = item.content :: p.seenContent)
    (hcharged : ∀ cap, fileCap = some cap → ∀ file,
      q.used file = p.used file + if fileOf item.uri = file then item.estimate else 0) : Fits budget fileCap q where
  tokens := by
    rw [htokens, hitems, h.tokens]
    simp
  bounded := by
    rw [htokens, hitems]
    rcases hroom.budget with hnil | hle
    · right
      rw [hnil]
      rfl
    · exact Or.inl hle
  seen x hx := by
    rw [hitems] at hx
    rw [hseen]
    rcases List.mem_append.mp hx with hx | hx
    · exact List.mem_cons_of_mem _ (h.seen x hx)
    · rw [List.mem_singleton] at hx
      exact hx ▸ List.mem_cons_self
  distinct := by
    rw [hitems, List.map_append, List.nodup_append]
    refine ⟨h.distinct, List.nodup_singleton _, ?_⟩
    rintro c hc d hd rfl
    obtain ⟨x, hx, rfl⟩ := List.mem_map.mp hc
    obtain ⟨y, hy, heq⟩ := List.mem_map.mp hd
    rw [List.mem_singleton] at hy
    subst hy
    exact hroom.fresh (heq ▸ h.seen x hx)
  filled x hx := by
    rw [hitems] at hx
    rcases List.mem_append.mp hx with hx | hx
    · exact h.filled x hx
    · rw [List.mem_singleton] at hx
      exact hx ▸ hroom.filled
  charged cap hcap file := by
    rw [hcharged cap hcap, h.charged cap hcap, hitems, fileTokens_append]
  quota cap hcap file := by
    rw [hitems]
    refine WithinQuota.append (h.quota cap hcap) ?_ file
    rw [← h.charged cap hcap]
    exact hroom.quota cap hcap

theorem fits_pack {budget : Nat} {fileCap : Option Nat} (items : List (RecallItem F)) {p : Packed F}
    (h : Fits budget fileCap p) : Fits budget fileCap (pack budget fileCap p items) := by
  induction items generalizing p with
  | nil => exact h
  | cons item rest ih =>
    unfold pack
    split
    · exact ih h
    · rename_i hnew
      simp only [Bool.or_eq_true, List.isEmpty_iff, decide_eq_true_eq, not_or] at hnew
      have hsee := h.see item
      dsimp only
      split
      · rename_i cap
        split
        · exact ih hsee
        · rename_i hquota
          split
          · exact ih hsee
          · rename_i hover
            refine ih (h.admitted ⟨hnew.1, hnew.2, ?_, ?_⟩ rfl rfl rfl ?_)
            · by_cases hnil : p.items = []
              · exact Or.inl hnil
              · right
                have hsome : (!p.items.isEmpty) = true := by simpa using hnil
                rw [Bool.and_eq_true, decide_eq_true_eq] at hover
                exact Nat.not_lt.mp fun hlt => hover ⟨hlt, hsome⟩
            · intro cap' hcap
              obtain rfl := Option.some.inj hcap
              by_cases hnil : p.items = []
              · exact Or.inl hnil
              · right
                have hsome : (!p.items.isEmpty) = true := by simpa using hnil
                rw [Bool.and_eq_true, decide_eq_true_eq] at hquota
                exact Nat.not_lt.mp fun hlt => hquota ⟨hsome, hlt⟩
            · intro cap' _ file
              change ((p.perFile.insert (fileOf item.uri) (p.used (fileOf item.uri) + item.estimate))[file]?).getD 0 = _
              rw [getElem?_insert_eq]
              split
              · rename_i heq
                subst heq
                rw [if_pos rfl]
                rfl
              · rename_i hne
                rw [if_neg fun heq => hne heq.symm]
                rfl
      · split
        · exact hsee
        · rename_i hover
          refine ih (h.admitted ⟨hnew.1, hnew.2, ?_, nofun⟩ rfl rfl rfl nofun)
          by_cases hnil : p.items = []
          · exact Or.inl hnil
          · right
            have hsome : (!p.items.isEmpty) = true := by simpa using hnil
            rw [Bool.and_eq_true, decide_eq_true_eq] at hover
            exact Nat.not_lt.mp fun hlt => hover ⟨hlt, hsome⟩

/-! ## The order -/

/-- Packing drops items and moves none. -/
theorem pack_sublist (budget : Nat) (fileCap : Option Nat) (items : List (RecallItem F)) (p : Packed F) :
    ∃ taken, (pack budget fileCap p items).items = p.items ++ taken ∧ taken.Sublist items := by
  induction items generalizing p with
  | nil => exact ⟨[], (List.append_nil _).symm, List.Sublist.refl _⟩
  | cons item rest ih =>
    have hskip : ∀ q : Packed F, q.items = p.items → ∃ taken,
        (pack budget fileCap q rest).items = p.items ++ taken ∧ taken.Sublist (item :: rest) := by
      intro q hq
      obtain ⟨taken, heq, hsub⟩ := ih q
      exact ⟨taken, hq ▸ heq, hsub.cons _⟩
    have htake : ∀ q : Packed F, q.items = p.items ++ [item] → ∃ taken,
        (pack budget fileCap q rest).items = p.items ++ taken ∧ taken.Sublist (item :: rest) := by
      intro q hq
      obtain ⟨taken, heq, hsub⟩ := ih q
      refine ⟨item :: taken, ?_, hsub.cons_cons _⟩
      rw [heq, hq, List.append_assoc, List.singleton_append]
    unfold pack
    split
    · exact hskip p rfl
    · dsimp only
      split
      · split
        · exact hskip _ rfl
        · split
          · exact hskip _ rfl
          · exact htake _ rfl
      · split
        · exact ⟨[], (List.append_nil _).symm, List.nil_sublist _⟩
        · exact htake _ rfl

/-- The scores are numbers: they compare like the values they stand for. -/
def AreNumbers (scores : List F) : Prop :=
  ∃ value : F → ℚ, ∀ a ∈ scores, ∀ b ∈ scores, partialCmp a b = some (compare (value a) (value b))

/-- Sorted by score, no item is above one before it. -/
theorem sorted_items {items : List (RecallItem F)} (h : AreNumbers (items.map (·.score))) :
    (sortBy itemOrder items).Pairwise fun a b => Scalar.lt a.score b.score = false := by
  obtain ⟨value, hvalue⟩ := h
  let key (x : RecallItem F) : ℚ × Str := (-value x.score, x.uri)
  have hscore : ∀ a ∈ items, ∀ b ∈ items, partialCmp a.score b.score = some (compare (value a.score) (value b.score)) :=
    fun a ha b hb => hvalue _ (List.mem_map_of_mem ha) _ (List.mem_map_of_mem hb)
  have horder : ∀ a ∈ items, ∀ b ∈ items, itemOrder a b = compare (key a) (key b) := by
    intro a ha b hb
    unfold itemOrder
    rw [hscore b hb a ha, Option.getD_some, ← compare_neg_rat]
    rfl
  have hmap : (sortBy itemOrder items).map key = sortBy compare (items.map key) :=
    List.map_insertionSort _ _ key items fun a ha b hb => by rw [horder a ha b hb]
  have hsorted : (sortBy compare (items.map key)).Pairwise fun a b => (compare a b).isLE := pairwise_sortBy id _
  rw [← hmap, List.pairwise_map] at hsorted
  refine hsorted.imp_of_mem fun {a b} ha hb hle => ?_
  rw [mem_sortBy] at ha hb
  have hleft : (compare (-value a.score) (-value b.score)).isLE := Ordering.isLE_left_of_isLE_then hle
  rw [compare_neg_rat] at hleft
  have hnot : compare (value a.score) (value b.score) ≠ .lt := by
    intro hlt
    rw [OrientedCmp.gt_of_lt hlt] at hleft
    exact absurd hleft (by decide)
  unfold Scalar.lt
  rw [hscore a ha b hb]
  simpa using hnot

/-! ## The window -/

/-- The items of a window in non-increasing score order. -/
def NonIncreasing (items : List (RecallItem F)) : Prop := items.Pairwise fun a b => Scalar.lt a.score b.score = false

/-- Distinct uris and contents, no blank content, and the tokens within the bounds. -/
structure WellPacked (budget : Nat) (fileCap : Option Nat) (w : RecallWindow F) : Prop where
  uris : (w.items.map (·.uri)).Nodup
  contents : (w.items.map (·.content)).Nodup
  filled : ∀ x ∈ w.items, trim x.content ≠ []
  tokens : w.tokens = (w.items.map RecallItem.estimate).sum
  bounded : w.tokens ≤ budget ∨ w.items.length = 1
  quota : ∀ cap, fileCap = some cap → ∀ file, WithinQuota cap w.items file

theorem wellPacked_assembleWindow (config : PackConfig F) (g : MemoryGraph F) (strategy : Str) (ids : List NodeId)
    (budget : Nat) (proximity : Option (Proximity F)) (lsa : Option (BTreeMap NodeId F)) :
    WellPacked budget (fileCap config budget proximity) (assembleWindow config g strategy ids budget proximity lsa) := by
  have hfits := fits_pack (sortBy itemOrder (scoredItems g ids proximity lsa))
    (fits_empty budget (fileCap config budget proximity))
  obtain ⟨taken, htaken, hsub⟩ := pack_sublist budget (fileCap config budget proximity)
    (sortBy itemOrder (scoredItems g ids proximity lsa)) Packed.empty
  have huri : ∀ id x, recallItem g proximity lsa id = some x → x.uri = id := fun _ _ => uri_recallItem
  have hscored := (uris_scoreIds huri ids []).1
  refine ⟨?_, hfits.distinct, hfits.filled, hfits.tokens, hfits.bounded, hfits.quota⟩
  unfold assembleWindow
  dsimp only
  rw [htaken]
  exact (((perm_sortBy _ _).map _).nodup_iff.mpr hscored).sublist (hsub.map _)

end

/-! ## Scores that are not numbers -/

theorem areNumbers_rat (scores : List ℚ) : AreNumbers scores := ⟨id, fun _ _ _ _ => rfl⟩

def plainPacking : PackConfig ℚ where
  recallFileCap := 2 / 5
  asUsize q := q.floor.toNat

def twoFiles : MemoryGraph ℚ :=
  MemoryGraph.ofEdges ["file:a.rs".toList, "sym:a.rs:f".toList, "file:b.rs".toList] []

/-- Exact arithmetic with a value that is not a number. -/
inductive NanRat
  | num (q : ℚ)
  | nan
  deriving DecidableEq

namespace NanRat

def lift (f : ℚ → ℚ) : NanRat → NanRat
  | num a => num (f a)
  | nan => nan

def lift2 (f : ℚ → ℚ → ℚ) : NanRat → NanRat → NanRat
  | num a, num b => num (f a b)
  | _, _ => nan

instance : Scalar NanRat where
  add := lift2 (· + ·)
  sub := lift2 (· - ·)
  mul := lift2 (· * ·)
  div a b := if b = num 0 then nan else lift2 (· / ·) a b
  lit := num
  ofNat n := num n
  ln := lift Scalar.ln
  sqrt := lift Scalar.sqrt
  abs := lift Scalar.abs
  powi x n := lift (· ^ n) x
  partialCmp
    | num a, num b => some (compare a b)
    | _, _ => none
  reparse
    | num a => some (num a)
    | nan => none

end NanRat

/-- Three plain nodes. The failure relevance of the second is not a number. -/
def nanGraph : MemoryGraph NanRat :=
  let plain (id : Str) (relevance : NanRat) : GraphNode NanRat :=
    { id, label := id, content := id, nodeType := .symbol, baseImportance := .num (1 / 2), failureRelevance := relevance
      recency := .num 1, accessCount := 1, createdAt := 0, lastAccessed := 0, state := .stable, trust := .num 1 }
  { MemoryGraph.new (.num (1 / 5)) 10 with
    nodes := (((∅ : BTreeMap NodeId (GraphNode NanRat)).insert "a".toList (plain "a".toList (.num 0))).insert "b".toList
      (plain "b".toList .nan)).insert "c".toList (plain "c".toList (.num 1)) }

end Ccos
