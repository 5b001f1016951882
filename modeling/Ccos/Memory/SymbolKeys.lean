import Ccos.Memory.Resolve
import Ccos.Lib.IndexBy
import Ccos.Lib.Splits
import Ccos.Query.Walk

/-!
# References that resolve through a key

The tiers of a resolution, apart from the only symbol of a name and the only method of a type, look the target up
by the crate and module of its file and by its name. Files of one crate and module share their keys.
-/

open Std

set_option linter.unusedSectionVars false

namespace Ccos

/-! ## Keys -/

abbrev SymbolKey := Str × Str × Str

/-- The file and the name of a symbol id. -/
def symbolParts (id : NodeId) : Option (Str × Str) := (stripPrefix "sym:".toList id).bind (rsplitOnce colon)

def symbolKey (id : NodeId) : Option SymbolKey :=
  (symbolParts id).bind fun (file, name) => (crateAndModule file).map fun (c, m) => (c, m, name)

theorem symbolDefs_eq (ids : List NodeId) : symbolDefs ids = indexBy symbolKey ids := by
  unfold symbolDefs indexBy
  refine congrArg (fun f => ids.foldl f ∅) (funext fun m => funext fun id => ?_)
  unfold symbolKey symbolParts
  cases (stripPrefix "sym:".toList id).bind (rsplitOnce colon) with
  | none => rfl
  | some parts =>
    obtain ⟨file, name⟩ := parts
    cases hkey : crateAndModule file <;> simp [hkey]

theorem splitOnce_of_no_colon {s : Str} (h : ':' ∉ s) : splitOnce colons s = none := by
  induction s with
  | nil => rfl
  | cons c cs ih =>
    rw [List.mem_cons, not_or] at h
    obtain ⟨hc, hcs⟩ := h
    unfold splitOnce
    have hstrip : stripPrefix colons (c :: cs) = none := by
      refine Option.eq_none_iff_forall_ne_some.mpr fun rest hrest => hc ?_
      have happend := List.isPrefixOf?_eq_some_iff_append_eq.mp hrest
      exact (List.cons.inj happend).1
    rw [hstrip, ih hcs]
    rfl

theorem symbolParts_spec {id : NodeId} {file name : Str} (h : symbolParts id = some (file, name)) :
    id = scopedId "sym:".toList file name ∧ ':' ∉ name := by
  obtain ⟨rest, hrest, hparts⟩ := Option.bind_eq_some_iff.mp h
  obtain ⟨rfl, hname⟩ := rsplitOnce_char_eq hparts
  refine ⟨?_, hname⟩
  unfold scopedId
  rw [List.append_assoc]
  exact (List.isPrefixOf?_eq_some_iff_append_eq.mp hrest).symm

theorem symbolKey_eq_some {id : NodeId} {c m name : Str} : symbolKey id = some (c, m, name) ↔
    ∃ file, symbolParts id = some (file, name) ∧ crateAndModule file = some (c, m) := by
  unfold symbolKey
  constructor
  · intro h
    obtain ⟨⟨file, name'⟩, hparts, hmap⟩ := Option.bind_eq_some_iff.mp h
    obtain ⟨⟨c', m'⟩, hfile, hkey⟩ := Option.map_eq_some_iff.mp hmap
    cases hkey
    exact ⟨file, hparts, hfile⟩
  · rintro ⟨file, hparts, hfile⟩
    rw [hparts, Option.bind_some]
    simp only [hfile, Option.map_some]

/-! ## What the tiers look up -/

def keyIn (name : Str) (file : NodeId) : Option SymbolKey :=
  ((stripPrefix "file:".toList file).bind crateAndModule).map fun (c, m) => (c, m, name)

theorem symbolIn_eq (name : Str) (defs : Defs) (file : NodeId) :
    symbolIn name defs file = (keyIn name file).bind (defs[·]?) := by
  unfold symbolIn keyIn
  rw [Option.bind_map]
  rfl

/-- The key of a qualified path. -/
def qualifiedKey (file path fcrate : Str) (scope : Scope) (index : FileIndex) : Option SymbolKey :=
  match rsplitOnce colons path with
  | none => none
  | some (pre, name) =>
    let exactly (abs : Str) : Option SymbolKey := (resolveModuleExact fcrate abs index).bind (keyIn name)
    if pre = "crate".toList ∨ startsWith "crate::".toList pre then exactly pre
    else
      let first := firstPiece colons pre
      let rest := (stripPrefix first pre).getD []
      match ((scope[file]?).getD []).filter fun u => lastPiece colons u == first with
      | [usePath] => exactly (usePath ++ rest)
      | [] => (index[(fcrate, pre)]?).map fun _ => (fcrate, pre, name)
      | _ => none

theorem resolveQualified_eq (file path fcrate : Str) (scope : Scope) (index : FileIndex) (defs : Defs) :
    resolveQualified file path fcrate scope index defs =
      (qualifiedKey file path fcrate scope index).bind (defs[·]?) := by
  have hexact : ∀ abs name : Str, (resolveModuleExact fcrate abs index).bind (symbolIn name defs) =
      ((resolveModuleExact fcrate abs index).bind (keyIn name)).bind (defs[·]?) := by
    intro abs name
    rw [Option.bind_assoc]
    exact congrArg (Option.bind _) (funext fun df => symbolIn_eq name defs df)
  unfold resolveQualified qualifiedKey
  cases rsplitOnce colons path with
  | none => rfl
  | some parts =>
    obtain ⟨pre, name⟩ := parts
    dsimp only
    split
    · exact hexact pre name
    · generalize ((scope[file]?).getD []).filter (fun u => lastPiece colons u == firstPiece colons pre) = hits
      rcases hits with _ | ⟨usePath, _ | _⟩
      · simp only [resolveBareModpath]
        cases index[(fcrate, pre)]? <;> rfl
      · exact hexact _ name
      · rfl

/-- The keys that the imports of a name lead to. -/
def importKeys (name file fcrate : Str) (scope : Scope) (index : FileIndex) : List SymbolKey :=
  ((scope[file]?).getD []).filterMap fun usepath =>
    if lastPiece colons usepath != name then none
    else (rsplitOnce colons usepath).bind fun (modulePath, _) =>
      (resolveUse fcrate modulePath index).bind (keyIn name)

/-- The symbols of these keys. -/
def importHits (name file fcrate : Str) (scope : Scope) (index : FileIndex) (defs : Defs) : List NodeId :=
  sortDedup ((importKeys name file fcrate scope index).filterMap (defs[·]?))

theorem resolveBare_eq (name file fcrate fmodule : Str) (scope : Scope) (index : FileIndex) (defs : Defs)
    (names : Names) : resolveBare name file fcrate fmodule scope index defs names =
      match importHits name file fcrate scope index defs with
      | [sym] => some sym
      | [] => (defs[(fcrate, fmodule, name)]?).orElse fun _ => uniqueName names name
      | _ => none := by
  have hkeys : (((scope[file]?).getD []).filterMap fun usepath =>
      if lastPiece colons usepath != name then none
      else (rsplitOnce colons usepath).bind fun (modulePath, _) =>
        (resolveUse fcrate modulePath index).bind (symbolIn name defs)) =
      (importKeys name file fcrate scope index).filterMap (defs[·]?) := by
    unfold importKeys
    rw [List.filterMap_filterMap]
    refine congrArg (fun f => List.filterMap f _) (funext fun usepath => ?_)
    split
    · rfl
    · rw [Option.bind_assoc]
      refine congrArg (Option.bind _) (funext fun parts => ?_)
      rw [Option.bind_assoc]
      exact congrArg (Option.bind _) (funext fun df => symbolIn_eq name defs df)
  unfold resolveBare importHits
  exact hkeys ▸ rfl

/-! ## The tiers -/

/-- `Keyed … k t`: the name resolves to `t` because `t` is what the index holds for the key `k`. -/
inductive Keyed (scope : Scope) (index : FileIndex) (defs : Defs) (file name fcrate fmodule : Str) :
    SymbolKey → NodeId → Prop
  | qualified {k t} : containsStr colons name = true → qualifiedKey file name fcrate scope index = some k →
      defs[k]? = some t → Keyed scope index defs file name fcrate fmodule k t
  | imported {k t} : containsStr colons name = false → k ∈ importKeys name file fcrate scope index →
      importHits name file fcrate scope index defs = [t] → defs[k]? = some t →
      Keyed scope index defs file name fcrate fmodule k t
  | sameModule {t} : containsStr colons name = false → importHits name file fcrate scope index defs = [] →
      defs[(fcrate, fmodule, name)]? = some t →
      Keyed scope index defs file name fcrate fmodule (fcrate, fmodule, name) t

/-- The same for a callee, which may name a method of its own module. -/
inductive KeyedCall (ix : CallIndex) (file callee fcrate fmodule : Str) : SymbolKey → NodeId → Prop
  | self {method t} : stripPrefix "Self::".toList callee = some method →
      ix.defs[(fcrate, fmodule, method)]? = some t →
      KeyedCall ix file callee fcrate fmodule (fcrate, fmodule, method) t
  | keyed {k t} : stripPrefix "Self::".toList callee = none →
      Keyed ix.scope ix.fileIndex ix.defs file callee fcrate fmodule k t → KeyedCall ix file callee fcrate fmodule k t

variable {scope : Scope} {index : FileIndex} {defs : Defs} {names : Names} {file name fcrate fmodule : Str}

theorem Keyed.found {k : SymbolKey} {t : NodeId} (h : Keyed scope index defs file name fcrate fmodule k t) :
    defs[k]? = some t := by
  cases h <;> assumption

theorem KeyedCall.found {ix : CallIndex} {callee : Str} {k : SymbolKey} {t : NodeId}
    (h : KeyedCall ix file callee fcrate fmodule k t) : ix.defs[k]? = some t := by
  cases h with
  | self _ h => exact h
  | keyed _ h => exact h.found

theorem keyed_of_resolveQualified {t : NodeId} (hname : containsStr colons name = true)
    (h : resolveQualified file name fcrate scope index defs = some t) :
    ∃ k, Keyed scope index defs file name fcrate fmodule k t := by
  rw [resolveQualified_eq] at h
  obtain ⟨k, hk, ht⟩ := Option.bind_eq_some_iff.mp h
  exact ⟨k, .qualified hname hk ht⟩

theorem keyed_of_resolveBare {t : NodeId} (hname : containsStr colons name = false)
    (h : resolveBare name file fcrate fmodule scope index defs names = some t) :
    (∃ k, Keyed scope index defs file name fcrate fmodule k t) ∨ uniqueName names name = some t := by
  rw [resolveBare_eq] at h
  split at h
  · rename_i sym hhits
    cases h
    have hmem : t ∈ importHits name file fcrate scope index defs := hhits ▸ List.mem_cons_self
    unfold importHits at hmem
    obtain ⟨k, hk, ht⟩ := List.mem_filterMap.mp (mem_sortDedup.mp hmem)
    exact .inl ⟨k, .imported hname hk hhits ht⟩
  · rename_i hhits
    cases hown : defs[(fcrate, fmodule, name)]? with
    | some sym =>
      rw [hown] at h
      cases h
      exact .inl ⟨_, .sameModule hname hhits hown⟩
    | none =>
      rw [hown] at h
      exact .inr h
  · exact absurd h (by simp)

/-- A call that resolves does so through a key, as the only symbol of its name or as the only method of its type. -/
theorem resolveCallee_cases {ix : CallIndex} {callee : Str} {t : NodeId}
    (h : resolveCallee ix file callee fcrate fmodule = some t) :
    (∃ k, KeyedCall ix file callee fcrate fmodule k t) ∨ uniqueName ix.names callee = some t ∨
      ∃ ty method, rsplitOnce colons callee = some (ty, method) ∧ ix.typeMethod ty method = some t := by
  unfold resolveCallee at h
  split at h
  · rename_i method hself
    exact .inl ⟨_, .self hself h⟩
  · rename_i hself
    split at h
    · rename_i hname
      have hqualified : ∀ {t}, resolveQualified file callee fcrate ix.scope ix.fileIndex ix.defs = some t →
          ∃ k, Keyed ix.scope ix.fileIndex ix.defs file callee fcrate fmodule k t := fun h =>
        keyed_of_resolveQualified hname h
      dsimp only at h
      split at h
      · rename_i m t' hm ht
        split at h
        · cases h
          obtain ⟨k, hk⟩ := hqualified hm
          exact .inl ⟨k, .keyed hself hk⟩
        · exact absurd h (by simp)
      · rename_i m hm _
        cases h
        obtain ⟨k, hk⟩ := hqualified hm
        exact .inl ⟨k, .keyed hself hk⟩
      · rename_i t' _ htype
        cases h
        split at htype
        · rename_i ty method hparts
          split at htype
          · exact absurd htype (by simp)
          · exact .inr (.inr ⟨ty, method, hparts, htype⟩)
        · exact absurd htype (by simp)
      · exact absurd h (by simp)
    · rename_i hname
      rcases keyed_of_resolveBare (Bool.eq_false_iff.mpr hname) h with ⟨k, hk⟩ | hunique
      · exact .inl ⟨k, .keyed hself hk⟩
      · exact .inr (.inl hunique)

theorem resolveDataRef_cases {aliases : List (Str × Str)} {t : NodeId}
    (h : resolveDataRef scope index defs names aliases file name fcrate fmodule = some t) :
    (∃ k, Keyed scope index defs file ((rewriteAlias aliases name).getD name) fcrate fmodule k t) ∨
      uniqueName names ((rewriteAlias aliases name).getD name) = some t := by
  unfold resolveDataRef at h
  dsimp only at h
  split at h
  · rename_i hname
    exact .inl (keyed_of_resolveQualified hname h)
  · rename_i hname
    exact keyed_of_resolveBare (Bool.eq_false_iff.mpr hname) h

/-! ## Links -/

/-- The link that a recorded reference gets. -/
structure RefLink (ids : List NodeId) (refs : BTreeMap Str (List PendingRef))
    (resolve : Str → Str → Str → Str → Option NodeId) (file user name : Str) (t : NodeId) : Prop where
  recorded : ∃ uses line, refs[file]? = some uses ∧ (user, name, line) ∈ uses
  resident : scopedId "sym:".toList file user ∈ ids
  resolved : resolve file name ((crateAndModule file).getD ([], [])).1 ((crateAndModule file).getD ([], [])).2 = some t
  other : t ≠ scopedId "sym:".toList file user

theorem mem_refLinks {ids : List NodeId} {refs : BTreeMap Str (List PendingRef)}
    {resolve : Str → Str → Str → Str → Option NodeId} {s t : NodeId} :
    (s, t) ∈ MemoryGraph.refLinks ids refs resolve ↔
      ∃ file user name, s = scopedId "sym:".toList file user ∧ RefLink ids refs resolve file user name t := by
  unfold MemoryGraph.refLinks
  rw [mem_sortDedup, List.mem_flatMap]
  constructor
  · rintro ⟨⟨file, uses⟩, huses, hin⟩
    obtain ⟨⟨user, name, line⟩, huse, hlink⟩ := List.mem_filterMap.mp hin
    dsimp only at hlink
    split at hlink
    · exact absurd hlink (by simp)
    · rename_i hresident
      obtain ⟨t', ht', hother⟩ := Option.bind_eq_some_iff.mp hlink
      split at hother
      · exact absurd hother (by simp)
      · rename_i hne
        cases hother
        exact ⟨file, user, name, rfl, ⟨uses, line, ExtTreeMap.mem_toList_iff_getElem?_eq_some.mp huses, huse⟩,
          not_not.mp hresident, ht', hne⟩
  · rintro ⟨file, user, name, rfl, ⟨uses, line, huses, huse⟩, hresident, hresolved, hne⟩
    refine ⟨(file, uses), ExtTreeMap.mem_toList_iff_getElem?_eq_some.mpr huses, ?_⟩
    refine List.mem_filterMap.mpr ⟨(user, name, line), huse, ?_⟩
    dsimp only
    rw [if_neg (not_not.mpr hresident)]
    refine (congrArg (Option.bind · _) hresolved).trans ?_
    rw [Option.bind_some, if_neg hne]

namespace MemoryGraph

variable {F : Type} [Scalar F]

/-- What a callee is looked up as. -/
def calleeAs (g : MemoryGraph F) (file name : Str) : Str := (rewriteAlias (aliasesOf g.pendingAliases file) name).getD name

/-- The resolution of a call by `resolve_symbol_calls`. -/
def callTarget (g : MemoryGraph F) (file callee fcrate fmodule : Str) : Option NodeId :=
  resolveCall (callIndex g.ids g.pendingMethods) (aliasesOf g.pendingAliases file) file callee fcrate fmodule

/-- The data symbols that are resident. -/
def liveData (g : MemoryGraph F) : List NodeId := g.dataSymbols.keys.filter (· ∈ g.ids)

/-- The resolution of a data reference by `resolve_data_flow`. -/
def dataTarget (g : MemoryGraph F) (file name fcrate fmodule : Str) : Option NodeId :=
  resolveDataRef (importScope g.ids) (fileIndex g.ids) (symbolDefs g.liveData) (dataNames g.liveData)
    (aliasesOf g.pendingAliases file) file name fcrate fmodule

theorem callEdges_eq (g : MemoryGraph F) : callEdges g.ids g.pendingCalls g.pendingAliases g.pendingMethods =
    (refLinks g.ids g.pendingCalls g.callTarget).map fun (s, t) => (s, t, (Scalar.lit 0.75 : F), .calls) := rfl

theorem dataFlowEdges_eq (g : MemoryGraph F) :
    dataFlowEdges g.ids g.pendingDataRefs g.pendingAliases g.dataSymbols.keys =
      (refLinks g.ids g.pendingDataRefs g.dataTarget).map fun (s, t) => (s, t, (Scalar.lit 0.6 : F), .dataFlow) := rfl

end MemoryGraph

/-! ## One symbol for each key -/

/-- The only id of a key. -/
def OnlySymbol (ids : List NodeId) (k : SymbolKey) (t : NodeId) : Prop := ∀ s, s ∈ ids ∧ symbolKey s = some k ↔ s = t

/-- No import of the file brings the name in. -/
def ImportsNone (ids : List NodeId) (file name : Str) : Prop :=
  ∀ u ∈ ((importScope ids)[file]?).getD [], lastPiece colons u ≠ name

/-- Resolve uniquely or skip: a reference that a key resolves goes to the only resident symbol of this key, and a bare
name that the file defines and does not import goes to the symbol of the file. (The edge of a call to the caller
itself is dropped after that.) -/
structure ResolvesUniquely {F : Type} [Scalar F] (g : MemoryGraph F) : Prop where
  calls : ∀ file user callee t k, RefLink g.ids g.pendingCalls g.callTarget file user callee t →
    KeyedCall (MemoryGraph.callIndex g.ids g.pendingMethods) file (g.calleeAs file callee)
      ((crateAndModule file).getD ([], [])).1 ((crateAndModule file).getD ([], [])).2 k t → OnlySymbol g.ids k t
  dataRefs : ∀ file user name t k, RefLink g.ids g.pendingDataRefs g.dataTarget file user name t →
    Keyed (importScope g.ids) (fileIndex g.ids) (symbolDefs g.liveData) file (g.calleeAs file name)
      ((crateAndModule file).getD ([], [])).1 ((crateAndModule file).getD ([], [])).2 k t → OnlySymbol g.ids k t
  own : ∀ file uses user name line own, g.pendingCalls[file]? = some uses → (user, name, line) ∈ uses →
    scopedId "sym:".toList file user ∈ g.ids → own ∈ g.ids → symbolParts own = some (file, name) →
    ImportsNone g.ids file name → aliasTarget (MemoryGraph.aliasesOf g.pendingAliases file) name = none →
      g.callTarget file name ((crateAndModule file).getD ([], [])).1 ((crateAndModule file).getD ([], [])).2 = some own

/-- A file that maps to no module shares none of the names it defines and does not import. -/
def OwnNames (ids : List NodeId) : Prop :=
  ∀ own ∈ ids, ∀ file name, symbolParts own = some (file, name) → crateAndModule file = none →
    ImportsNone ids file name → ∀ s ∈ ids, ∀ file', symbolParts s = some (file', name) → s = own

theorem onlySymbol_of_distinct {ids within : List NodeId} (hd : KeysDistinct symbolKey ids) (hsub : ∀ id ∈ within, id ∈ ids)
    {k : SymbolKey} {t : NodeId} (ht : (symbolDefs within)[k]? = some t) : OnlySymbol ids k t := by
  rw [symbolDefs_eq] at ht
  obtain ⟨hin, hkey⟩ := mem_of_indexBy ht
  intro s
  constructor
  · rintro ⟨hs, hskey⟩
    exact hd k s hs t (hsub t hin) hskey hkey
  · rintro rfl
    exact ⟨hsub s hin, hkey⟩

/-- The symbols of a name, in id order. -/
theorem symbolNames_eq (ids : List NodeId) (name : Str) : ((symbolNames ids)[name]?).getD [] =
    ids.filter fun id => decide ((symbolParts id).map (·.2) = some name) := by
  induction ids using List.reverseRecOn with
  | nil => simp [symbolNames]
  | append_singleton ids id ih =>
    unfold symbolNames at ih ⊢
    rw [List.foldl_append, List.foldl_cons, List.foldl_nil, List.filter_append, ← ih, List.filter_cons, List.filter_nil]
    generalize ids.foldl _ _ = m
    unfold symbolParts
    cases (stripPrefix "sym:".toList id).bind (rsplitOnce colon) with
    | none => simp
    | some parts =>
      simp only [pushAt, getElem?_insert_eq, Option.map_some, Option.some_inj]
      by_cases hname : parts.2 = name
      · simp [hname]
      · rw [if_neg fun heq => hname heq.symm]
        simp [hname]

theorem uniqueName_eq_some {ids : List NodeId} {name : Str} {t : NodeId} (hnodup : ids.Nodup) :
    uniqueName (symbolNames ids) name = some t ↔
      ∀ s, (s ∈ ids ∧ (symbolParts s).map (·.2) = some name) ↔ s = t := by
  have hfilter : uniqueName (symbolNames ids) name = some t ↔
      (ids.filter fun id => decide ((symbolParts id).map (·.2) = some name)) = [t] := by
    rw [← symbolNames_eq]
    unfold uniqueName
    cases (symbolNames ids)[name]? with
    | none => simp
    | some l => rcases l with _ | ⟨a, _ | _⟩ <;> simp
  rw [hfilter]
  constructor
  · intro h s
    have hs := List.mem_singleton (a := s) (b := t)
    rwa [← h, List.mem_filter, decide_eq_true_eq] at hs
  · intro h
    refine List.perm_singleton.mp ((List.perm_ext_iff_of_nodup (hnodup.filter _) (List.nodup_singleton t)).mpr fun s => ?_)
    rw [List.mem_filter, decide_eq_true_eq, List.mem_singleton]
    exact h s

/-- A bare name that no import brings in resolves in the own module, else as the only symbol of its name. -/
theorem callTarget_bare {F : Type} [Scalar F] (g : MemoryGraph F) {file name : Str} (hname : ':' ∉ name)
    (himports : ImportsNone g.ids file name)
    (halias : aliasTarget (MemoryGraph.aliasesOf g.pendingAliases file) name = none) (c m : Str) :
    g.callTarget file name c m =
      ((symbolDefs g.ids)[(c, m, name)]?).orElse fun _ => uniqueName (symbolNames g.ids) name := by
  have hsplit := splitOnce_of_no_colon hname
  have hfirst : firstPiece colons name = name := by
    unfold firstPiece
    rw [hsplit]
    rfl
  have hself : stripPrefix "Self::".toList name = none := by
    refine Option.eq_none_iff_forall_ne_some.mpr fun rest hrest => hname ?_
    rw [← List.isPrefixOf?_eq_some_iff_append_eq.mp hrest]
    simp
  have hkeys : importKeys name file c (importScope g.ids) (fileIndex g.ids) = [] := by
    unfold importKeys
    refine List.filterMap_eq_nil_iff.mpr fun u hu => ?_
    rw [if_pos (by simpa using himports u hu)]
  unfold MemoryGraph.callTarget resolveCall rewriteAlias
  rw [hfirst, halias, Option.map_none, Option.getD_none]
  unfold resolveCallee
  rw [hself]
  have hbare : containsStr colons name = false := by
    unfold containsStr
    rw [hsplit]
    rfl
  simp only [hbare, Bool.false_eq_true, if_false]
  rw [resolveBare_eq]
  unfold importHits
  rw [show importKeys name file c (MemoryGraph.callIndex g.ids g.pendingMethods).scope
    (MemoryGraph.callIndex g.ids g.pendingMethods).fileIndex = [] from hkeys]
  rfl

namespace MemoryGraph

variable {F : Type} [Scalar F]

/-- The graph with one call recorded and no alias. -/
def callingOnce (g : MemoryGraph F) (file user callee : Str) : MemoryGraph F :=
  { g with pendingCalls := (∅ : BTreeMap Str (List PendingRef)).insert file [(user, callee, 0)], pendingAliases := ∅ }

theorem callingOnce_recorded (g : MemoryGraph F) (file user callee : Str) :
    (g.callingOnce file user callee).pendingCalls[file]? = some [(user, callee, 0)] :=
  ExtTreeMap.getElem?_insert_self

theorem aliasesOf_callingOnce (g : MemoryGraph F) (file user callee file' : Str) :
    aliasesOf (g.callingOnce file user callee).pendingAliases file' = [] := by
  unfold aliasesOf callingOnce
  rw [ExtTreeMap.getElem?_empty]
  rfl

theorem distinct_of_resolvesUniquely {g : MemoryGraph F}
    (h : ∀ g' : MemoryGraph F, g'.nodes = g.nodes → ResolvesUniquely g') : KeysDistinct symbolKey g.ids := by
  -- Every symbol of a key can call `Self::name`, which the index answers with one symbol.
  have hall : ∀ k, ∀ u ∈ g.ids, symbolKey u = some k → (symbolDefs g.ids)[k]? = some u := by
    rintro ⟨c, m, name⟩ u hu hkey
    obtain ⟨t, ht⟩ := indexBy_total hu hkey
    rw [← symbolDefs_eq] at ht
    obtain ⟨file, hparts, hfile⟩ := symbolKey_eq_some.mp hkey
    obtain ⟨hid, -⟩ := symbolParts_spec hparts
    by_contra hne
    have htu : t ≠ u := fun heq => hne (heq ▸ ht)
    have hself : stripPrefix "Self::".toList ("Self::".toList ++ name) = some name :=
      List.isPrefixOf?_eq_some_iff_append_eq.mpr rfl
    have hrewrite : ∀ callee, rewriteAlias
        (aliasesOf (g.callingOnce file name ("Self::".toList ++ name)).pendingAliases file) callee = none := by
      intro callee
      rw [aliasesOf_callingOnce]
      rfl
    have hlink : RefLink g.ids (g.callingOnce file name ("Self::".toList ++ name)).pendingCalls
        (g.callingOnce file name ("Self::".toList ++ name)).callTarget file name ("Self::".toList ++ name) t := by
      refine ⟨⟨_, 0, callingOnce_recorded g file name _, List.mem_cons_self⟩, hid ▸ hu, ?_, hid ▸ htu⟩
      unfold callTarget resolveCall
      rw [hrewrite, hfile, Option.getD_none]
      unfold resolveCallee
      rw [hself]
      exact ht
    have honly := (h (g.callingOnce file name ("Self::".toList ++ name)) rfl).calls file name ("Self::".toList ++ name) t
      (c, m, name) hlink (by
        unfold calleeAs
        rw [hrewrite, hfile]
        exact .self hself ht)
    exact htu ((honly u).mp ⟨hu, hkey⟩).symm
  intro k e he e' he' hk hk'
  exact Option.some.inj ((hall k e he hk).symm.trans (hall k e' he' hk'))

theorem ownNames_of_resolvesUniquely {g : MemoryGraph F}
    (h : ∀ g' : MemoryGraph F, g'.nodes = g.nodes → ResolvesUniquely g') : OwnNames g.ids := by
  intro own hown file name hparts hfile himports s hs file' hparts'
  obtain ⟨hid, hname⟩ := symbolParts_spec hparts
  have halias : aliasTarget (aliasesOf (g.callingOnce file name name).pendingAliases file) name = none := by
    rw [aliasesOf_callingOnce]
    rfl
  have htarget := (h (g.callingOnce file name name) rfl).own file [(name, name, 0)] name name 0 own
    (callingOnce_recorded g file name name) List.mem_cons_self (hid ▸ hown) hown hparts himports halias
  rw [callTarget_bare (g.callingOnce file name name) hname himports halias, hfile] at htarget
  cases hdefs : (symbolDefs g.ids)[(([] : Str), ([] : Str), name)]? with
  | some x =>
    -- The symbol of the file has no key, so it is not what the index holds.
    have hx : x = own := by
      have hboth : some x = some own := by
        rw [← htarget, ← hdefs]
        change _ = ((symbolDefs g.ids)[(([] : Str), ([] : Str), name)]?).orElse _
        rw [hdefs]
        rfl
      exact Option.some.inj hboth
    rw [symbolDefs_eq] at hdefs
    obtain ⟨file'', hparts'', hfile''⟩ := symbolKey_eq_some.mp (mem_of_indexBy hdefs).2
    rw [hx, hparts] at hparts''
    cases hparts''
    rw [hfile] at hfile''
    exact absurd hfile'' (by simp)
  | none =>
    change ((symbolDefs g.ids)[(([] : Str), ([] : Str), name)]?).orElse _ = _ at htarget
    rw [hdefs] at htarget
    have hunique : uniqueName (symbolNames g.ids) name = some own := htarget
    rw [uniqueName_eq_some (show g.ids.Nodup from ExtTreeMap.nodup_keys)] at hunique
    exact (hunique s).mp ⟨hs, by rw [hparts']; rfl⟩

theorem resolvesUniquely_of {g : MemoryGraph F} (hd : KeysDistinct symbolKey g.ids) (hown : OwnNames g.ids) :
    ResolvesUniquely g where
  calls _ _ _ _ _ _ hkeyed := onlySymbol_of_distinct hd (fun _ hid => hid) hkeyed.found
  dataRefs _ _ _ _ _ _ hkeyed := onlySymbol_of_distinct hd (fun _ hid => by
    unfold liveData at hid
    exact of_decide_eq_true (List.mem_filter.mp hid).2) hkeyed.found
  own file uses user name line own _ _ _ hin hparts himports halias := by
    obtain ⟨hid, hname⟩ := symbolParts_spec hparts
    rw [callTarget_bare g hname himports halias]
    cases hfile : crateAndModule file with
    | some cm =>
      obtain ⟨c, m⟩ := cm
      rw [Option.getD_some, symbolDefs_eq, indexBy_exact hd hin (symbolKey_eq_some.mpr ⟨file, hparts, hfile⟩)]
      rfl
    | none =>
      have honly := hown own hin file name hparts hfile himports
      have hdefs : (symbolDefs g.ids)[(([] : Str), ([] : Str), name)]? = none := by
        refine Option.eq_none_iff_forall_ne_some.mpr fun x hx => ?_
        rw [symbolDefs_eq] at hx
        obtain ⟨hxin, hxkey⟩ := mem_of_indexBy hx
        obtain ⟨file', hparts', hfile'⟩ := symbolKey_eq_some.mp hxkey
        rw [honly x hxin file' hparts', hparts] at hparts'
        cases hparts'
        rw [hfile] at hfile'
        exact absurd hfile' (by simp)
      rw [Option.getD_none, hdefs]
      change uniqueName (symbolNames g.ids) name = some own
      rw [uniqueName_eq_some (show g.ids.Nodup from ExtTreeMap.nodup_keys)]
      intro s
      constructor
      · rintro ⟨hs, hsname⟩
        obtain ⟨⟨file', name'⟩, hparts', rfl⟩ := Option.map_eq_some_iff.mp hsname
        exact honly s hs file' hparts'
      · rintro rfl
        exact ⟨hin, by rw [hparts]; rfl⟩

/-- Over a node set, every table of calls, data references, aliases and methods resolves uniquely or skips just in case
no two symbols share crate, module and name and no file without a module shares the names it defines. -/
theorem resolves_uniquely_iff (g : MemoryGraph F) : (∀ g' : MemoryGraph F, g'.nodes = g.nodes → ResolvesUniquely g') ↔
    KeysDistinct symbolKey g.ids ∧ OwnNames g.ids := by
  constructor
  · intro h
    exact ⟨distinct_of_resolvesUniquely h, ownNames_of_resolvesUniquely h⟩
  · rintro ⟨hd, hown⟩ g' hnodes
    have hids : g'.ids = g.ids := congrArg ExtTreeMap.keys hnodes
    exact resolvesUniquely_of (hids ▸ hd) (hids ▸ hown)

/-- A package with a library and a program, each with a `foo`; the library calls its own. -/
def libAndMain : MemoryGraph ℚ :=
  { ofEdges ["sym:src/lib.rs:foo".toList, "sym:src/lib.rs:run".toList, "sym:src/main.rs:foo".toList] [] with
    pendingCalls :=
      (∅ : BTreeMap Str (List PendingRef)).insert "src/lib.rs".toList [("run".toList, "foo".toList, 3)] }

/-- The call goes to the program. -/
theorem other_file_linked : ("sym:src/lib.rs:run".toList, "sym:src/main.rs:foo".toList) ∈
      refLinks libAndMain.ids libAndMain.pendingCalls libAndMain.callTarget ∧ ¬ ResolvesUniquely libAndMain := by
  refine ⟨by decide, fun h => ?_⟩
  have hown := h.own "src/lib.rs".toList [("run".toList, "foo".toList, 3)] "run".toList "foo".toList 3
    "sym:src/lib.rs:foo".toList (by decide) List.mem_cons_self (by decide) (by decide)
    (by decide) (by unfold ImportsNone; decide) (by decide)
  exact absurd hown (by decide)

end MemoryGraph

end Ccos
