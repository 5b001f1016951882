import Ccos.Compress.Window

/-!
# What can be retrieved after a window

An item that an encoder rewrites leaves its original in the store. An item that passes through does
not, and the suppression of near duplicates replaces it all the same.
-/

open Std

namespace Ccos

variable {F : Type} [Scalar F] {enc : Encoders F}

/-! ## One item -/

/-- Too short, on a route that is switched off, or with a summary that is not shorter. -/
def PassesThrough (enc : Encoders F) (config : CompressorConfig F) (item : WindowItem F) : Prop :=
  byteLen item.content < config.minChars ∨
    match ContentRouter.classify item.kind item.content with
    | .json => config.enableJson = false
    | .code => config.enableCode = false
    | .prose =>
      config.enableProse = false ∨
        byteLen item.content ≤ byteLen (enc.summarize item.content config.summarySentences item.score)

instance (config : CompressorConfig F) (item : WindowItem F) : Decidable (PassesThrough enc config item) := by
  unfold PassesThrough
  cases ContentRouter.classify item.kind item.content <;> infer_instance

namespace CausalCompressor

/-- The text of an item before near duplicates are replaced. -/
def form (enc : Encoders F) (config : CompressorConfig F) (item : WindowItem F) : Str :=
  ((withConfig config).compressItemInner enc item.kind item.content item.score).1.1

def handle (enc : Encoders F) (config : CompressorConfig F) (item : WindowItem F) : Option CcrRef :=
  if PassesThrough enc config item then none else some (CcrRef.of enc item.content)

def stored (enc : Encoders F) (c : CausalCompressor F) (item : WindowItem F) : CausalCompressor F :=
  if PassesThrough enc c.config item then c else (c.store enc item.content).2

theorem compressItemInner_of_passesThrough {c : CausalCompressor F} {item : WindowItem F}
    (h : PassesThrough enc c.config item) :
    ∃ stat, c.compressItemInner enc item.kind item.content item.score = ((item.content, none, stat), c) := by
  unfold compressItemInner
  split
  · exact ⟨_, rfl⟩
  · rename_i hlong
    have hroute := h.resolve_left hlong
    unfold encode
    cases hc : ContentRouter.classify item.kind item.content <;> simp only [hc] at hroute ⊢
    case json =>
      simp only [hroute, Bool.false_eq_true, if_false]
      exact ⟨_, rfl⟩
    case code =>
      simp only [hroute, Bool.false_eq_true, if_false]
      exact ⟨_, rfl⟩
    case prose =>
      rcases hroute with hoff | hlen
      · simp only [hoff, Bool.false_eq_true, if_false]
        exact ⟨_, rfl⟩
      · simp only [ge_iff_le, hlen, if_true, ite_self]
        exact ⟨_, rfl⟩

theorem form_of_passesThrough {config : CompressorConfig F} {item : WindowItem F}
    (h : PassesThrough enc config item) : form enc config item = item.content := by
  obtain ⟨stat, hstat⟩ := compressItemInner_of_passesThrough (c := withConfig config) h
  rw [form, hstat]

theorem compressItemInner_of_stored {c : CausalCompressor F} {item : WindowItem F}
    (h : ¬ PassesThrough enc c.config item) :
    ∃ stat, c.compressItemInner enc item.kind item.content item.score =
      ((form enc c.config item, some (CcrRef.of enc item.content), stat), (c.store enc item.content).2) := by
  obtain ⟨hlong, hroute⟩ := not_or.mp h
  unfold form compressItemInner
  rw [if_neg hlong, if_neg (show ¬ byteLen item.content < (withConfig c.config).config.minChars from hlong)]
  unfold encode
  cases hc : ContentRouter.classify item.kind item.content <;> simp only [hc] at hroute ⊢
  case json =>
    have hon : c.config.enableJson = true := by simpa using hroute
    simp only [withConfig, hon, if_true]
    exact ⟨_, rfl⟩
  case code =>
    have hon : c.config.enableCode = true := by simpa using hroute
    simp only [withConfig, hon, if_true]
    exact ⟨_, rfl⟩
  case prose =>
    obtain ⟨hprose, hshort⟩ := not_or.mp hroute
    have hon : c.config.enableProse = true := by simpa using hprose
    simp only [withConfig, hon, if_true, ge_iff_le, hshort, if_false]
    exact ⟨_, rfl⟩

variable (enc) in
theorem compressItemInner_eq (c : CausalCompressor F) (item : WindowItem F) :
    ∃ stat, c.compressItemInner enc item.kind item.content item.score =
      ((form enc c.config item, handle enc c.config item, stat), stored enc c item) := by
  by_cases h : PassesThrough enc c.config item
  · simp only [form_of_passesThrough h, handle, stored, h, if_true]
    exact compressItemInner_of_passesThrough h
  · simp only [handle, stored, h, if_false]
    exact compressItemInner_of_stored h

omit [Scalar F] in
@[simp] theorem config_stored (c : CausalCompressor F) (item : WindowItem F) :
    (stored enc c item).config = c.config := by
  unfold stored
  split <;> rfl

/-! ## Every item -/

variable (enc) in
/-- What the first phase hands on. -/
theorem compressEach_eq (c : CausalCompressor F) (items : List (WindowItem F)) :
    ((compressEach enc c items).1.map fun candidate => (candidate.uri, candidate.content, candidate.ccrRef)) =
        (items.map fun item => (item.uri, form enc c.config item, handle enc c.config item)) ∧
      (compressEach enc c items).2 = items.foldl (stored enc) c := by
  induction items generalizing c with
  | nil => exact ⟨rfl, rfl⟩
  | cons item rest ih =>
    obtain ⟨stat, hstat⟩ := compressItemInner_eq enc c item
    obtain ⟨hforms, hstore⟩ := ih (stored enc c item)
    unfold compressEach
    simp only [hstat, List.map_cons, List.foldl_cons, hforms, hstore, config_stored, and_self]

omit [Scalar F] in
@[simp] theorem config_foldl_stored (c : CausalCompressor F) (items : List (WindowItem F)) :
    (items.foldl (stored enc) c).config = c.config := by
  induction items generalizing c with
  | nil => rfl
  | cons item rest ih => rw [List.foldl_cons, ih, config_stored]

omit [Scalar F] in
theorem retrieve_stored_of_eq {c : CausalCompressor F} {content : Str}
    (h : c.retrieve (CcrRef.of enc content) = some content) {item : WindowItem F}
    (hitem : CcrRef.of enc item.content = CcrRef.of enc content → item.content = content) :
    (stored enc c item).retrieve (CcrRef.of enc content) = some content := by
  unfold stored
  split
  · exact h
  · simp only [retrieve, store, ExtTreeMap.getElem?_insert]
    split
    · rename_i hkey
      have hkey : (CcrRef.of enc item.content).key = (CcrRef.of enc content).key :=
        LawfulEqOrd.compare_eq_iff_eq.mp hkey
      rw [hitem (congrArg CcrRef.mk hkey)]
    · exact h

omit [Scalar F] in
theorem retrieve_foldl_of_eq {c : CausalCompressor F} {content : Str} {items : List (WindowItem F)}
    (h : c.retrieve (CcrRef.of enc content) = some content)
    (hitems : ∀ item ∈ items, CcrRef.of enc item.content = CcrRef.of enc content → item.content = content) :
    (items.foldl (stored enc) c).retrieve (CcrRef.of enc content) = some content := by
  induction items generalizing c with
  | nil => exact h
  | cons item rest ih =>
    exact ih (retrieve_stored_of_eq h (hitems item List.mem_cons_self))
      fun other hother => hitems other (List.mem_cons_of_mem _ hother)

omit [Scalar F] in
/-- After the first phase every handle gives its original back. -/
theorem retrieve_foldl_stored {items : List (WindowItem F)} (c : CausalCompressor F)
    (hrefs : ∀ a ∈ items, ∀ b ∈ items, CcrRef.of enc a.content = CcrRef.of enc b.content → a.content = b.content)
    {item : WindowItem F} (hitem : item ∈ items) (hstored : ¬ PassesThrough enc c.config item) :
    (items.foldl (stored enc) c).retrieve (CcrRef.of enc item.content) = some item.content := by
  induction items generalizing c with
  | nil => exact absurd hitem List.not_mem_nil
  | cons first rest ih =>
    rw [List.foldl_cons]
    rcases List.mem_cons.mp hitem with rfl | hrest
    · have hown : (stored enc c item).retrieve (CcrRef.of enc item.content) = some item.content := by
        simp only [stored, hstored, if_false, retrieve, store, ExtTreeMap.getElem?_insert_self]
      exact retrieve_foldl_of_eq hown fun other hother =>
        hrefs other (List.mem_cons_of_mem _ hother) item List.mem_cons_self
    · refine ih _ (fun a ha b hb => ?_) hrest (by rwa [config_stored])
      exact hrefs a (List.mem_cons_of_mem _ ha) b (List.mem_cons_of_mem _ hb)

/-! ## Capacity -/

theorem getElem?_evictDown {cap : Nat} {keep : List Str} {key : Str} (hkey : key ∈ keep) (fuel : Nat)
    (ccr : BTreeMap Str Str) : (evictDown cap keep fuel ccr)[key]? = ccr[key]? := by
  induction fuel generalizing ccr with
  | zero => rfl
  | succ fuel ih =>
    unfold evictDown
    split
    · split
      · rename_i victim hvictim
        have hgone : victim ∉ keep := by simpa using List.find?_some hvictim
        have hne : victim ≠ key := fun h => hgone (h ▸ hkey)
        rw [ih, ExtTreeMap.getElem?_erase, if_neg (mt LawfulEqOrd.compare_eq_iff_eq.mp hne)]
      · rfl
    · rfl

/-- The rounds suffice: the store fits, or all that is left is live. -/
theorem evictDown_fits {cap : Nat} {keep : List Str} {fuel : Nat} {ccr : BTreeMap Str Str}
    (hfuel : ccr.size ≤ cap + fuel) :
    (evictDown cap keep fuel ccr).size ≤ cap ∨ ∀ key ∈ evictDown cap keep fuel ccr, key ∈ keep := by
  induction fuel generalizing ccr with
  | zero => exact .inl hfuel
  | succ fuel ih =>
    unfold evictDown
    split
    · split
      · rename_i victim hvictim
        have hmem : victim ∈ ccr := ExtTreeMap.mem_keys.mp (List.mem_of_find?_eq_some hvictim)
        apply ih
        rw [ExtTreeMap.size_erase, if_pos (ExtTreeMap.mem_iff_contains.mp hmem)]
        omega
      · rename_i hlive
        refine .inr fun key hkey => ?_
        simpa using List.find?_eq_none.mp hlive key (ExtTreeMap.mem_keys.mpr hkey)
    · rename_i hsize
      exact .inl (Nat.not_lt.mp hsize)

omit [Scalar F] in
theorem retrieve_enforceCcrCapacity (c : CausalCompressor F) {keep : List Str} {r : CcrRef}
    (hr : r.key ∈ keep) : (c.enforceCcrCapacity keep).retrieve r = c.retrieve r := by
  unfold enforceCcrCapacity
  split
  · rfl
  · exact getElem?_evictDown hr _ _

omit [Scalar F] in
theorem ccrLen_enforceCcrCapacity (c : CausalCompressor F) (keep : List Str)
    (hcap : c.config.ccrCapacity ≠ 0) :
    (c.enforceCcrCapacity keep).ccrLen ≤ c.config.ccrCapacity ∨
      ∀ key ∈ (c.enforceCcrCapacity keep).ccr, key ∈ keep := by
  simp only [enforceCcrCapacity, hcap, if_false, ccrLen]
  exact evictDown_fits (Nat.le_add_left ..)

end CausalCompressor

/-! ## The window -/

section Window

def uriOf (items : List (WindowItem F)) (j : Nat) : Str := ((items[j]?).map WindowItem.uri).getD []

/-- The uri that the placeholder of an item names; `none` when the item is not replaced. -/
def suppressedBy (enc : Encoders F) (config : CompressorConfig F) (items : List (WindowItem F)) (i : Nat) :
    Option Str :=
  ((duplicates config (items.map (CausalCompressor.form enc config)))[i]?.join).map fun j =>
    uriOf items j

/-- The content is the original, or its handle gives the original back. -/
def Reversible (c : CausalCompressor F) (item : WindowItem F) (out : CompressedItem) : Prop :=
  out.content = item.content ∨ out.ccrRef.bind c.retrieve = some item.content

instance (c : CausalCompressor F) (item : WindowItem F) (out : CompressedItem) :
    Decidable (Reversible c item out) := inferInstanceAs (Decidable (_ ∨ _))

open CausalCompressor

variable (enc) in
theorem contents_compressEach (c : CausalCompressor F) (items : List (WindowItem F)) :
    (compressEach enc c items).1.map Candidate.content = items.map (form enc c.config) := by
  have h := congrArg (List.map fun t : Str × Str × Option CcrRef => t.2.1) (compressEach_eq enc c items).1
  simpa only [List.map_map, Function.comp_def] using h

variable (enc) in
theorem refs_compressEach (c : CausalCompressor F) (items : List (WindowItem F)) :
    (compressEach enc c items).1.map Candidate.ccrRef = items.map (handle enc c.config) := by
  have h := congrArg (List.map fun t : Str × Str × Option CcrRef => t.2.2) (compressEach_eq enc c items).1
  simpa only [List.map_map, Function.comp_def] using h

variable (enc) in
theorem uriAt_compressEach (c : CausalCompressor F) (items : List (WindowItem F)) (j : Nat) :
    uriAt (compressEach enc c items).1 j = uriOf items j := by
  have h := congrArg (List.map fun t : Str × Str × Option CcrRef => t.1) (compressEach_eq enc c items).1
  simp only [List.map_map, Function.comp_def] at h
  unfold uriAt uriOf
  rw [← List.getElem?_map, ← List.getElem?_map, h]

theorem getElem?_suppress (config : CompressorConfig F) (candidates : List (Candidate F)) (i : Nat)
    {candidate : Candidate F} (h : candidates[i]? = some candidate) :
    (suppress config candidates)[i]? = some
      (match (duplicates config (candidates.map Candidate.content))[i]?.join with
        | some j => candidate.replace (uriAt candidates j)
        | none => candidate) := by
  rw [suppress, List.getElem?_mapIdx, h]
  rfl

variable (enc) in
/-- What the window hands back. -/
theorem getElem?_compressWindow (c : CausalCompressor F) {items : List (WindowItem F)} {i : Nat}
    {item : WindowItem F} (hitem : items[i]? = some item) :
    (c.compressWindow enc items).1[i]? = some
      { content := ((suppressedBy enc c.config items i).map placeholder).getD (form enc c.config item)
        ccrRef := handle enc c.config item } := by
  have hconfig : (compressEach enc { c with lastStats := [] } items).2.config = c.config := by
    rw [(compressEach_eq enc _ items).2, config_foldl_stored]
  have hcontent := congrArg (·[i]?) (contents_compressEach enc { c with lastStats := [] } items)
  have href := congrArg (·[i]?) (refs_compressEach enc { c with lastStats := [] } items)
  simp only [List.getElem?_map, hitem, Option.map_some] at hcontent href
  obtain ⟨candidate, hcandidate, hform⟩ := Option.map_eq_some_iff.mp hcontent
  rw [hcandidate, Option.map_some] at href
  have hhandle := Option.some.inj href
  have hout := getElem?_suppress c.config (compressEach enc { c with lastStats := [] } items).1 i hcandidate
  rw [contents_compressEach] at hout
  unfold compressWindow
  simp only [hconfig, List.getElem?_map, hout, Option.map_some, suppressedBy, Option.some.injEq]
  cases hdup : (duplicates c.config (items.map (form enc c.config)))[i]?.join with
  | none => simp only [Option.map_none, Option.getD_none, ← hform, ← hhandle]
  | some j =>
    simp only [Option.map_some, Option.getD_some, Candidate.replace, uriAt_compressEach, hhandle]

theorem length_compressWindow (c : CausalCompressor F) (items : List (WindowItem F)) :
    (c.compressWindow enc items).1.length = items.length := by
  have h := congrArg List.length (contents_compressEach enc { c with lastStats := [] } items)
  simp only [List.length_map] at h
  simp only [compressWindow, suppress, List.length_map, List.length_mapIdx, h]

/-- Every handle that the window hands back is live. -/
theorem retrieve_compressWindow (c : CausalCompressor F) {items : List (WindowItem F)}
    (hrefs : ∀ a ∈ items, ∀ b ∈ items, CcrRef.of enc a.content = CcrRef.of enc b.content → a.content = b.content)
    {i : Nat} {item : WindowItem F} (hitem : items[i]? = some item)
    (hstored : ¬ PassesThrough enc c.config item) :
    (c.compressWindow enc items).2.retrieve (CcrRef.of enc item.content) = some item.content := by
  have hfirst := retrieve_foldl_stored { c with lastStats := [] } hrefs (List.mem_of_getElem? hitem) hstored
  rw [← (compressEach_eq enc _ items).2] at hfirst
  have hout := getElem?_compressWindow enc c hitem
  have hkeep : (CcrRef.of enc item.content).key ∈
      (c.compressWindow enc items).1.filterMap fun out => out.ccrRef.map CcrRef.key := by
    refine List.mem_filterMap.mpr ⟨_, List.mem_of_getElem? hout, ?_⟩
    simp only [handle, hstored, if_false, Option.map_some]
  unfold compressWindow at hkeep ⊢
  exact (retrieve_enforceCcrCapacity _ hkeep).trans hfirst

/-- A window is reversible exactly when no item that passes through is replaced by a placeholder. -/
theorem window_reversible_iff (enc : Encoders F) (c : CausalCompressor F) (items : List (WindowItem F))
    (hrefs : ∀ a ∈ items, ∀ b ∈ items, CcrRef.of enc a.content = CcrRef.of enc b.content → a.content = b.content) :
    (c.compressWindow enc items).1.length = items.length ∧
      ((∀ (i : Nat) (item : WindowItem F) (out : CompressedItem),
          items[i]? = some item → (c.compressWindow enc items).1[i]? = some out →
          Reversible (c.compressWindow enc items).2 item out) ↔
        ∀ (i : Nat) (item : WindowItem F), items[i]? = some item → PassesThrough enc c.config item →
          ∀ uri, suppressedBy enc c.config items i = some uri → item.content = placeholder uri) := by
  refine ⟨length_compressWindow c items, fun h i item hitem hpass uri huri => ?_,
    fun h i item out hitem hout => ?_⟩
  · have hback := h i item _ hitem (getElem?_compressWindow enc c hitem)
    simp only [huri, handle, hpass, if_true] at hback
    exact (hback.resolve_right nofun).symm
  · rw [getElem?_compressWindow enc c hitem] at hout
    obtain rfl := Option.some.inj hout
    by_cases hpass : PassesThrough enc c.config item
    · refine .inl ?_
      cases huri : suppressedBy enc c.config items i with
      | none => exact form_of_passesThrough hpass
      | some uri => exact (h i item hitem hpass uri huri).symm
    · refine .inr ?_
      simp only [handle, hpass, if_false, Option.bind_some]
      exact retrieve_compressWindow c hrefs hitem hpass

/-! ## Two runs -/

/-- Encoders that keep the first word. -/
def headEncoders : Encoders ℚ where
  sha256Hex := id
  crush := firstPiece [' ']
  skeletonizeWith s _ := firstPiece [' '] s
  summarize s _ _ := firstPiece [' '] s

def note (uri content : Str) : WindowItem ℚ := { kind := "Note".toList, score := 1, uri, content }

/-- Two notes of the same long text: the second is replaced, and its handle still gives it back. -/
def longNotes : List (WindowItem ℚ) :=
  [note ['a'] "remember the milk and the bread".toList, note ['b'] "remember the milk and the bread".toList]

/-- Two notes below the length that is worth an encoder. -/
def shortNotes : List (WindowItem ℚ) := [note ['a'] "todo".toList, note ['b'] "todo".toList]

example : suppressedBy headEncoders .default longNotes 0 = none := by decide +kernel

theorem long_notes_are_reversible :
    suppressedBy headEncoders .default longNotes 1 = some ['a'] ∧
      ∀ (i : Nat) (item : WindowItem ℚ) (out : CompressedItem),
        longNotes[i]? = some item → (CausalCompressor.new.compressWindow headEncoders longNotes).1[i]? = some out →
        Reversible (CausalCompressor.new.compressWindow headEncoders longNotes).2 item out := by
  refine ⟨by decide +kernel, ?_⟩
  refine (window_reversible_iff headEncoders .new longNotes (by decide)).2.mpr fun i item hitem hpass => ?_
  have hnone : ∀ item ∈ longNotes, ¬ PassesThrough headEncoders .default item := by decide
  exact absurd hpass (hnone item (List.mem_of_getElem? hitem))

/-- The second note is gone. -/
theorem replaced_short_note_is_lost :
    ¬ ∀ (c : CausalCompressor ℚ) (items : List (WindowItem ℚ)),
      (∀ a ∈ items, ∀ b ∈ items,
        CcrRef.of headEncoders a.content = CcrRef.of headEncoders b.content → a.content = b.content) →
      ∀ (i : Nat) (item : WindowItem ℚ) (out : CompressedItem),
        items[i]? = some item → (c.compressWindow headEncoders items).1[i]? = some out →
        Reversible (c.compressWindow headEncoders items).2 item out := by
  intro h
  have hlost := h .new shortNotes (by decide) 1 (note ['b'] "todo".toList)
    { content := "// ~dup of a".toList, ccrRef := none } rfl (by decide +kernel)
  revert hlost
  decide

end Window

end Ccos
