import Ccos.Session.Scanned

/-!
# A sync against a fresh scan

A path is settled when a sync has applied the last change that was reported of it. The graph shows a
settled path as a new scanner would.
-/

open Std

namespace Ccos

/-! ## Deltas -/

/-- The delta mentions the path. -/
def WorkspaceDelta.mentions (delta : WorkspaceDelta) (path : Str) : Bool :=
  decide (path ∈ delta.added ∨ path ∈ delta.modified ∨ path ∈ delta.removed)

/-- The last change that was reported of the path was applied. -/
def Settled (path : Str) (reports : List (Bool × WorkspaceDelta)) : Prop :=
  ((reports.reverse.find? fun r => r.2.mentions path).all fun r => r.1) = true

instance (path : Str) (reports : List (Bool × WorkspaceDelta)) : Decidable (Settled path reports) :=
  inferInstanceAs (Decidable (_ = true))

theorem settled_snoc {path : Str} {reports : List (Bool × WorkspaceDelta)} {applied : Bool} {delta : WorkspaceDelta} :
    Settled path (reports ++ [(applied, delta)]) ↔
      if delta.mentions path then applied = true else Settled path reports := by
  unfold Settled
  rw [List.reverse_append, List.reverse_singleton, List.singleton_append, List.find?_cons]
  cases delta.mentions path with
  | true => rfl
  | false => rfl

namespace WorkspaceScanner

section

variable {previous : BTreeMap Str Hash} {current : Current} {p : Str}

theorem mem_added : p ∈ (diff previous current).added ↔
    previous[p]? = none ∧ ∃ h c, current[p]? = some (h, c) := by
  unfold diff
  simp only [List.mem_filter, ExtTreeMap.mem_keys, Option.isNone_iff_eq_none]
  rw [and_comm]
  refine and_congr_right fun _ => ⟨fun h => ?_, ?_⟩
  · obtain ⟨e, he⟩ := exists_getElem?_of_mem h
    exact ⟨e.1, e.2, he⟩
  · rintro ⟨h, c, he⟩
    exact ExtTreeMap.mem_iff_isSome_getElem?.mpr (he ▸ rfl)

theorem mem_modified : p ∈ (diff previous current).modified ↔
    ∃ old h c, previous[p]? = some old ∧ current[p]? = some (h, c) ∧ h ≠ old := by
  unfold diff
  simp only [List.mem_filter, ExtTreeMap.mem_keys, Option.any_eq_true, decide_eq_true_eq]
  constructor
  · rintro ⟨hmem, old, hold, hne⟩
    obtain ⟨e, he⟩ := exists_getElem?_of_mem hmem
    refine ⟨old, e.1, e.2, hold, he, fun heq => hne ?_⟩
    rw [he, Option.map_some, heq]
  · rintro ⟨old, h, c, hold, he, hne⟩
    refine ⟨ExtTreeMap.mem_iff_isSome_getElem?.mpr (he ▸ rfl), old, hold, ?_⟩
    rw [he, Option.map_some, Ne, Option.some.injEq]
    exact hne

theorem mem_removed : p ∈ (diff previous current).removed ↔
    current[p]? = none ∧ ∃ old, previous[p]? = some old := by
  unfold diff
  simp only [List.mem_filter, ExtTreeMap.mem_keys, Option.isNone_iff_eq_none]
  rw [and_comm]
  refine and_congr_right fun _ => ⟨exists_getElem?_of_mem, ?_⟩
  rintro ⟨old, hold⟩
  exact ExtTreeMap.mem_iff_isSome_getElem?.mpr (hold ▸ rfl)

/-- A delta mentions the paths whose hash is not what it was. -/
theorem mentions_diff : (diff previous current).mentions p = true ↔ previous[p]? ≠ (current[p]?).map Prod.fst := by
  unfold WorkspaceDelta.mentions
  rw [decide_eq_true_eq, mem_added, mem_modified, mem_removed]
  cases hold : previous[p]? with
  | none =>
    cases he : current[p]? with
    | none => simp
    | some e =>
      obtain ⟨h, c⟩ := e
      simp
  | some old =>
    cases he : current[p]? with
    | none => simp
    | some e =>
      obtain ⟨h, c⟩ := e
      simp [eq_comm]

/-! ## The actions of a delta -/

theorem mem_actions_ingest {q c : Str} : .ingest q c ∈ actions (diff previous current) current ↔
    ∃ h, current[q]? = some (h, c) ∧ (diff previous current).mentions q = true := by
  unfold actions
  simp only [List.mem_append, List.mem_filterMap, List.mem_map, reduceCtorEq, and_false, exists_false, or_false,
    Option.map_eq_some_iff, FileAction.ingest.injEq]
  constructor
  · rintro ⟨_, hmem, ⟨h, _⟩, he, rfl, rfl⟩
    refine ⟨h, he, ?_⟩
    unfold WorkspaceDelta.mentions
    rw [decide_eq_true_eq, ← or_assoc]
    exact .inl hmem
  · rintro ⟨h, he, hmentions⟩
    refine ⟨q, ?_, (h, c), he, rfl, rfl⟩
    unfold WorkspaceDelta.mentions at hmentions
    rw [decide_eq_true_eq, ← or_assoc] at hmentions
    refine hmentions.resolve_right fun hremoved => ?_
    rw [(mem_removed.mp hremoved).1] at he
    cases he

theorem mem_actions_evict {q : Str} : .evict q ∈ actions (diff previous current) current ↔
    current[q]? = none ∧ (diff previous current).mentions q = true := by
  unfold actions
  simp only [List.mem_append, List.mem_filterMap, List.mem_map, reduceCtorEq, and_false, exists_false, false_or,
    Option.map_eq_some_iff, FileAction.evict.injEq, exists_eq_right]
  rw [mem_removed, mentions_diff]
  refine and_congr_right fun hnone => ?_
  rw [hnone, Option.map_none, Option.ne_none_iff_exists']

/-- A path that the delta mentions has one action: to build what it is now. -/
theorem mem_actions_path {a : FileAction} (ha : a ∈ actions (diff previous current) current) :
    (diff previous current).mentions a.path = true ∧
      ((∃ h c, current[a.path]? = some (h, c) ∧ a = .ingest a.path c) ∨
        current[a.path]? = none ∧ a = .evict a.path) := by
  cases a with
  | ingest q c =>
    obtain ⟨h, he, hmentions⟩ := mem_actions_ingest.mp ha
    exact ⟨hmentions, .inl ⟨h, c, he, rfl⟩⟩
  | evict q =>
    obtain ⟨hnone, hmentions⟩ := mem_actions_evict.mp ha
    exact ⟨hmentions, .inr ⟨hnone, rfl⟩⟩

end

section

variable {F : Type} [Scalar F] {t : Tools F}

/-! ## What a sync leaves resident -/

/-- A graph of the current files would hold the id. -/
def Wanted (t : Tools F) (current : Current) (p : Str) (k : NodeId) : Prop :=
  ∃ h c, current[p]? = some (h, c) ∧ k ∈ fileIds t p c

/-- A sync brings the files of its delta up to date and leaves the others as they were. -/
theorem mem_actions_foldl {g : MemoryGraph F} {previous : BTreeMap Str Hash} {current : Current} {p : Str} {k : NodeId}
    (hroom : Runs.EachStep (act t) (ActRoom t) g (actions (diff previous current) current))
    (hprevious : ∀ q ∈ previous, ':' ∉ q) (hcurrent : ∀ q ∈ current, ':' ∉ q) (hp : ':' ∉ p)
    (hk : MemoryGraph.ownedBy p k = true) :
    k ∈ ((actions (diff previous current) current).foldl (act t) g).nodes ↔
      if (diff previous current).mentions p then Wanted t current p k else k ∈ g.nodes := by
  have hclean : ∀ a ∈ actions (diff previous current) current, ':' ∉ a.path := by
    intro a ha
    have hmentions := mentions_diff.mp (mem_actions_path ha).1
    by_cases hin : a.path ∈ current
    · exact hcurrent a.path hin
    · apply hprevious a.path
      rw [ExtTreeMap.getElem?_eq_none hin, Option.map_none] at hmentions
      exact ExtTreeMap.mem_iff_isSome_getElem?.mpr (Option.isSome_iff_ne_none.mpr hmentions)
  split
  · rename_i hmentions
    cases he : current[p]? with
    | none =>
      have hmem := mem_actions_evict.mpr ⟨he, hmentions⟩
      rw [mem_acts_own hroom hclean hmem ?_ hk]
      · refine iff_of_false id ?_
        rintro ⟨h, c, hsome, -⟩
        rw [he] at hsome
        cases hsome
      · rintro a ha (hpath : a.path = p)
        rcases (mem_actions_path ha).2 with ⟨h, c, hsome, -⟩ | ⟨-, heq⟩
        · rw [hpath, he] at hsome
          cases hsome
        · rw [heq, hpath]
    | some e =>
      have hmem := mem_actions_ingest.mpr ⟨e.1, he, hmentions⟩
      rw [mem_acts_own hroom hclean hmem ?_ hk]
      · constructor
        · intro hleaves
          exact ⟨e.1, e.2, he, hleaves⟩
        · rintro ⟨h, c, hsome, hin⟩
          rw [he, Option.some.injEq] at hsome
          rw [hsome]
          exact hin
      · rintro a ha (hpath : a.path = p)
        rcases (mem_actions_path ha).2 with ⟨h, c, hsome, heq⟩ | ⟨hnone, -⟩
        · rw [hpath, he, Option.some.injEq] at hsome
          rw [heq, hpath, hsome]
        · rw [hpath, he] at hnone
          cases hnone
  · rename_i hmentions
    apply mem_acts_other hroom hclean hp _ hk
    rintro a ha rfl
    exact hmentions (mem_actions_path ha).1

end

end WorkspaceScanner

/-! ## What a session keeps -/

namespace ScanSession

open WorkspaceScanner

variable {F : Type} [Scalar F]

section

variable (t : Tools F)

/-- The cap is not reached while the call runs. -/
def CallRoom (s : ScanSession F) (call : Directory × ScanOp) : Prop :=
  match call.2 with
  | .sync =>
    let current := s.scanner.readCurrent t call.1
    Runs.EachStep (act t) (ActRoom t) s.graph (actions (diff s.scanner.files current) current)
  | _ => True

instance (s : ScanSession F) (call : Directory × ScanOp) : Decidable (s.CallRoom t call) :=
  match call with
  | (dir, .sync) =>
    let current := s.scanner.readCurrent t dir
    Runs.decidableEachStep (act t) (ActRoom t) s.graph (actions (diff s.scanner.files current) current)
  | (_, .scanWorkspace) => .isTrue trivial
  | (_, .updateDelta) => .isTrue trivial

/-- No two contents that a file has had share their hash. -/
def NoCollisions (dirs : List Directory) : Prop :=
  ∀ d ∈ dirs, ∀ d' ∈ dirs, ∀ p c c' : Str, d[p]? = some c → d'[p]? = some c' → t.sha256 c = t.sha256 c' → c = c'

/-- `current` is what the last call has read, and the graph shows it for every settled path. -/
structure InStep (root : Str) (dirs : List Directory) (current : Current) (s : ScanSession F) : Prop where
  root_eq : s.scanner.root = root
  files : s.scanner.files = current.map fun _ e => e.1
  read : ∀ (p : Str) (h : Hash) (c : Str), current[p]? = some (h, c) → h = t.sha256 c ∧ ∃ d ∈ dirs, d[p]? = some c
  shows : ∀ p, ':' ∉ p → Settled p s.reports →
    ∀ k, MemoryGraph.ownedBy p k = true → (k ∈ s.graph.nodes ↔ Wanted t current p k)

end

variable {t : Tools F} {root : Str} {dirs : List Directory} {current : Current} {s : ScanSession F}

theorem start_inStep (threshold : F) (cap : Nat) : (start root threshold cap).InStep t root dirs ∅ where
  root_eq := rfl
  files := by
    apply ExtTreeMap.ext_getElem?
    intro p
    rw [ExtTreeMap.getElem?_map]
    rfl
  read := by
    intro p h c he
    rw [ExtTreeMap.getElem?_empty] at he
    cases he
  shows := by
    intro p _ _ k _
    refine iff_of_false ExtTreeMap.not_mem_empty ?_
    rintro ⟨h, c, he, -⟩
    rw [ExtTreeMap.getElem?_empty] at he
    cases he

omit [Scalar F] in
theorem getElem?_readCurrent {sc : WorkspaceScanner} {dir : Directory} {p : Str} {h : Hash} {c : Str}
    (he : (sc.readCurrent t dir)[p]? = some (h, c)) : h = t.sha256 c ∧ dir[p]? = some c := by
  unfold readCurrent at he
  rw [ExtTreeMap.getElem?_map, Option.map_eq_some_iff] at he
  obtain ⟨content, hcontent, heq⟩ := he
  obtain ⟨rfl, rfl⟩ := Prod.mk.inj heq
  refine ⟨rfl, ?_⟩
  rw [ExtTreeMap.getElem?_filter] at hcontent
  exact Option.eq_some_of_pfilter_eq_some hcontent

/-- A path that the delta does not mention is wanted as it was. -/
theorem InStep.wanted_iff (hin : s.InStep t root dirs current) (hdistinct : NoCollisions t dirs) {dir : Directory}
    (hdir : dir ∈ dirs) {p : Str} {k : NodeId}
    (hmentions : ¬ (diff s.scanner.files (s.scanner.readCurrent t dir)).mentions p = true) :
    Wanted t current p k ↔ Wanted t (s.scanner.readCurrent t dir) p k := by
  rw [mentions_diff, not_not, hin.files, ExtTreeMap.getElem?_map] at hmentions
  unfold Wanted
  cases hold : current[p]? with
  | none =>
    cases hnew : (s.scanner.readCurrent t dir)[p]? with
    | none => rfl
    | some e =>
      rw [hold, hnew] at hmentions
      cases hmentions
  | some e =>
    cases hnew : (s.scanner.readCurrent t dir)[p]? with
    | none =>
      rw [hold, hnew] at hmentions
      cases hmentions
    | some e' =>
      obtain ⟨h, c⟩ := e
      obtain ⟨h', c'⟩ := e'
      obtain ⟨hh, d, hd, hc⟩ := hin.read p h c hold
      obtain ⟨hh', hc'⟩ := getElem?_readCurrent hnew
      rw [hold, hnew] at hmentions
      have hhash : h = h' := Option.some.inj hmentions
      have hsame : c = c' := hdistinct d hd dir hdir p c c' hc hc' (by rw [← hh, ← hh', hhash])
      rw [hhash, hsame]

theorem InStep.step (hin : s.InStep t root dirs current) (hcolon : ∀ d ∈ dirs, ∀ p ∈ d, ':' ∉ p)
    (hdistinct : NoCollisions t dirs) {call : Directory × ScanOp} (hdir : call.1 ∈ dirs) (hroom : s.CallRoom t call) :
    (s.step t call).InStep t root dirs (s.scanner.readCurrent t call.1) := by
  obtain ⟨dir, op⟩ := call
  have hread : ∀ (p : Str) (h : Hash) (c : Str), (s.scanner.readCurrent t dir)[p]? = some (h, c) →
      h = t.sha256 c ∧ ∃ d ∈ dirs, d[p]? = some c := by
    intro p h c he
    obtain ⟨hh, hc⟩ := getElem?_readCurrent he
    exact ⟨hh, dir, hdir, hc⟩
  -- A report that is not applied: its paths are not settled, and the others are as they were.
  have hreported : ∀ p, ':' ∉ p →
      Settled p (s.reports ++ [(false, diff s.scanner.files (s.scanner.readCurrent t dir))]) →
      ∀ k, MemoryGraph.ownedBy p k = true → (k ∈ s.graph.nodes ↔ Wanted t (s.scanner.readCurrent t dir) p k) := by
    intro p hp hsettled k hk
    rw [settled_snoc] at hsettled
    split at hsettled
    · cases hsettled
    · rename_i hmentions
      rw [hin.shows p hp hsettled k hk, hin.wanted_iff hdistinct hdir hmentions]
  cases op with
  | scanWorkspace => exact ⟨hin.root_eq, rfl, hread, hreported⟩
  | updateDelta => exact ⟨hin.root_eq, rfl, hread, hreported⟩
  | sync =>
    refine ⟨hin.root_eq, rfl, hread, ?_⟩
    intro p hp hsettled k hk
    have hprevious : ∀ q ∈ s.scanner.files, ':' ∉ q := by
      intro q hq
      rw [hin.files, ExtTreeMap.mem_map] at hq
      obtain ⟨e, he⟩ := exists_getElem?_of_mem hq
      obtain ⟨-, d, hd, hc⟩ := hin.read q e.1 e.2 he
      exact hcolon d hd q (ExtTreeMap.mem_iff_isSome_getElem?.mpr (hc ▸ rfl))
    have hcurrent : ∀ q ∈ s.scanner.readCurrent t dir, ':' ∉ q := by
      intro q hq
      obtain ⟨e, he⟩ := exists_getElem?_of_mem hq
      obtain ⟨-, hc⟩ := getElem?_readCurrent he
      exact hcolon dir hdir q (ExtTreeMap.mem_iff_isSome_getElem?.mpr (hc ▸ rfl))
    have hsync := mem_actions_foldl hroom hprevious hcurrent hp hk
    change Settled p (s.reports ++ [(true, diff s.scanner.files (s.scanner.readCurrent t dir))]) at hsettled
    rw [settled_snoc] at hsettled
    refine hsync.trans ?_
    split
    · rfl
    · rename_i hmentions
      rw [if_neg hmentions] at hsettled
      rw [hin.shows p hp hsettled k hk, hin.wanted_iff hdistinct hdir hmentions]

theorem run_inStep (hcolon : ∀ d ∈ dirs, ∀ p ∈ d, ':' ∉ p) (hdistinct : NoCollisions t dirs)
    {calls : List (Directory × ScanOp)} (hdirs : ∀ call ∈ calls, call.1 ∈ dirs)
    (hroom : Runs.EachStep (step t) (CallRoom t) s calls) (hin : s.InStep t root dirs current) :
    ∃ current', (Runs.run (step t) s calls).InStep t root dirs current' := by
  induction calls generalizing s current with
  | nil => exact ⟨current, hin⟩
  | cons call calls ih =>
    obtain ⟨hdir, hdirs⟩ := List.forall_mem_cons.mp hdirs
    exact ih hdirs hroom.2 (hin.step hcolon hdistinct hdir hroom.1)

/-- After a sync the graph holds the ids of every settled path as a new scanner's first sync would. -/
theorem sync_matches_fresh {threshold threshold' : F} {cap cap' : Nat} {calls : List (Directory × ScanOp)}
    {dir : Directory} (hcolon : ∀ d ∈ dir :: calls.map Prod.fst, ∀ p ∈ d, ':' ∉ p)
    (hdistinct : NoCollisions t (dir :: calls.map Prod.fst))
    (hroom : Runs.EachStep (step t) (CallRoom t) (start root threshold cap) (calls ++ [(dir, .sync)]))
    (hfresh : (start root threshold' cap').CallRoom t (dir, .sync)) {p : Str} (hp : ':' ∉ p)
    (hsettled : Settled p (Runs.run (step t) (start root threshold cap) (calls ++ [(dir, .sync)])).reports)
    {id : NodeId} (hid : MemoryGraph.ownedBy p id = true) :
    id ∈ (Runs.run (step t) (start root threshold cap) (calls ++ [(dir, .sync)])).graph.nodes ↔
      id ∈ (step t (start root threshold' cap') (dir, .sync)).graph.nodes := by
  have hdirs : ∀ call ∈ calls, call.1 ∈ dir :: calls.map Prod.fst :=
    fun call hcall => List.mem_cons_of_mem dir (List.mem_map_of_mem hcall)
  have hdir : dir ∈ dir :: calls.map Prod.fst := List.mem_cons_self
  obtain ⟨hbefore, hlast, -⟩ := Runs.eachStep_append.mp hroom
  obtain ⟨current, hin⟩ := run_inStep hcolon hdistinct hdirs hbefore (start_inStep threshold cap)
  have hrun := hin.step hcolon hdistinct hdir hlast
  have hnew := InStep.step (start_inStep threshold' cap') hcolon hdistinct hdir hfresh
  have hread : (Runs.run (step t) (start root threshold cap) calls).scanner.readCurrent t dir =
      (start root threshold' cap').scanner.readCurrent t dir := by
    unfold readCurrent
    rw [hin.root_eq]
    rfl
  rw [hread] at hrun
  have hall : Settled p (step t (start root threshold' cap') (dir, .sync)).reports := by
    change Settled p ([] ++ [(true, _)])
    rw [settled_snoc]
    split
    · rfl
    · rfl
  have hsnoc : Runs.run (step t) (start root threshold cap) (calls ++ [(dir, .sync)]) =
      step t (Runs.run (step t) (start root threshold cap) calls) (dir, .sync) := List.foldl_concat _ _ _ _
  rw [hsnoc] at hsettled ⊢
  rw [hrun.shows p hp hsettled id hid, hnew.shows p hp hall id hid]

/-! ## One file, reported and synced -/

def plainTools : Tools ℚ := Tools.plain fun _ _ => .empty

def oneFile : Directory := (∅ : Directory).insert "root/a.rs".toList "fn a() {}".toList

def editedFile : Directory := (∅ : Directory).insert "root/a.rs".toList "fn b() {}".toList

theorem mem_single {p q c : Str} : q ∈ (∅ : Directory).insert p c ↔ q = p := by
  rw [mem_insert_iff]
  exact or_iff_left ExtTreeMap.not_mem_empty

theorem sync_matches_fresh_after_edit :
    "file:root/a.rs".toList ∈ (Runs.run (step plainTools) (start "root".toList (1 / 5) 10)
        ([(oneFile, .sync)] ++ [(editedFile, .sync)])).graph.nodes ↔
      "file:root/a.rs".toList ∈ (step plainTools (start "root".toList (1 / 5) 10) (editedFile, .sync)).graph.nodes :=
  have hclean : ∀ d ∈ [editedFile, oneFile], ∀ p ∈ d, ':' ∉ p := by
    simp only [List.forall_mem_cons, oneFile, editedFile, mem_single, forall_eq]
    exact ⟨by decide, by decide, fun x hx => absurd hx List.not_mem_nil⟩
  sync_matches_fresh hclean (fun _ _ _ _ _ _ _ _ _ h => h) (by decide +kernel) (by decide +kernel)
    (show ':' ∉ "root/a.rs".toList by decide) (by decide +kernel) (by decide)

/-- A report that no sync applies uses up the addition of the file. -/
theorem report_hides_file :
    (∀ p ∈ oneFile.keys, ':' ∉ p) ∧
    Runs.EachStep (step plainTools) (CallRoom plainTools) (start "root".toList (1 / 5) 10)
      [(oneFile, .scanWorkspace), (oneFile, .sync)] ∧
    (start "root".toList (1 / 5 : ℚ) 10).CallRoom plainTools (oneFile, .sync) ∧
    "file:root/a.rs".toList ∉ (Runs.run (step plainTools) (start "root".toList (1 / 5) 10)
      [(oneFile, .scanWorkspace), (oneFile, .sync)]).graph.nodes ∧
    "file:root/a.rs".toList ∈ (step plainTools (start "root".toList (1 / 5) 10) (oneFile, .sync)).graph.nodes := by
  decide +kernel

end ScanSession

end Ccos
