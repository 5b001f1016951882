import Ccos.Migrate.Records
import Ccos.Memory.Facts

/-!
# When the lossless verdict is right

A document is compared by hash, and a code file is only looked up. The verdict is therefore right
exactly when the code records leave ingestion as they came, with no two of them at odds.
-/

open Std

set_option linter.unusedSectionVars false

namespace Ccos.Migrate

variable {F M : Type} [Scalar F]

/-! ## What is retained -/

/-- `source_for`. -/
def sourceFor (mem : CcosMemory F) (uri : Str) : Option Str :=
  mem.sources[if startsWith "file:".toList uri then uri else fileKey uri]?

/-- The exact content of a record is still in the memory. -/
def Retained (mode : Mode) (mem : CcosMemory F) (rec : CmbRecord F M) : Prop :=
  if isCode rec mode then sourceFor mem (codeUri rec) = some rec.content
  else ∃ n, mem.graph.nodes[nodeIdFor rec mode]? = some n ∧ n.content = rec.content

/-- The code records agree on each file, and the sanitizer leaves them alone. -/
structure CodeAgrees (t : MigrateTools F) (mode : Mode) (records : List (CmbRecord F M)) : Prop where
  same : ∀ a ∈ records, ∀ b ∈ records, isCode a mode → isCode b mode →
    stripFile (codeUri a) = stripFile (codeUri b) → a.content = b.content
  clean : ∀ a ∈ records, isCode a mode → (t.defang a.content).1 = a.content

theorem sourceFor_eq (mem : CcosMemory F) (uri : Str) :
    sourceFor mem uri = mem.sources[fileKey (stripFile uri)]? := by
  unfold sourceFor startsWith
  split
  · next h =>
    obtain ⟨rest, rfl⟩ := List.isPrefixOf_iff_prefix.mp h
    have hstrip : stripFile ("file:".toList ++ rest) = rest := by
      rfl
    rw [hstrip]
    rfl
  · next h =>
    have hstrip : stripFile uri = uri := by
      unfold stripFile stripPrefix
      cases hp : "file:".toList.isPrefixOf? uri with
      | none => rfl
      | some rest =>
        refine absurd ?_ h
        rw [← List.isSome_isPrefixOf?_eq_isPrefixOf, hp]
        rfl
    rw [hstrip]

/-! ## The passes -/

def codeOf (mode : Mode) (records : List (CmbRecord F M)) : List (Str × Str) :=
  (records.filter fun rec => isCode rec mode).map fun rec => (codeUri rec, rec.content)

theorem foldl_record (t : MigrateTools F) (mode : Mode) (records : List (CmbRecord F M)) (p : Pass F M) :
    (records.foldl (Pass.record t mode) p).code = p.code ++ codeOf mode records ∧
      (records.foldl (Pass.record t mode) p).manifest = p.manifest ++ records.map (manifestEntry t mode) ∧
      (records.foldl (Pass.record t mode) p).report.hashMismatches = p.report.hashMismatches := by
  induction records generalizing p with
  | nil => simp [codeOf]
  | cons rec records ih =>
    obtain ⟨hcode, hmanifest, hmiss⟩ := ih (p.record t mode rec)
    rw [List.foldl_cons, hcode, hmanifest, hmiss]
    by_cases hc : isCode rec mode = true
    · simp [Pass.record, Pass.relate, Pass.place, Pass.account, hc, codeOf]
    · simp [Pass.record, Pass.relate, Pass.place, Pass.account, hc, codeOf]

/-! ## Ingestion -/

/-- The last code file of a path decides what is kept of it. -/
theorem sources_ingestCode (t : MigrateTools F) (code : List (Str × Str)) (mem : CcosMemory F) (path : Str) :
    (ingestCode t mem code).sources[fileKey path]? =
      ((code.reverse.find? fun (uri, _) => stripFile uri = path).map fun (_, content) =>
        (t.defang content).1).or mem.sources[fileKey path]? := by
  induction code using List.reverseRecOn with
  | nil => simp [ingestCode]
  | append_singleton code last ih =>
    obtain ⟨uri, content⟩ := last
    have hsnoc : ingestCode t mem (code ++ [(uri, content)]) =
        (ingestCode t mem code).ingestDeferred t.toTools uri content := List.foldl_concat ..
    have hkey : fileKey path = fileKey (stripFile uri) ↔ stripFile uri = path := by
      unfold fileKey
      rw [List.append_cancel_left_eq, eq_comm]
    rw [hsnoc, List.reverse_append, List.reverse_singleton, List.singleton_append]
    simp only [CcosMemory.ingestDeferred, getElem?_insert_eq, hkey]
    by_cases hpath : stripFile uri = path
    · simp [hpath]
    · rw [if_neg hpath, List.find?_cons_of_neg (by simpa using hpath)]
      exact ih

theorem sources_resolve (t : MigrateTools F) (mem : CcosMemory F) :
    (resolveCounted t mem).1.sources = mem.sources := by
  change (mem.resolve t.toTools).sources = mem.sources
  unfold CcosMemory.resolve
  split
  · simp only [CcosMemory.onGraph]
  · rfl

/-! ## Verification -/

def EntryHolds (t : MigrateTools F) (mem : CcosMemory F) (entry : ManifestEntry M) : Prop :=
  ∃ n, mem.graph.nodes[entry.nodeId]? = some n ∧
    (startsWith "doc:".toList entry.nodeId = true → t.sha256 n.content = entry.contentSha256)

theorem verifyEntry_cases (t : MigrateTools F) (mem : CcosMemory F) (report : MigrationReport)
    (entry : ManifestEntry M) :
    EntryHolds t mem entry ∧ verifyEntry t mem report entry = report ∨
      (verifyEntry t mem report entry).hashMismatches = report.hashMismatches + 1 := by
  unfold verifyEntry EntryHolds
  split
  · exact .inr rfl
  · next n hn =>
    split
    · exact .inr rfl
    · next hok =>
      refine .inl ⟨⟨n, hn, fun hdoc => ?_⟩, rfl⟩
      by_contra hne
      exact hok ⟨hdoc, hne⟩

theorem hashMismatches_le (t : MigrateTools F) (mem : CcosMemory F) (manifest : List (ManifestEntry M))
    (report : MigrationReport) :
    report.hashMismatches ≤ (verifyEntries t mem manifest report).hashMismatches := by
  induction manifest generalizing report with
  | nil => exact Nat.le_refl _
  | cons entry manifest ih =>
    have hrest := ih (verifyEntry t mem report entry)
    rcases verifyEntry_cases t mem report entry with ⟨-, heq⟩ | hmiss
    · rw [heq] at hrest
      unfold verifyEntries
      rw [List.foldl_cons, heq]
      exact hrest
    · exact Nat.le_trans (by omega) hrest

theorem entries_hold (t : MigrateTools F) (mem : CcosMemory F) {manifest : List (ManifestEntry M)}
    {report : MigrationReport} (h : (verifyEntries t mem manifest report).hashMismatches = 0) :
    ∀ entry ∈ manifest, EntryHolds t mem entry := by
  induction manifest generalizing report with
  | nil => simp
  | cons entry manifest ih =>
    have hrest : (verifyEntries t mem manifest (verifyEntry t mem report entry)).hashMismatches = 0 := h
    have hle := hashMismatches_le t mem manifest (verifyEntry t mem report entry)
    intro e he
    rcases List.mem_cons.mp he with rfl | he
    · rcases verifyEntry_cases t mem report e with ⟨hholds, -⟩ | hmiss
      · exact hholds
      · omega
    · exact ih hrest e he

/-! ## The verdict -/

/-- What a migration that comes out well has gone through. -/
theorem migrateRecords_ok {t : MigrateTools F} {records : List (CmbRecord F M)} {cfg : MigrateConfig}
    {out : MigrationOutcome F M} (h : migrateRecords t records cfg = .ok out) (hverify : cfg.verify = true)
    (hlossless : out.report.lossless = true) :
    (∃ mem, out.memory = (resolveCounted t (ingestCode t mem (codeOf cfg.mode records))).1) ∧
      ∀ rec ∈ records, EntryHolds t out.memory (manifestEntry t cfg.mode rec) := by
  obtain ⟨hcode, hmanifest, hmiss⟩ := foldl_record t cfg.mode records Pass.start
  unfold migrateRecords at h
  dsimp only at h
  split at h
  · cases h
  next mem _ =>
  obtain rfl := Except.ok.inj h
  have hcode' : (firstPass t cfg.mode records).code = codeOf cfg.mode records := hcode
  refine ⟨⟨mem, by rw [hcode']⟩, fun rec hrec => ?_⟩
  dsimp only at hlossless
  rw [hverify, if_pos rfl, decide_eq_true_eq] at hlossless
  refine entries_hold t _ hlossless _ ?_
  have hm : (firstPass t cfg.mode records).manifest = records.map (manifestEntry t cfg.mode) := hmanifest
  rw [hm]
  exact List.mem_map_of_mem hrec

theorem startsWith_docId (raw : Str) : startsWith "doc:".toList (docId raw) = true := by
  unfold startsWith docId
  exact List.isPrefixOf_iff_prefix.mpr (List.prefix_append _ _)

/-- Documents are always retained under the verdict. -/
theorem retained_document {t : MigrateTools F} (hsha : Function.Injective t.sha256) {mode : Mode}
    {mem : CcosMemory F} {rec : CmbRecord F M} (hdoc : isCode rec mode = false)
    (h : EntryHolds t mem (manifestEntry t mode rec)) : Retained mode mem rec := by
  obtain ⟨n, hn, hhash⟩ := h
  have hid : nodeIdFor rec mode = docId rec.id := by simp [nodeIdFor, hdoc]
  unfold Retained
  rw [hdoc, if_neg (by simp)]
  refine ⟨n, hn, hsha (hhash ?_)⟩
  unfold manifestEntry
  dsimp only
  rw [hid]
  exact startsWith_docId rec.id

/-- What is kept of a code record's path, in terms of the records alone. -/
theorem exists_lastCode {mode : Mode} {records : List (CmbRecord F M)} {rec : CmbRecord F M}
    (hrec : rec ∈ records) (hcode : isCode rec mode = true) :
    ∃ last ∈ records, isCode last mode = true ∧ stripFile (codeUri last) = stripFile (codeUri rec) ∧
      ((codeOf mode records).reverse.find? fun (uri, _) => stripFile uri = stripFile (codeUri rec)) =
        some (codeUri last, last.content) := by
  have hsome : ((codeOf mode records).reverse.find? fun (uri, _) =>
      stripFile uri = stripFile (codeUri rec)).isSome = true := by
    rw [List.find?_isSome]
    refine ⟨(codeUri rec, rec.content), List.mem_reverse.mpr ?_, by simp⟩
    exact List.mem_map.mpr ⟨rec, List.mem_filter.mpr ⟨hrec, hcode⟩, rfl⟩
  obtain ⟨pair, hpair⟩ := Option.isSome_iff_exists.mp hsome
  obtain ⟨last, hlast, rfl⟩ := List.mem_map.mp (List.mem_reverse.mp (List.mem_of_find?_eq_some hpair))
  have hpath := List.find?_some hpair
  exact ⟨last, (List.mem_filter.mp hlast).1, (List.mem_filter.mp hlast).2, by simpa using hpath, hpair⟩

theorem retained_code_iff (t : MigrateTools F) (mode : Mode) (records : List (CmbRecord F M))
    (mem : CcosMemory F) {rec : CmbRecord F M} (hrec : rec ∈ records) (hcode : isCode rec mode = true) :
    ∃ last ∈ records, isCode last mode = true ∧ stripFile (codeUri last) = stripFile (codeUri rec) ∧
      ∀ other ∈ records, isCode other mode = true → stripFile (codeUri other) = stripFile (codeUri rec) →
        (Retained mode (resolveCounted t (ingestCode t mem (codeOf mode records))).1 other ↔
          (t.defang last.content).1 = other.content) := by
  obtain ⟨last, hlast, hlcode, hpath, hfind⟩ := exists_lastCode hrec hcode
  refine ⟨last, hlast, hlcode, hpath, fun other _ hocode hopath => ?_⟩
  unfold Retained
  rw [hocode, if_pos rfl, sourceFor_eq, sources_resolve, sources_ingestCode, hopath, hfind]
  simp

/-- The verdict is right of every record exactly when it is of the code records. -/
theorem lossless_retains_iff (t : MigrateTools F) (hsha : Function.Injective t.sha256)
    (records : List (CmbRecord F M)) (cfg : MigrateConfig) (hverify : cfg.verify = true)
    (out : MigrationOutcome F M) (h : migrateRecords t records cfg = .ok out)
    (hlossless : out.report.lossless = true) :
    (∀ rec ∈ records, Retained cfg.mode out.memory rec) ↔ CodeAgrees t cfg.mode records := by
  obtain ⟨⟨mem, hmem⟩, hentries⟩ := migrateRecords_ok h hverify hlossless
  constructor
  · intro hall
    have hlast : ∀ a ∈ records, isCode a cfg.mode = true → ∃ content, (t.defang content).1 = content ∧
        ∀ other ∈ records, isCode other cfg.mode = true →
          stripFile (codeUri other) = stripFile (codeUri a) → content = other.content := by
      intro a ha hcode
      obtain ⟨last, hl, hlcode, hpath, hiff⟩ := retained_code_iff t cfg.mode records mem ha hcode
      have hkept := (hiff last hl hlcode hpath).mp (hmem ▸ hall last hl)
      refine ⟨last.content, hkept, fun other ho hocode hopath => ?_⟩
      exact hkept.symm.trans ((hiff other ho hocode hopath).mp (hmem ▸ hall other ho))
    refine ⟨fun a ha b hb hca hcb hpath => ?_, fun a ha hca => ?_⟩
    · obtain ⟨content, -, hsame⟩ := hlast a ha hca
      exact (hsame a ha hca rfl).symm.trans (hsame b hb hcb hpath.symm)
    · obtain ⟨content, hclean, hsame⟩ := hlast a ha hca
      rw [← hsame a ha hca rfl]
      exact hclean
  · intro hagrees rec hrec
    cases hcode : isCode rec cfg.mode with
    | false => exact retained_document hsha hcode (hentries rec hrec)
    | true =>
      obtain ⟨last, hl, hlcode, hpath, hiff⟩ := retained_code_iff t cfg.mode records mem hrec hcode
      rw [hmem]
      refine (hiff rec hrec hcode rfl).mpr ?_
      rw [hagrees.clean last hl hlcode, hagrees.same last hl rec hrec hlcode hcode hpath]

/-! ## Concrete bundles -/

def plainTools : MigrateTools ℚ where
  toTools := Tools.plain fun _ _ => Extracted.empty
  nodeOrder := id
  saved _ := none

def plainRecord (id content : String) (sourceUri : Option String) : CmbRecord ℚ Unit :=
  ⟨id.toList, "chunk".toList, content.toList, sourceUri.map String.toList, none, none, (), [], none⟩

def verified : MigrateConfig := ⟨.auto, true, none⟩

def notesAndCode : List (CmbRecord ℚ Unit) :=
  [plainRecord "n" "note" none, plainRecord "a" "x" (some "a.rs")]

theorem notes_and_code_retained :
    ∃ out, migrateRecords plainTools notesAndCode verified = .ok out ∧ out.report.lossless = true ∧
      ∀ rec ∈ notesAndCode, Retained verified.mode out.memory rec := by
  have hrun : ((migrateRecords plainTools notesAndCode verified).toOption.any fun out =>
      out.report.lossless) = true := by decide +kernel
  cases hout : migrateRecords plainTools notesAndCode verified with
  | error e =>
    rw [hout] at hrun
    cases hrun
  | ok out =>
    rw [hout] at hrun
    have hagrees : CodeAgrees plainTools verified.mode notesAndCode := by
      constructor
      · decide
      · exact fun _ _ _ => rfl
    exact ⟨out, rfl, hrun, (lossless_retains_iff plainTools Function.injective_id notesAndCode verified rfl
      out hout hrun).mpr hagrees⟩

def twiceTheSameFile : List (CmbRecord ℚ Unit) :=
  [plainRecord "a" "x" (some "a.rs"), plainRecord "b" "y" (some "a.rs")]

/-- The first of two contents of one file is gone, and the verdict is still lossless. -/
theorem lossless_with_a_lost_record :
    ∃ out, migrateRecords plainTools twiceTheSameFile verified = .ok out ∧ out.report.lossless = true ∧
      ∃ rec ∈ twiceTheSameFile, ¬ Retained verified.mode out.memory rec := by
  have hrun : ((migrateRecords plainTools twiceTheSameFile verified).toOption.any fun out =>
      out.report.lossless && sourceFor out.memory "a.rs".toList == some "y".toList) = true := by
    decide +kernel
  cases hout : migrateRecords plainTools twiceTheSameFile verified with
  | error e =>
    rw [hout] at hrun
    cases hrun
  | ok out =>
    rw [hout] at hrun
    obtain ⟨hlossless, hsource⟩ := Bool.and_eq_true_iff.mp hrun
    refine ⟨out, rfl, hlossless, _, List.mem_cons_self, fun hkept => ?_⟩
    have hx : sourceFor out.memory "a.rs".toList = some "x".toList := hkept
    rw [hx] at hsource
    cases hsource

end Ccos.Migrate
