import Ccos.Dgm.Guarded

/-!
# What a step measures

A step leaves everything but the archive, the evidence and its counters alone, and its patch applies to the
live tree as it did to the copy.
-/

open ByteCodec

namespace Ccos

/-! ## The order of fitness -/

/-- The order of numbers: what is not above `b` stays below what is. -/
class OrderedScore (F : Type) [Float64 F] : Prop where
  gt_of_gt : ∀ a b c : F, Float64.isFinite a = true → Scalar.gt a b = false → Scalar.gt c b = true →
    Scalar.gt c a = true

namespace Fitness

variable {F : Type} [Float64 F]

theorem isBetterThan_iff (f other : Fitness F) : f.isBetterThan other = true ↔
    other.compiles.toNat < f.compiles.toNat ∨ other.compiles.toNat = f.compiles.toNat ∧
      (f.testsFailed.toNat < other.testsFailed.toNat ∨ f.testsFailed.toNat = other.testsFailed.toNat ∧
        (other.testsPassed.toNat < f.testsPassed.toNat ∨ other.testsPassed.toNat = f.testsPassed.toNat ∧
          Scalar.gt f.score other.score = true)) := by
  have hcompiles : compare f.compiles other.compiles = compare f.compiles.toNat other.compiles.toNat := by
    cases f.compiles <;> cases other.compiles <;> decide
  unfold isBetterThan Scalar.gt
  rw [hcompiles]
  generalize f.compiles.toNat = fc
  generalize other.compiles.toNat = oc
  generalize (f.testsFailed.toNat) = ff
  generalize (other.testsFailed.toNat) = tf
  generalize (f.testsPassed.toNat) = fp
  generalize (other.testsPassed.toNat) = op
  rcases Nat.lt_trichotomy fc oc with hc | rfl | hc
  · rw [Nat.compare_eq_lt.mpr hc]
    simp only [Bool.false_eq_true, false_iff]
    omega
  · rw [Nat.compare_eq_eq.mpr rfl]
    rcases Nat.lt_trichotomy ff tf with hf | rfl | hf
    · rw [Int.compare_eq_gt.mpr (by omega)]
      simp [hf]
    · rw [Std.compare_self]
      rcases Nat.lt_trichotomy fp op with hp | rfl | hp
      · rw [Int.compare_eq_lt.mpr (by omega)]
        simp only [Bool.false_eq_true, false_iff]
        omega
      · rw [Std.compare_self]
        simp
      · rw [Int.compare_eq_gt.mpr (by omega)]
        simp [hp]
    · rw [Int.compare_eq_lt.mpr (by omega)]
      simp only [Bool.false_eq_true, false_iff]
      omega
  · rw [Nat.compare_eq_gt.mpr hc]
    simp only [true_iff]
    exact .inl hc

/-- What is better than `b` is better than whatever is not. -/
theorem isBetterThan_of_not [OrderedScore F] {a b c : Fitness F} (hfinite : Float64.isFinite a.score = true)
    (hab : a.isBetterThan b = false) (hcb : c.isBetterThan b = true) : c.isBetterThan a = true := by
  rw [isBetterThan_iff] at hcb ⊢
  have hnot : ¬ a.isBetterThan b = true := by simp [hab]
  rw [isBetterThan_iff] at hnot
  have hscore := OrderedScore.gt_of_gt a.score b.score c.score hfinite
  rcases hgt : Scalar.gt a.score b.score
  · rcases hgt' : Scalar.gt c.score b.score
    · simp only [hgt, hgt', Bool.false_eq_true, and_false, or_false] at hnot hcb
      omega
    · simp only [hgt, hgt', Bool.false_eq_true, and_false, or_false, and_true] at hnot hcb
      simp only [hscore hgt hgt', and_true]
      omega
  · simp only [hgt, and_true] at hnot
    omega

end Fitness

/-! ## The same patch on two trees -/

/-- A file that a backup may have written. -/
def IsBackup (backups : BackupDir) (path : Path) : Prop :=
  [".rsi_backups".toList] <+: path ∨ ∃ dir, backups = .inside dir ∧ dir <+: path

/-- The trees hold the same sources. -/
def SameSource (backups : BackupDir) (a b : Tree) : Prop := ∀ p, ¬ IsBackup backups p → a p = b p

/-- `live'` is `live` with the patch in its one place, backups apart. -/
def PatchedTo (backups : BackupDir) (live : Tree) (patch : Patch) (live' : Tree) : Prop :=
  ∃ path content place, relativeTarget patch.target = some path
    ∧ (live path).bind decodeUtf8 = some content ∧ locateMatch content patch.find = .ok place
    ∧ live' path = some (utf8 (replaceSpan content place patch.replace))
    ∧ ∀ p, p ≠ path → ¬ IsBackup backups p → live' p = live p

theorem BackupDir.save_other {dir : BackupDir} {tree : Tree} {id : Str} {content : Bytes} {p : Path}
    (h : ¬ IsBackup dir p) : dir.save tree id content p = tree p := by
  cases dir with
  | outside => rfl
  | inside path =>
    refine tree.write_other content fun hp => h (.inr ⟨path, rfl, ?_⟩)
    rw [hp]
    exact List.prefix_append _ _

theorem save_default_other {backups : BackupDir} {tree : Tree} {id : Str} {content : Bytes} {p : Path}
    (h : ¬ IsBackup backups p) : defaultBackups.save tree id content p = tree p := by
  refine tree.write_other content fun hp => h (.inl ?_)
  rw [hp]
  exact List.prefix_append _ _

theorem copyTree_eq {tree : Tree} {path : Path} {content : Bytes} (h : copyTree tree path = some content) :
    skipped path = false ∧ tree path = some content := by
  unfold copyTree at h
  cases hskip : skipped path
  · rw [hskip] at h
    exact ⟨rfl, h⟩
  · rw [hskip, if_pos rfl] at h
    cases h

theorem readTarget_some {tree : Tree} {target : Str} {path : Path} {content : Bytes}
    (h : readTarget tree target path = some content) : namesDirectory target = false ∧ tree path = some content := by
  unfold readTarget at h
  cases hname : namesDirectory target
  · rw [hname] at h
    exact ⟨rfl, h⟩
  · rw [hname, if_pos rfl] at h
    cases h

theorem validateRelativeTarget_ok {target : Str} {path : Path} (h : validateRelativeTarget target = .ok path) :
    relativeTarget target = some path := by
  unfold validateRelativeTarget at h
  cases hpath : relativeTarget target with
  | none =>
    rw [hpath] at h
    cases h
  | some p =>
    rw [hpath] at h
    cases h
    rfl

section Apply

variable {digest : Bytes → Bytes}

/-- What an applied patch found and what it wrote. -/
theorem patchFileWithBackup_ok {root : Str} {tree : Tree} {path : Path} {patch : Patch} {backups : BackupDir}
    {id : Str} {tree' : Tree} : patchFileWithBackup digest root tree path patch backups = .ok (id, tree') ↔
      ∃ bytes content place, readTarget tree patch.target path = some bytes ∧ decodeUtf8 bytes = some content
        ∧ locateMatch content patch.find = .ok place
        ∧ id = shortHash digest ((root ++ '/' :: patch.target) ++ '|' :: content)
        ∧ tree' = (backups.save tree id bytes).write path (utf8 (replaceSpan content place patch.replace)) := by
  unfold patchFileWithBackup
  dsimp only
  cases hread : readTarget tree patch.target path with
  | none => simp
  | some bytes =>
    cases hdecode : decodeUtf8 bytes with
    | none => simp [hdecode]
    | some content =>
      cases hplace : locateMatch content patch.find with
      | error message => simp [hdecode, hplace]
      | ok place =>
        simp only [hdecode, hplace, Except.ok.injEq, Prod.mk.injEq, Option.some.injEq]
        constructor
        · rintro ⟨rfl, rfl⟩
          exact ⟨bytes, content, place, rfl, hdecode, hplace, rfl, rfl⟩
        · rintro ⟨_, _, _, rfl, hd, hp, rfl, rfl⟩
          rw [hdecode] at hd
          cases hd
          rw [hplace] at hp
          cases hp
          exact ⟨rfl, rfl⟩

/-- What was measured on the copy can be promoted, and the live tree then has the sources of the copy. -/
theorem promoteToLive_of_applyToSnapshot {root root' : Str} {live snapshot : Tree} {patch : Patch}
    (backups : BackupDir) (h : applyToSnapshot digest root (copyTree live) patch = .ok snapshot) :
    ∃ id live', promoteToLive digest root' live patch backups = .ok (id, live')
      ∧ PatchedTo backups live patch live' ∧ SameSource backups (copyTree live') snapshot := by
  unfold applyToSnapshot at h
  cases hnoop : patch.isNoop
  · rw [hnoop, if_neg Bool.false_ne_true, bind_eq_ok] at h
    obtain ⟨path, hpath, h⟩ := h
    rw [bind_eq_ok] at h
    obtain ⟨⟨id, tree⟩, hpatch, h⟩ := h
    cases h
    obtain ⟨bytes, content, place, hread, hdecode, hplace, -, rfl⟩ := patchFileWithBackup_ok.mp hpatch
    obtain ⟨hname, hcopy⟩ := readTarget_some hread
    obtain ⟨hskip, hlive⟩ := copyTree_eq hcopy
    have hreadLive : readTarget live patch.target path = some bytes := by
      rw [readTarget, hname, if_neg Bool.false_ne_true, hlive]
    let id' := shortHash digest ((root' ++ '/' :: patch.target) ++ '|' :: content)
    let live' := (backups.save live id' bytes).write path (utf8 (replaceSpan content place patch.replace))
    have hpromote : patchFileWithBackup digest root' live path patch backups = .ok (id', live') :=
      patchFileWithBackup_ok.mpr ⟨bytes, content, place, hreadLive, hdecode, hplace, rfl, rfl⟩
    have hself : live' path = some (utf8 (replaceSpan content place patch.replace)) := Tree.write_self ..
    have hother : ∀ p, p ≠ path → ¬ IsBackup backups p → live' p = live p := by
      intro p hp hbackup
      show Tree.write _ path _ p = live p
      rw [Tree.write_other _ _ hp, BackupDir.save_other hbackup]
    refine ⟨id', live', ?_, ⟨path, content, place, validateRelativeTarget_ok hpath, ?_, hplace, hself, hother⟩, ?_⟩
    · unfold promoteToLive
      rw [hnoop, if_neg Bool.false_ne_true]
      refine bind_eq_ok.mpr ⟨path, hpath, ?_⟩
      rw [hreadLive, if_neg (Option.some_ne_none _), hpromote]
    · rw [hlive]
      exact hdecode
    · intro p hbackup
      unfold copyTree
      by_cases hp : p = path
      · rw [hp, hskip, if_neg Bool.false_ne_true, hself]
        exact (Tree.write_self ..).symm
      · rw [hother p hp hbackup, Tree.write_other _ _ hp, save_default_other hbackup]
  · rw [hnoop, if_pos rfl] at h
    cases h

end Apply

/-! ## One step of the engine -/

namespace DgmEngine

variable {P F : Type} [InfFloat64 F] {digest : Bytes → Bytes} {advisors : Advisors P F}
  {evaluator : PromotionEvaluator F} {config : DgmConfig F} {workspace : Tree}

/-- The archive, the counter of variants and the evidence are those of before. -/
structure Asked (s s' : DgmEngine P F) : Prop where
  archive : s'.archive = s.archive
  nextSeq : s'.nextSeq = s.nextSeq
  attestation : s'.attestation = s.attestation

omit [InfFloat64 F] in
theorem Asked.refl (s : DgmEngine P F) : Asked s s := ⟨rfl, rfl, rfl⟩

omit [InfFloat64 F] in
theorem Asked.trans {s s' s'' : DgmEngine P F} (h : Asked s s') (h' : Asked s' s'') : Asked s s'' :=
  ⟨h'.archive.trans h.archive, h'.nextSeq.trans h.nextSeq, h'.attestation.trans h.attestation⟩

omit [InfFloat64 F] in
theorem Asked.record {s s' : DgmEngine P F} (h : Asked s s') (outcome : StepOutcome F) :
    Asked s (s'.record outcome).2 := ⟨h.archive, h.nextSeq, h.attestation⟩

omit [InfFloat64 F] in
theorem proposeWith_asked (s : DgmEngine P F) (parent : Variant F) (rejections feedback : List Str) :
    Asked s (s.proposeWith advisors config workspace parent rejections feedback).2 := ⟨rfl, rfl, rfl⟩

omit [InfFloat64 F] in
theorem predictPatch_asked (s : DgmEngine P F) (patch : Patch) :
    Asked s (s.predictPatch advisors workspace patch).2 := by
  unfold predictPatch
  split
  · exact ⟨rfl, rfl, rfl⟩
  · exact .refl s

omit [InfFloat64 F] in
theorem reviseFrom_asked (parent : Variant F) (rejections : List Str) (left : Nat) (feedback : List Str)
    (proposal : Proposal) (pred : Option Prediction) (s : DgmEngine P F) :
    Asked s (reviseFrom advisors config workspace parent rejections left feedback proposal pred s).2 := by
  induction left generalizing feedback proposal pred s with
  | zero => exact .refl s
  | succ left ih =>
    unfold reviseFrom
    split
    · dsimp only
      have hasked : Asked s (DgmEngine.proposeWith advisors config workspace { s with revisions := s.revisions + 1 }
          parent rejections (feedback ++ [(pred.bind (·.reason)).getD noReason])).2 := ⟨rfl, rfl, rfl⟩
      split
      · exact hasked
      · split
        · exact hasked
        · exact (hasked.trans (predictPatch_asked _ _)).trans (ih _ _ _ _)
    · exact .refl s

/-- The fitness was measured on a patched copy, with evidence, or there is no new evidence. -/
def Measures (digest : Bytes → Bytes) (evaluator : PromotionEvaluator F) (config : DgmConfig F) (workspace : Tree)
    (s : DgmEngine P F) (patch : Patch) (fitness : Fitness F) (s' : DgmEngine P F) : Prop :=
  s'.attestation = s.attestation ∨
    ∃ snapshot, applyToSnapshot digest config.snapshotRoot (copyTree workspace) patch = .ok snapshot
      ∧ fitness = evaluator.fitness snapshot

theorem measure_spec (s : DgmEngine P F) (patch : Patch) (pred : Option Prediction) :
    (s.measure digest evaluator config workspace patch pred).2.archive = s.archive
      ∧ (s.measure digest evaluator config workspace patch pred).2.nextSeq = s.nextSeq
      ∧ Measures digest evaluator config workspace s patch
          (s.measure digest evaluator config workspace patch pred).1
          (s.measure digest evaluator config workspace patch pred).2 := by
  unfold measure
  split
  · exact ⟨rfl, rfl, .inl rfl⟩
  · unfold evaluateCandidate
    split
    · exact ⟨rfl, rfl, .inl rfl⟩
    · next snapshot hsnapshot => exact ⟨rfl, rfl, .inr ⟨snapshot, hsnapshot, rfl⟩⟩

/-- The variant that a measured proposal becomes. -/
def measuredChild (digest : Bytes → Bytes) (config : DgmConfig F) (s : DgmEngine P F) (parent : Variant F)
    (proposal : Proposal) (fitness : Fitness F) : Variant F :=
  { Variant.child digest parent proposal.patch proposal.rationale s.nextSeq with
    fitness := some fitness, status := if acceptable config parent fitness then .accepted else .rejected }

theorem conclude_eq (s : DgmEngine P F) (parent : Variant F) (proposal : Proposal) (fitness : Fitness F) :
    let child := measuredChild digest config s parent proposal fitness
    let concluded := s.conclude digest config parent proposal fitness
    concluded.1 = .ok (.evaluated child.id child.parent (acceptable config parent fitness) fitness)
      ∧ concluded.2.archive = (if acceptable config parent fitness then s.archive.insert child else s.archive)
      ∧ concluded.2.nextSeq = s.nextSeq + 1 ∧ concluded.2.attestation = s.attestation := by
  dsimp only
  unfold conclude measuredChild record rememberRejection
  dsimp only
  cases acceptable config parent fitness <;> exact ⟨rfl, rfl, rfl, rfl⟩

/-- A step that measures nothing, or one that measures a patch against the parent that it drew. -/
def StepSpec (digest : Bytes → Bytes) (evaluator : PromotionEvaluator F) (config : DgmConfig F) (workspace : Tree)
    (s : DgmEngine P F) (stepped : Except DgmError (StepOutcome F) × DgmEngine P F) : Prop :=
  (Asked s stepped.2 ∧ (stepped.1 = .ok .noProposal ∨ ∃ e, stepped.1 = .error e))
    ∨ ∃ parent proposal fitness, (s.archive.selectParent s.rng).1 = some parent
      ∧ stepped.1 = .ok (.evaluated (measuredChild digest config s parent proposal fitness).id (some parent.id)
          (acceptable config parent fitness) fitness)
      ∧ stepped.2.archive = (if acceptable config parent fitness then
          s.archive.insert (measuredChild digest config s parent proposal fitness) else s.archive)
      ∧ stepped.2.nextSeq = s.nextSeq + 1
      ∧ Measures digest evaluator config workspace s proposal.patch fitness stepped.2

theorem measure_conclude_spec {s asked : DgmEngine P F} (hasked : Asked s asked) {parent : Variant F}
    (hparent : (s.archive.selectParent s.rng).1 = some parent) (proposal : Proposal) (pred : Option Prediction) :
    StepSpec digest evaluator config workspace s
      ((asked.measure digest evaluator config workspace proposal.patch pred).2.conclude digest config parent proposal
        (asked.measure digest evaluator config workspace proposal.patch pred).1) := by
  have hmeasured := @measure_spec P F _ digest evaluator config workspace asked proposal.patch pred
  generalize asked.measure digest evaluator config workspace proposal.patch pred = measured at hmeasured ⊢
  obtain ⟨fitness, m⟩ := measured
  obtain ⟨harchive, hseq, hmeasures⟩ := hmeasured
  obtain ⟨houtcome, harchive', hseq', hattestation⟩ := @conclude_eq P F _ digest config m parent proposal fitness
  dsimp only at harchive hseq
  have hchild : measuredChild digest config m parent proposal fitness
      = measuredChild digest config s parent proposal fitness := by
    unfold measuredChild
    rw [hseq, hasked.nextSeq]
  rw [hchild] at houtcome harchive'
  refine .inr ⟨parent, proposal, fitness, hparent, houtcome, ?_, ?_, ?_⟩
  · rw [harchive', harchive, hasked.archive]
  · rw [hseq', hseq, hasked.nextSeq]
  · rcases hmeasures with h | h
    · exact .inl (hattestation.trans (h.trans hasked.attestation))
    · exact .inr h

theorem step_spec (s : DgmEngine P F) :
    StepSpec digest evaluator config workspace s (s.step digest advisors evaluator config workspace) := by
  unfold step
  dsimp only
  have hdrawn : Asked s { s with rng := (s.archive.selectParent s.rng).2 } := ⟨rfl, rfl, rfl⟩
  cases hparent : (s.archive.selectParent s.rng).1 with
  | none => exact .inl ⟨hdrawn.record _, .inl rfl⟩
  | some parent =>
    dsimp only
    have hproposed : Asked s (DgmEngine.proposeWith advisors config workspace
        { s with rng := (s.archive.selectParent s.rng).2 } parent s.recentRejections []).2 :=
      hdrawn.trans (proposeWith_asked _ _ _ _)
    generalize DgmEngine.proposeWith advisors config workspace { s with rng := (s.archive.selectParent s.rng).2 }
      parent s.recentRejections [] = answer at hproposed ⊢
    obtain ⟨e | proposed, asked⟩ := answer
    · exact .inl ⟨hproposed, .inr ⟨e, rfl⟩⟩
    · dsimp only
      cases useful proposed with
      | none => exact .inl ⟨hproposed.record _, .inl rfl⟩
      | some proposal =>
        dsimp only
        have hpredicted : Asked s (asked.predictPatch advisors workspace proposal.patch).2 :=
          hproposed.trans (predictPatch_asked _ _)
        have hrevised : Asked s (reviseFrom advisors config workspace parent s.recentRejections
            config.simulatedRevisions [] proposal (asked.predictPatch advisors workspace proposal.patch).1
            (asked.predictPatch advisors workspace proposal.patch).2).2 :=
          hpredicted.trans (reviseFrom_asked _ _ _ _ _ _ _)
        generalize reviseFrom advisors config workspace parent s.recentRejections config.simulatedRevisions [] proposal
          (asked.predictPatch advisors workspace proposal.patch).1
          (asked.predictPatch advisors workspace proposal.patch).2 = revised at hrevised ⊢
        obtain ⟨e | ⟨last, pred⟩, revised⟩ := revised
        · exact .inl ⟨hrevised, .inr ⟨e, rfl⟩⟩
        · exact measure_conclude_spec hrevised hparent last pred

end DgmEngine

end Ccos
