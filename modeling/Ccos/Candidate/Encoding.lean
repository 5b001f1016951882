import Ccos.Lib.ByteCodec
import Ccos.Candidate.Policy
import Ccos.Candidate.Search
import Ccos.Candidate.ExecutionProfile

/-!
# What canonical bytes determine

Every field of a receipt marks its own end, and every kind of receipt starts with a text of its own.
Objective values are told apart by their bit patterns only.
-/

open ByteCodec

namespace Ccos

/-! ## Fields -/

/-- A text of the source is shorter than `isize::MAX` bytes. -/
def FitsMemory (s : Str) : Prop := byteLen s < 2 ^ 63

instance (s : Str) : Decidable (FitsMemory s) := inferInstanceAs (Decidable (_ < _))

theorem digestHex_injective {sha256 : Bytes → Bytes} (hinj : Function.Injective sha256) :
    Function.Injective (digestHex sha256) := lowerHex_injective.comp hinj

theorem delimits_utf8 {width : Nat} : Delimits (fun s => byteLen s < 256 ^ width) (fun s => putBytes width (utf8 s)) id := by
  intro a b ha hb x y h
  rw [← length_utf8] at ha hb
  obtain ⟨hbytes, hrest⟩ := delimits_putBytes width ha hb h
  exact ⟨utf8_injective hbytes, hrest⟩

theorem delimits_pushStr : Delimits FitsMemory pushStr id :=
  delimits_utf8.mono fun s (hs : byteLen s < 2 ^ 63) => show byteLen s < 256 ^ 8 by omega

theorem delimits_pushOptStr : Delimits (fun o => ∀ s ∈ o, FitsMemory s) pushOptStr id := by
  intro a b ha hb x y h
  obtain ⟨hview, hrest⟩ := delimits_pushStr.option ha hb (x := x) (y := y) (by cases a <;> cases b <;> exact h)
  exact ⟨by simpa using hview, hrest⟩

theorem pushStr_append_inj {a b : Str} (ha : FitsMemory a) (hb : FitsMemory b) {x y : Bytes}
    (h : pushStr a ++ x = pushStr b ++ y) : a = b ∧ x = y := delimits_pushStr ha hb h

theorem pushU16_append_inj {a b : UInt16} {x y : Bytes} (h : pushU16 a ++ x = pushU16 b ++ y) : a = b ∧ x = y := by
  obtain ⟨hnat, hrest⟩ := @leOf_append_inj 2 _ _ a.toNat_lt b.toNat_lt _ _ h
  exact ⟨UInt16.toNat_inj.mp hnat, hrest⟩

theorem pushU64_append_inj {a b : UInt64} {x y : Bytes} (h : pushU64 a ++ x = pushU64 b ++ y) : a = b ∧ x = y := by
  obtain ⟨hnat, hrest⟩ := @leOf_append_inj 8 _ _ a.toNat_lt b.toNat_lt _ _ h
  exact ⟨UInt64.toNat_inj.mp hnat, hrest⟩

theorem putU32_append_inj {a b : UInt32} {x y : Bytes} (h : putU32 a ++ x = putU32 b ++ y) : a = b ∧ x = y := by
  obtain ⟨hnat, hrest⟩ := @leOf_append_inj 4 _ _ a.toNat_lt b.toNat_lt _ _ h
  exact ⟨UInt32.toNat_inj.mp hnat, hrest⟩

theorem pushBool_append_inj {a b : Bool} {x y : Bytes} (h : pushBool a ++ x = pushBool b ++ y) : a = b ∧ x = y := by
  obtain ⟨htag, hrest⟩ := List.cons.inj h
  refine ⟨?_, hrest⟩
  cases a <;> cases b <;> first | rfl | exact absurd htag (by decide)

theorem CandidateOrigin.tag_injective : Function.Injective CandidateOrigin.tag := by
  intro a b h
  cases a <;> cases b <;> first | rfl | exact absurd h (by decide)

theorem EvaluationStatus.tag_injective : Function.Injective EvaluationStatus.tag := by
  intro a b h
  cases a <;> cases b <;> first | rfl | exact absurd h (by decide)

theorem AdoptionDecision.tag_injective : Function.Injective AdoptionDecision.tag := by
  intro a b h
  cases a <;> cases b <;> first | rfl | exact absurd h (by decide)

theorem backendTag_injective : Function.Injective backendTag := by
  intro a b h
  cases a <;> cases b <;> first | rfl | exact absurd h (by decide)

theorem architectureTag_injective : Function.Injective architectureTag := by
  intro a b h
  cases a <;> cases b <;> first | rfl | exact absurd h (by decide)

theorem reproducibilityTag_injective : Function.Injective reproducibilityTag := by
  intro a b h
  cases a <;> cases b <;> first | rfl | exact absurd h (by decide)

/-! ## Values -/

variable {F : Type} [Float64 F]

def CandidateEnvelope.texts (c : CandidateEnvelope) : List Str :=
  [c.candidateId, c.domain, c.sourceSha256] ++ c.producerCandidateId.toList ++ c.parentCandidateId.toList
    ++ c.proposalSha256.toList

def EvaluationReceipt.texts (r : EvaluationReceipt F) : List Str :=
  [r.candidateFingerprint, r.evaluatorId, r.sandboxPolicyId, r.stdoutSha256, r.stderrSha256]
    ++ r.executionProfileSha256.toList ++ r.verifierSha256.toList ++ r.failureReason.toList
    ++ r.objectives.map ObjectiveValue.name

def AdoptionReceipt.texts (a : AdoptionReceipt) : List Str :=
  [a.evaluationFingerprint, a.policyId, a.reason] ++ a.previousChampionId.toList ++ a.promotedArtifactSha256.toList

def CounterexampleReceipt.texts (r : CounterexampleReceipt) : List Str :=
  [r.candidateFingerprint, r.generatorId, r.oracleId, r.oracleContractSha256, r.shrinkerId, r.originalInputSha256,
    r.minimizedInputSha256, r.failureKind]

def SeedEvidence.texts (e : SeedEvidence) : List Str :=
  [e.championCandidateId, e.challengerCandidateId, e.championEnvelopeFingerprint, e.challengerEnvelopeFingerprint,
    e.championEvaluationFingerprint, e.challengerEvaluationFingerprint]

def PromotionEvidenceBundle.texts (b : PromotionEvidenceBundle) : List Str :=
  [b.championCandidateId, b.challengerCandidateId] ++ (b.selection ++ b.holdout).flatMap SeedEvidence.texts

/-- The texts and the lengths of the lists of a value of the source. -/
def FitInMemory (texts : List Str) (lengths : List Nat) : Prop :=
  (∀ s ∈ texts, FitsMemory s) ∧ ∀ n ∈ lengths, n < 2 ^ 63

instance (texts : List Str) (lengths : List Nat) : Decidable (FitInMemory texts lengths) :=
  inferInstanceAs (Decidable (_ ∧ _))

/-- An objective with the bit pattern of its value. -/
def ObjectiveValue.bits (o : ObjectiveValue F) : ObjectiveValue UInt64 where
  name := o.name
  value := Float64.toBits o.value
  minimize := o.minimize

def EvaluationReceipt.bits (r : EvaluationReceipt F) : EvaluationReceipt UInt64 :=
  { r with objectives := r.objectives.map ObjectiveValue.bits }

theorem CandidateEnvelope.canonicalBytes_inj {c c' : CandidateEnvelope} (hc : FitInMemory c.texts [])
    (hc' : FitInMemory c'.texts []) (h : c.canonicalBytes = c'.canonicalBytes) : c = c' := by
  have hfits : ∀ s ∈ c.texts, FitsMemory s := hc.1
  have hfits' : ∀ s ∈ c'.texts, FitsMemory s := hc'.1
  simp only [texts, List.cons_append, List.nil_append, List.mem_cons, List.mem_append, Option.mem_toList,
    or_imp, forall_and, forall_eq, or_assoc] at hfits hfits'
  obtain ⟨hid, hdomain, hsource, hproducer, hparent, hproposal⟩ := hfits
  obtain ⟨hid', hdomain', hsource', hproducer', hparent', hproposal'⟩ := hfits'
  simp only [canonicalBytes, List.append_assoc] at h
  have h := List.append_cancel_left h
  obtain ⟨hschema, h⟩ := pushU16_append_inj h
  obtain ⟨hid, h⟩ := pushStr_append_inj hid hid' h
  obtain ⟨hproducer, h⟩ := delimits_pushOptStr hproducer hproducer' h
  obtain ⟨hparent, h⟩ := delimits_pushOptStr hparent hparent' h
  obtain ⟨horigin, h⟩ := List.cons.inj h
  obtain ⟨hdomain, h⟩ := pushStr_append_inj hdomain hdomain' h
  obtain ⟨hsource, h⟩ := pushStr_append_inj hsource hsource' h
  obtain ⟨hproposal, h⟩ := delimits_pushOptStr hproposal hproposal' h
  have hseed := (pushU64_append_inj (x := []) (y := []) (by simpa using h)).1
  cases c
  cases c'
  simp only [id] at *
  simp [*, CandidateOrigin.tag_injective horigin]

theorem delimits_objective : Delimits (fun o : ObjectiveValue F => FitsMemory o.name) ObjectiveValue.canonicalBytes
    ObjectiveValue.bits := by
  intro o o' ho ho' x y h
  simp only [ObjectiveValue.canonicalBytes, List.append_assoc] at h
  obtain ⟨hname, h⟩ := pushStr_append_inj ho ho' h
  obtain ⟨hvalue, h⟩ := pushU64_append_inj h
  obtain ⟨hminimize, hrest⟩ := pushBool_append_inj h
  simp only [ObjectiveValue.bits, hname, hvalue, hminimize]
  exact ⟨trivial, hrest⟩

theorem EvaluationReceipt.canonicalBytes_inj {r r' : EvaluationReceipt F}
    (hr : FitInMemory r.texts [r.objectives.length]) (hr' : FitInMemory r'.texts [r'.objectives.length])
    (h : r.canonicalBytes = r'.canonicalBytes) : r.bits = r'.bits := by
  have hfits : ∀ s ∈ r.texts, FitsMemory s := hr.1
  have hfits' : ∀ s ∈ r'.texts, FitsMemory s := hr'.1
  have hlen : r.objectives.length < 256 ^ 8 := (hr.2 _ List.mem_cons_self).trans (by decide)
  have hlen' : r'.objectives.length < 256 ^ 8 := (hr'.2 _ List.mem_cons_self).trans (by decide)
  simp only [texts, List.cons_append, List.nil_append, List.mem_cons, List.mem_append, Option.mem_toList,
    or_imp, forall_and, forall_eq, or_assoc, List.mem_map, forall_exists_index, and_imp,
    forall_apply_eq_imp_iff₂] at hfits hfits'
  obtain ⟨hcandidate, hevaluator, hpolicy, hstdout, hstderr, hprofile, hverifier, hreason, hnames⟩ := hfits
  obtain ⟨hcandidate', hevaluator', hpolicy', hstdout', hstderr', hprofile', hverifier', hreason', hnames'⟩ := hfits'
  simp only [canonicalBytes, List.append_assoc] at h
  have h := List.append_cancel_left h
  obtain ⟨hschema, h⟩ := pushU16_append_inj h
  obtain ⟨hcandidate, h⟩ := pushStr_append_inj hcandidate hcandidate' h
  obtain ⟨hevaluator, h⟩ := pushStr_append_inj hevaluator hevaluator' h
  obtain ⟨hpolicy, h⟩ := pushStr_append_inj hpolicy hpolicy' h
  obtain ⟨hprofile, h⟩ := delimits_pushOptStr hprofile hprofile' h
  obtain ⟨hverifier, h⟩ := delimits_pushOptStr hverifier hverifier' h
  obtain ⟨hseed, h⟩ := pushU64_append_inj h
  obtain ⟨hstatus, h⟩ := List.cons.inj h
  obtain ⟨hcount, h⟩ := leOf_append_inj hlen hlen' h
  obtain ⟨hobjectives, h⟩ := delimits_objective.elements hcount hnames hnames' h
  obtain ⟨hstdout, h⟩ := pushStr_append_inj hstdout hstdout' h
  obtain ⟨hstderr, h⟩ := pushStr_append_inj hstderr hstderr' h
  obtain ⟨htimed, h⟩ := pushBool_append_inj h
  obtain ⟨htruncated, h⟩ := pushBool_append_inj h
  have hreason := (delimits_pushOptStr hreason hreason' (x := []) (y := []) (by simpa using h)).1
  simp only [id] at *
  simp only [bits, EvaluationStatus.tag_injective hstatus, *]

theorem AdoptionReceipt.canonicalBytes_inj {a a' : AdoptionReceipt} (ha : FitInMemory a.texts [])
    (ha' : FitInMemory a'.texts []) (h : a.canonicalBytes = a'.canonicalBytes) : a = a' := by
  have hfits : ∀ s ∈ a.texts, FitsMemory s := ha.1
  have hfits' : ∀ s ∈ a'.texts, FitsMemory s := ha'.1
  simp only [texts, List.cons_append, List.nil_append, List.mem_cons, List.mem_append, Option.mem_toList,
    or_imp, forall_and, forall_eq] at hfits hfits'
  obtain ⟨hevaluation, hpolicy, hreason, hchampion, hartifact⟩ := hfits
  obtain ⟨hevaluation', hpolicy', hreason', hchampion', hartifact'⟩ := hfits'
  simp only [canonicalBytes, List.append_assoc] at h
  have h := List.append_cancel_left h
  obtain ⟨hschema, h⟩ := pushU16_append_inj h
  obtain ⟨hevaluation, h⟩ := pushStr_append_inj hevaluation hevaluation' h
  obtain ⟨hpolicy, h⟩ := pushStr_append_inj hpolicy hpolicy' h
  obtain ⟨hdecision, h⟩ := List.cons.inj h
  obtain ⟨hreason, h⟩ := pushStr_append_inj hreason hreason' h
  obtain ⟨hchampion, h⟩ := delimits_pushOptStr hchampion hchampion' h
  have hartifact := (delimits_pushOptStr hartifact hartifact' (x := []) (y := []) (by simpa using h)).1
  cases a
  cases a'
  simp only [id] at *
  simp [*, AdoptionDecision.tag_injective hdecision]

theorem CounterexampleReceipt.canonicalBytes_inj {r r' : CounterexampleReceipt} (hr : FitInMemory r.texts [])
    (hr' : FitInMemory r'.texts []) (h : r.canonicalBytes = r'.canonicalBytes) : r = r' := by
  have hfits : ∀ s ∈ r.texts, FitsMemory s := hr.1
  have hfits' : ∀ s ∈ r'.texts, FitsMemory s := hr'.1
  simp only [texts, List.mem_cons, List.not_mem_nil, or_false, or_imp, forall_and, forall_eq] at hfits hfits'
  obtain ⟨hcandidate, hgenerator, horacle, hcontract, hshrinker, horiginal, hminimized, hkind⟩ := hfits
  obtain ⟨hcandidate', hgenerator', horacle', hcontract', hshrinker', horiginal', hminimized', hkind'⟩ := hfits'
  simp only [canonicalBytes, List.append_assoc] at h
  have h := List.append_cancel_left h
  obtain ⟨hschema, h⟩ := pushU16_append_inj h
  obtain ⟨hcandidate, h⟩ := pushStr_append_inj hcandidate hcandidate' h
  obtain ⟨hgenerator, h⟩ := pushStr_append_inj hgenerator hgenerator' h
  obtain ⟨horacle, h⟩ := pushStr_append_inj horacle horacle' h
  obtain ⟨hcontract, h⟩ := pushStr_append_inj hcontract hcontract' h
  obtain ⟨hshrinker, h⟩ := pushStr_append_inj hshrinker hshrinker' h
  obtain ⟨hseed, h⟩ := pushU64_append_inj h
  obtain ⟨hordinal, h⟩ := pushU64_append_inj h
  obtain ⟨horiginal, h⟩ := pushStr_append_inj horiginal horiginal' h
  obtain ⟨horiginalBytes, h⟩ := pushU64_append_inj h
  obtain ⟨hminimized, h⟩ := pushStr_append_inj hminimized hminimized' h
  obtain ⟨hminimizedBytes, h⟩ := pushU64_append_inj h
  obtain ⟨hkind, h⟩ := pushStr_append_inj hkind hkind' h
  obtain ⟨hgeneration, h⟩ := pushU64_append_inj h
  have hshrink := (pushU64_append_inj (x := []) (y := []) (by simpa using h)).1
  cases r
  cases r'
  simp only at *
  simp [*]

theorem delimits_seedEvidence : Delimits (fun e : SeedEvidence => ∀ s ∈ e.texts, FitsMemory s)
    SeedEvidence.canonicalBytes id := by
  intro e e' hfits hfits' x y h
  simp only [SeedEvidence.texts, List.mem_cons, List.not_mem_nil, or_false, or_imp, forall_and, forall_eq]
    at hfits hfits'
  obtain ⟨hchampion, hchallenger, henvelope, henvelope', hevaluation, hevaluation'⟩ := hfits
  obtain ⟨hchampion₂, hchallenger₂, henvelope₂, henvelope₂', hevaluation₂, hevaluation₂'⟩ := hfits'
  simp only [SeedEvidence.canonicalBytes, List.append_assoc] at h
  obtain ⟨hseed, h⟩ := pushU64_append_inj h
  obtain ⟨hchampion, h⟩ := pushStr_append_inj hchampion hchampion₂ h
  obtain ⟨hchallenger, h⟩ := pushStr_append_inj hchallenger hchallenger₂ h
  obtain ⟨henvelope, h⟩ := pushStr_append_inj henvelope henvelope₂ h
  obtain ⟨henvelope', h⟩ := pushStr_append_inj henvelope' henvelope₂' h
  obtain ⟨hevaluation, h⟩ := pushStr_append_inj hevaluation hevaluation₂ h
  obtain ⟨hevaluation', hrest⟩ := pushStr_append_inj hevaluation' hevaluation₂' h
  refine ⟨?_, hrest⟩
  cases e
  cases e'
  simp only at *
  simp [*]

theorem delimits_stageBytes : Delimits
    (fun entries : List SeedEvidence => entries.length < 256 ^ 8 ∧ ∀ e ∈ entries, ∀ s ∈ e.texts, FitsMemory s)
    PromotionEvidenceBundle.stageBytes id := by
  intro entries entries' h h' x y heq
  have hview := delimits_seedEvidence.list 8 h h' heq
  rwa [List.map_id, List.map_id] at hview

theorem PromotionEvidenceBundle.canonicalBytes_inj {b b' : PromotionEvidenceBundle}
    (hb : FitInMemory b.texts [b.selection.length, b.holdout.length])
    (hb' : FitInMemory b'.texts [b'.selection.length, b'.holdout.length])
    (h : b.canonicalBytes = b'.canonicalBytes) : b = b' := by
  have hstages : ∀ b : PromotionEvidenceBundle, FitInMemory b.texts [b.selection.length, b.holdout.length] →
      FitsMemory b.championCandidateId ∧ FitsMemory b.challengerCandidateId ∧
        (b.selection.length < 256 ^ 8 ∧ ∀ e ∈ b.selection, ∀ s ∈ e.texts, FitsMemory s) ∧
        (b.holdout.length < 256 ^ 8 ∧ ∀ e ∈ b.holdout, ∀ s ∈ e.texts, FitsMemory s) := by
    intro b hb
    have hrows : ∀ e ∈ b.selection ++ b.holdout, ∀ s ∈ e.texts, FitsMemory s := fun e he s hs =>
      hb.1 s (List.mem_append_right _ (List.mem_flatMap.mpr ⟨e, he, hs⟩))
    refine ⟨hb.1 _ (by simp [texts]), hb.1 _ (by simp [texts]), ⟨?_, fun e he => hrows e (by simp [he])⟩, ?_,
      fun e he => hrows e (by simp [he])⟩
    · exact (hb.2 _ List.mem_cons_self).trans (by decide)
    · exact (hb.2 _ (List.mem_cons_of_mem _ List.mem_cons_self)).trans (by decide)
  obtain ⟨hchampion, hchallenger, hselection, hholdout⟩ := hstages b hb
  obtain ⟨hchampion', hchallenger', hselection', hholdout'⟩ := hstages b' hb'
  simp only [canonicalBytes, List.append_assoc] at h
  have h := List.append_cancel_left h
  obtain ⟨hchampion, h⟩ := pushStr_append_inj hchampion hchampion' h
  obtain ⟨hchallenger, h⟩ := pushStr_append_inj hchallenger hchallenger' h
  obtain ⟨hselection, h⟩ := delimits_stageBytes hselection hselection' h
  have hholdout := (delimits_stageBytes hholdout hholdout' (x := []) (y := []) (by simpa using h)).1
  cases b
  cases b'
  simp only [id] at *
  simp [*]

theorem delimits_putText : Delimits (fun s => byteLen s ≤ maxSemanticTextBytes) putText id :=
  delimits_utf8.mono fun s hs => show byteLen s < 256 ^ 4 from Nat.lt_of_le_of_lt hs (by decide)

theorem delimits_putU64 : Delimits (fun _ => True) putU64 id := fun _ _ _ _ _ _ h => pushU64_append_inj h

theorem ExecutionProfile.bytes_inj {p p' : ExecutionProfile} (hp : p.validate = .ok ()) (hp' : p'.validate = .ok ())
    (h : p.bytes = p'.bytes) : p = p' := by
  have hshort : ∀ s ∈ p.texts, byteLen s ≤ maxSemanticTextBytes := fun s => byteLen_le_of_validate hp
  have hshort' : ∀ s ∈ p'.texts, byteLen s ≤ maxSemanticTextBytes := fun s => byteLen_le_of_validate hp'
  simp only [texts, List.cons_append, List.nil_append, List.mem_cons, List.mem_append, Option.mem_toList,
    or_imp, forall_and, forall_eq] at hshort hshort'
  obtain ⟨hcapability, htopology, hmodel, htokenizer, hmode, hkernel, hsampler, hname⟩ := hshort
  obtain ⟨hcapability', htopology', hmodel', htokenizer', hmode', hkernel', hsampler', hname'⟩ := hshort'
  simp only [bytes, List.append_assoc] at h
  have h := List.append_cancel_left h
  obtain ⟨hschema, h⟩ := pushU16_append_inj h
  obtain ⟨hbackend, h⟩ := List.cons.inj h
  obtain ⟨hdevice, h⟩ := putU32_append_inj h
  obtain ⟨hfamily, h⟩ := List.cons.inj h
  obtain ⟨hname, h⟩ := delimits_putText.option hname hname' h
  obtain ⟨hcapability, h⟩ := delimits_putText hcapability hcapability' h
  obtain ⟨htopology, h⟩ := delimits_putText htopology htopology' h
  obtain ⟨hbudget, h⟩ := delimits_putU64.option (fun _ _ => trivial) (fun _ _ => trivial) h
  obtain ⟨hmode, h⟩ := delimits_putText hmode hmode' h
  obtain ⟨hreproducibility, h⟩ := List.cons.inj h
  obtain ⟨hkernel, h⟩ := delimits_putText hkernel hkernel' h
  obtain ⟨hsampler, h⟩ := delimits_putText.option hsampler hsampler' h
  obtain ⟨hmodel, h⟩ := delimits_putText hmodel hmodel' h
  have htokenizer := (delimits_putText htokenizer htokenizer' (x := []) (y := []) (by simpa using h)).1
  obtain ⟨_, _, _, ⟨family, name⟩, ⟨capability⟩, ⟨topology⟩, _, _, _, _, _, ⟨model⟩, ⟨tokenizer⟩⟩ := p
  obtain ⟨_, _, _, ⟨family', name'⟩, ⟨capability'⟩, ⟨topology'⟩, _, _, _, _, _, ⟨model'⟩, ⟨tokenizer'⟩⟩ := p'
  simp only [id, Option.map_id_fun] at *
  simp [*, backendTag_injective hbackend, architectureTag_injective hfamily,
    reproducibilityTag_injective hreproducibility]

/-- `canonical_bytes` of a valid profile. -/
theorem ExecutionProfile.canonicalBytes_of_valid {p : ExecutionProfile} (h : p.validate = .ok ()) :
    p.canonicalBytes = .ok p.bytes := by
  rw [canonicalBytes, h]
  rfl

/-! ## The kinds -/

inductive ReceiptKind
  | candidate | evaluation | adoption | counterexample | evidence | profile
  deriving DecidableEq, Repr

/-- The text that the bytes of a kind start with. -/
def ReceiptKind.domain : ReceiptKind → Bytes
  | .candidate => utf8 "memorithm.candidate-envelope.v1\x00".toList
  | .evaluation => utf8 "memorithm.evaluation-receipt.v1\x00".toList
  | .adoption => utf8 "memorithm.adoption-receipt.v1\x00".toList
  | .counterexample => utf8 "memorithm.counterexample-receipt.v1\x00".toList
  | .evidence => utf8 "memorithm.promotion-evidence.v1\x00".toList
  | .profile => utf8 "scirust.execution-profile.v1\x00".toList

def ReceiptKind.all : List ReceiptKind := [.candidate, .evaluation, .adoption, .counterexample, .evidence, .profile]

/-- No kind's text starts another kind's. -/
theorem ReceiptKind.domain_append_inj {k k' : ReceiptKind} {x y : Bytes} (h : k.domain ++ x = k'.domain ++ y) :
    k = k' ∧ x = y := by
  have hall : ∀ k : ReceiptKind, k ∈ all := by
    intro k
    cases k <;> decide
  have hfree : ∀ k ∈ all, ∀ k' ∈ all, k.domain <+: k'.domain → k = k' := by decide
  have hkind : k = k' := by
    rcases List.prefix_or_prefix_of_prefix (List.prefix_append k.domain x) (h ▸ List.prefix_append k'.domain y) with
      hle | hle
    · exact hfree k (hall k) k' (hall k') hle
    · exact (hfree k' (hall k') k (hall k) hle).symm
  subst hkind
  exact ⟨rfl, List.append_cancel_left h⟩

/-- A value that `canonical_bytes` is asked of. Those of a profile are its bytes once it is valid. -/
inductive Receipt (F : Type)
  | candidate (c : CandidateEnvelope)
  | evaluation (r : EvaluationReceipt F)
  | adoption (a : AdoptionReceipt)
  | counterexample (r : CounterexampleReceipt)
  | evidence (b : PromotionEvidenceBundle)
  | profile (p : { p : ExecutionProfile // p.validate = .ok () })

namespace Receipt

def kind : Receipt F → ReceiptKind
  | .candidate _ => .candidate
  | .evaluation _ => .evaluation
  | .adoption _ => .adoption
  | .counterexample _ => .counterexample
  | .evidence _ => .evidence
  | .profile _ => .profile

def canonicalBytes : Receipt F → Bytes
  | .candidate c => c.canonicalBytes
  | .evaluation r => r.canonicalBytes
  | .adoption a => a.canonicalBytes
  | .counterexample r => r.canonicalBytes
  | .evidence b => b.canonicalBytes
  | .profile p => p.1.bytes

def fingerprint (sha256 : Bytes → Bytes) (r : Receipt F) : Str := digestHex sha256 r.canonicalBytes

/-- The value with its objectives as bit patterns. -/
def bits : Receipt F → Receipt UInt64
  | .candidate c => .candidate c
  | .evaluation r => .evaluation r.bits
  | .adoption a => .adoption a
  | .counterexample r => .counterexample r
  | .evidence b => .evidence b
  | .profile p => .profile p

/-- A value that the program can hold. A valid profile always is. -/
def Fits : Receipt F → Prop
  | .candidate c => FitInMemory c.texts []
  | .evaluation r => FitInMemory r.texts [r.objectives.length]
  | .adoption a => FitInMemory a.texts []
  | .counterexample r => FitInMemory r.texts []
  | .evidence b => FitInMemory b.texts [b.selection.length, b.holdout.length]
  | .profile _ => True

theorem domain_isPrefix (r : Receipt F) : r.kind.domain <+: r.canonicalBytes := by
  cases r <;> simp only [canonicalBytes, CandidateEnvelope.canonicalBytes, EvaluationReceipt.canonicalBytes,
    AdoptionReceipt.canonicalBytes, CounterexampleReceipt.canonicalBytes, PromotionEvidenceBundle.canonicalBytes,
    ExecutionProfile.bytes, List.append_assoc] <;> exact List.prefix_append _ _

theorem kind_eq_of_canonicalBytes {a b : Receipt F} (h : a.canonicalBytes = b.canonicalBytes) : a.kind = b.kind := by
  obtain ⟨x, hx⟩ := a.domain_isPrefix
  obtain ⟨y, hy⟩ := b.domain_isPrefix
  exact (ReceiptKind.domain_append_inj (hx.trans (h.trans hy.symm))).1

theorem bits_eq_of_canonicalBytes {a b : Receipt F} (ha : a.Fits) (hb : b.Fits)
    (h : a.canonicalBytes = b.canonicalBytes) : a.bits = b.bits := by
  have hkind := kind_eq_of_canonicalBytes h
  cases a with
  | candidate c =>
    cases b with
    | candidate c' => exact congrArg Receipt.candidate (CandidateEnvelope.canonicalBytes_inj ha hb h)
    | _ => cases hkind
  | evaluation r =>
    cases b with
    | evaluation r' => exact congrArg Receipt.evaluation (EvaluationReceipt.canonicalBytes_inj ha hb h)
    | _ => cases hkind
  | adoption a =>
    cases b with
    | adoption a' => exact congrArg Receipt.adoption (AdoptionReceipt.canonicalBytes_inj ha hb h)
    | _ => cases hkind
  | counterexample r =>
    cases b with
    | counterexample r' => exact congrArg Receipt.counterexample (CounterexampleReceipt.canonicalBytes_inj ha hb h)
    | _ => cases hkind
  | evidence b₁ =>
    cases b with
    | evidence b₂ => exact congrArg Receipt.evidence (PromotionEvidenceBundle.canonicalBytes_inj ha hb h)
    | _ => cases hkind
  | profile p =>
    cases b with
    | profile p' => exact congrArg Receipt.profile (Subtype.ext (ExecutionProfile.bytes_inj p.2 p'.2 h))
    | _ => cases hkind

/-- Equal bytes, and equal fingerprints, mean the same kind and the same fields, values bit by bit. -/
theorem canonical_bytes_injective (a b : Receipt F) (ha : a.Fits) (hb : b.Fits) :
    (a.kind ≠ b.kind → a.canonicalBytes ≠ b.canonicalBytes) ∧
      (a.canonicalBytes = b.canonicalBytes → a.bits = b.bits) ∧
      ∀ sha256 : Bytes → Bytes, Function.Injective sha256 →
        a.fingerprint sha256 = b.fingerprint sha256 → a.bits = b.bits := by
  refine ⟨fun hne h => hne (kind_eq_of_canonicalBytes h), bits_eq_of_canonicalBytes ha hb, ?_⟩
  intro sha256 hinj h
  exact bits_eq_of_canonicalBytes ha hb (digestHex_injective hinj h)

/-- A character that moves from a reason to a policy id changes the bytes. -/
theorem canonical_bytes_mark_fields :
    let moved (policyId reason : Str) : AdoptionReceipt := ⟨1, [], policyId, .reject, reason, none, none⟩
    (moved ['a'] ['b', 'c']).canonicalBytes ≠ (moved ['a', 'b'] ['c']).canonicalBytes := by
  intro moved h
  have hbits := (canonical_bytes_injective (F := ℚ) (.adoption (moved ['a'] ['b', 'c']))
    (.adoption (moved ['a', 'b'] ['c'])) (by unfold Fits; decide) (by unfold Fits; decide)).2.1 h
  exact absurd hbits (by simp [bits, moved])

end Receipt

end Ccos
