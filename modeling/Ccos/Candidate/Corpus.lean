import Ccos.Candidate.Search
import Ccos.Candidate.Veto
import Ccos.Lib.Outcome

/-!
# The regression corpus

Minimized counterexamples under the digest of their entries, and their replay against a later candidate. An entry binds
the input by its digest, and the manifest binds the entries by theirs.
-/

open Std ByteCodec

namespace Ccos

def counterexampleCorpusSchemaVersion : UInt16 := 1

/-- At most 128 visible characters, and neither `;` nor `=`. -/
def ValidSemanticId (value : Str) : Prop :=
  value ≠ [] ∧ byteLen value ≤ 128 ∧ trim value = value ∧ (utf8 value).all isIdByte = true

instance (value : Str) : Decidable (ValidSemanticId value) := inferInstanceAs (Decidable (_ ∧ _))

structure CounterexampleCorpusEntry where
  schemaVersion : UInt16
  sourceCandidateId : Str
  sourceCounterexampleFingerprint : Str
  oracleId : Str
  oracleContractSha256 : Str
  failureKind : Str
  minimizedInputSha256 : Str
  minimizedInputBytes : UInt64
  deriving DecidableEq, Repr

structure StoredCounterexample where
  entry : CounterexampleCorpusEntry
  minimizedInput : Bytes
  deriving DecidableEq, Repr

inductive RegressionOutcome
  | fixed
  | reproduced
  | differentFailure (observedFailureKind : Str)
  deriving DecidableEq, Repr

structure RegressionReplay where
  entryFingerprint : Str
  outcome : RegressionOutcome
  deriving DecidableEq, Repr

structure CounterexampleRegressionCorpus where
  entries : BTreeMap Str StoredCounterexample

/-- An oracle that answers the same question in the same way. -/
structure CounterexampleOracle where
  oracleId : Str
  contractSha256 : Str
  evaluate : CandidateEnvelope → Bytes → Except CandidateProtocolError OracleVerdict

variable (sha256 : Bytes → Bytes)

namespace CounterexampleCorpusEntry

def fromWitness (c : CandidateEnvelope) (w : CounterexampleWitness) :
    Except CandidateProtocolError CounterexampleCorpusEntry := do
  w.validate sha256 c
  return { schemaVersion := counterexampleCorpusSchemaVersion
           sourceCandidateId := c.candidateId
           sourceCounterexampleFingerprint := w.receipt.fingerprint sha256
           oracleId := w.receipt.oracleId
           oracleContractSha256 := w.receipt.oracleContractSha256
           failureKind := w.receipt.failureKind
           minimizedInputSha256 := w.receipt.minimizedInputSha256
           minimizedInputBytes := w.receipt.minimizedInputBytes }

def validate (e : CounterexampleCorpusEntry) : Except CandidateProtocolError Unit := do
  refuseIf (e.schemaVersion ≠ counterexampleCorpusSchemaVersion)
    (.invalidField "counterexample_corpus.schema_version".toList)
  refuseIf (isSha256Hex e.sourceCandidateId = false)
    (.invalidField "counterexample_corpus.source_candidate_id".toList)
  refuseIf (isSha256Hex e.sourceCounterexampleFingerprint = false)
    (.invalidField "counterexample_corpus.source_counterexample_fingerprint".toList)
  refuseIf (¬ ValidSemanticId e.oracleId) (.invalidField "counterexample_corpus.oracle_id".toList)
  refuseIf (isSha256Hex e.oracleContractSha256 = false)
    (.invalidField "counterexample_corpus.oracle_contract_sha256".toList)
  refuseIf (¬ ValidSemanticId e.failureKind) (.invalidField "counterexample_corpus.failure_kind".toList)
  refuseIf (isSha256Hex e.minimizedInputSha256 = false)
    (.invalidField "counterexample_corpus.minimized_input_sha256".toList)

def bytes (e : CounterexampleCorpusEntry) : Bytes :=
  utf8 "memorithm.counterexample-corpus-entry.v1\x00".toList ++ pushU16 e.schemaVersion
    ++ pushStr e.sourceCandidateId ++ pushStr e.sourceCounterexampleFingerprint ++ pushStr e.oracleId
    ++ pushStr e.oracleContractSha256 ++ pushStr e.failureKind ++ pushStr e.minimizedInputSha256
    ++ pushU64 e.minimizedInputBytes

def canonicalBytes (e : CounterexampleCorpusEntry) : Except CandidateProtocolError Bytes := do
  e.validate
  return e.bytes

def fingerprint (e : CounterexampleCorpusEntry) : Except CandidateProtocolError Str := do
  return digestHex sha256 (← e.canonicalBytes)

end CounterexampleCorpusEntry

def StoredCounterexample.validate (s : StoredCounterexample) : Except CandidateProtocolError Unit := do
  s.entry.validate
  refuseIf (s.entry.minimizedInputBytes ≠ UInt64.ofNat s.minimizedInput.length
      ∨ s.entry.minimizedInputSha256 ≠ digestHex sha256 s.minimizedInput)
    (.policyViolation "counterexample corpus bytes do not match their content-addressed entry".toList)

namespace CounterexampleRegressionCorpus

def new : CounterexampleRegressionCorpus := ⟨∅⟩

/-- What an insert checks, and what it stores under which key. -/
def checkInsert (c : CandidateEnvelope) (w : CounterexampleWitness) :
    Except CandidateProtocolError (Str × StoredCounterexample) := do
  validateCandidate sha256 c
  w.validate sha256 c
  let entry ← CounterexampleCorpusEntry.fromWitness sha256 c w
  let fingerprint ← entry.fingerprint sha256
  let stored : StoredCounterexample := ⟨entry, w.minimizedInput⟩
  stored.validate sha256
  return (fingerprint, stored)

def insert (corpus : CounterexampleRegressionCorpus) (c : CandidateEnvelope) (w : CounterexampleWitness) :
    CounterexampleRegressionCorpus × Except CandidateProtocolError Str :=
  match checkInsert sha256 c w with
  | .error e => (corpus, .error e)
  | .ok (fingerprint, stored) => (⟨corpus.entries.insertIfNew fingerprint stored⟩, .ok fingerprint)

/-- The key of an entry, when the entry belongs under it. -/
def manifestLine (e : Str × StoredCounterexample) : Except CandidateProtocolError Bytes := do
  e.2.validate sha256
  refuseIf ((← e.2.entry.fingerprint sha256) ≠ e.1)
    (.policyViolation "counterexample corpus map key differs from entry fingerprint".toList)
  return pushStr e.1

def canonicalManifestBytes (corpus : CounterexampleRegressionCorpus) : Except CandidateProtocolError Bytes := do
  let lines ← corpus.entries.toList.mapM (manifestLine sha256)
  return utf8 "memorithm.counterexample-regression-corpus.v1\x00".toList ++ pushU16 counterexampleCorpusSchemaVersion
    ++ pushU64 (UInt64.ofNat corpus.entries.size) ++ lines.flatten

def fingerprint (corpus : CounterexampleRegressionCorpus) : Except CandidateProtocolError Str := do
  return digestHex sha256 (← corpus.canonicalManifestBytes sha256)

def replayEntry (corpus : CounterexampleRegressionCorpus) (target : CandidateEnvelope) (entryFingerprint : Str)
    (oracle : CounterexampleOracle) : Except CandidateProtocolError RegressionOutcome := do
  validateCandidate sha256 target
  match corpus.entries[entryFingerprint]? with
  | none => .error (.policyViolation ("unknown counterexample corpus entry ".toList ++ entryFingerprint))
  | some stored =>
    stored.validate sha256
    refuseIf (oracle.oracleId ≠ stored.entry.oracleId)
      (.policyViolation "counterexample replay oracle id differs from corpus entry".toList)
    refuseIf (oracle.contractSha256 ≠ stored.entry.oracleContractSha256)
      (.policyViolation "counterexample replay oracle contract differs from corpus entry".toList)
    match ← oracle.evaluate target stored.minimizedInput with
    | .pass => return .fixed
    | .counterexample failureKind =>
      if failureKind = stored.entry.failureKind then return .reproduced
      else
        refuseIf (¬ ValidSemanticId failureKind) (.invalidField "counterexample_corpus.observed_failure_kind".toList)
        return .differentFailure failureKind
    | .infrastructureFailure reason =>
      .error (.policyViolation ("counterexample regression replay infrastructure failure: ".toList ++ reason))

def replayAll (corpus : CounterexampleRegressionCorpus) (target : CandidateEnvelope) (oracle : CounterexampleOracle) :
    Except CandidateProtocolError (List RegressionReplay) :=
  corpus.entries.keys.mapM fun fingerprint => do
    return ⟨fingerprint, ← corpus.replayEntry sha256 target fingerprint oracle⟩

/-- The corpus that some insertions leave, whether they succeed or not. -/
def build (insertions : List (CandidateEnvelope × CounterexampleWitness)) : CounterexampleRegressionCorpus :=
  insertions.foldl (fun corpus x => (corpus.insert sha256 x.1 x.2).1) new

end CounterexampleRegressionCorpus

/-! ## What an entry binds -/

theorem fitsMemory_of_isSha256Hex {s : Str} (h : ¬ isSha256Hex s = false) : FitsMemory s := by
  simp only [isSha256Hex, Bool.not_eq_false, Bool.and_eq_true, decide_eq_true_eq] at h
  unfold FitsMemory
  omega

theorem fitsMemory_of_validSemanticId {s : Str} (h : ValidSemanticId s) : FitsMemory s := by
  have hlen := h.2.1
  unfold FitsMemory
  omega

/-- The bytes of a valid entry tell all its fields. -/
theorem CounterexampleCorpusEntry.bytes_inj {e e' : CounterexampleCorpusEntry} (he : e.validate = .ok ())
    (he' : e'.validate = .ok ()) (h : e.bytes = e'.bytes) : e = e' := by
  simp only [validate, check_eq_ok, refuseIf_ok, not_not] at he he'
  obtain ⟨-, hcandidate, hcounterexample, horacle, hcontract, hkind, hinput⟩ := he
  obtain ⟨-, hcandidate', hcounterexample', horacle', hcontract', hkind', hinput'⟩ := he'
  simp only [bytes, List.append_assoc] at h
  have h := List.append_cancel_left h
  obtain ⟨hschema, h⟩ := pushU16_append_inj h
  obtain ⟨hcandidate, h⟩ := pushStr_append_inj (fitsMemory_of_isSha256Hex hcandidate)
    (fitsMemory_of_isSha256Hex hcandidate') h
  obtain ⟨hcounterexample, h⟩ := pushStr_append_inj (fitsMemory_of_isSha256Hex hcounterexample)
    (fitsMemory_of_isSha256Hex hcounterexample') h
  obtain ⟨horacle, h⟩ := pushStr_append_inj (fitsMemory_of_validSemanticId horacle)
    (fitsMemory_of_validSemanticId horacle') h
  obtain ⟨hcontract, h⟩ := pushStr_append_inj (fitsMemory_of_isSha256Hex hcontract)
    (fitsMemory_of_isSha256Hex hcontract') h
  obtain ⟨hkind, h⟩ := pushStr_append_inj (fitsMemory_of_validSemanticId hkind)
    (fitsMemory_of_validSemanticId hkind') h
  obtain ⟨hinput, h⟩ := pushStr_append_inj (fitsMemory_of_isSha256Hex hinput) (fitsMemory_of_isSha256Hex hinput') h
  obtain ⟨hbytes, -⟩ := @pushU64_append_inj _ _ [] [] (by simpa using h)
  cases e
  cases e'
  simp_all only

/-- The entry is valid, it seals the input, and the key is its digest. -/
structure Sealed (k : Str) (s : StoredCounterexample) : Prop where
  valid : s.entry.validate = .ok ()
  sealed : s.validate sha256 = .ok ()
  key : k = digestHex sha256 s.entry.bytes

variable {sha256}

theorem Sealed.fingerprint {k : Str} {s : StoredCounterexample} (h : Sealed sha256 k s) :
    s.entry.fingerprint sha256 = .ok k := by
  unfold CounterexampleCorpusEntry.fingerprint CounterexampleCorpusEntry.canonicalBytes
  rw [h.valid, h.key]
  rfl

theorem Sealed.input {k : Str} {s : StoredCounterexample} (h : Sealed sha256 k s) :
    s.entry.minimizedInputSha256 = digestHex sha256 s.minimizedInput := by
  have hsealed := h.sealed
  simp only [StoredCounterexample.validate, check_eq_ok, refuseIf_ok, not_or, not_not] at hsealed
  exact hsealed.2.2

/-- With an injective digest, a key has one entry and one input. -/
theorem Sealed.unique (hinj : Function.Injective sha256) {k : Str} {s s' : StoredCounterexample}
    (h : Sealed sha256 k s) (h' : Sealed sha256 k s') : s = s' := by
  have hentry := CounterexampleCorpusEntry.bytes_inj h.valid h'.valid
    (digestHex_injective hinj (h.key.symm.trans h'.key))
  have hinput : s.minimizedInput = s'.minimizedInput := by
    refine digestHex_injective hinj ?_
    rw [← h.input, ← h'.input, hentry]
  cases s
  cases s'
  simp_all only

namespace CounterexampleRegressionCorpus

theorem sealed_of_checked {c : CandidateEnvelope} {w : CounterexampleWitness} {k : Str} {s : StoredCounterexample}
    (h : checkInsert sha256 c w = .ok (k, s)) : Sealed sha256 k s := by
  unfold checkInsert at h
  obtain ⟨-, h⟩ := check_eq_ok.mp h
  obtain ⟨-, h⟩ := check_eq_ok.mp h
  obtain ⟨entry, -, h⟩ := bind_eq_ok.mp h
  obtain ⟨fingerprint, hfingerprint, h⟩ := bind_eq_ok.mp h
  obtain ⟨hsealed, h⟩ := check_eq_ok.mp h
  obtain ⟨rfl, rfl⟩ := Prod.mk.inj (Except.ok.inj h)
  unfold CounterexampleCorpusEntry.fingerprint CounterexampleCorpusEntry.canonicalBytes at hfingerprint
  obtain ⟨bytes, hbytes, hkey⟩ := bind_eq_ok.mp hfingerprint
  obtain ⟨hvalid, hbytes⟩ := check_eq_ok.mp hbytes
  obtain rfl := Except.ok.inj hbytes
  exact ⟨hvalid, hsealed, (Except.ok.inj hkey).symm⟩

/-! ## A corpus is a set -/

/-- A corpus holds what passed the checks of an insert. -/
theorem getElem?_build (hinj : Function.Injective sha256) {xs : List (CandidateEnvelope × CounterexampleWitness)}
    {k : Str} {s : StoredCounterexample} :
    (build sha256 xs).entries[k]? = some s ↔ ∃ x ∈ xs, checkInsert sha256 x.1 x.2 = .ok (k, s) := by
  induction xs using List.reverseRecOn generalizing k s with
  | nil => simp [build, new]
  | append_singleton xs x ih =>
    have hbuild : build sha256 (xs ++ [x]) = ((build sha256 xs).insert sha256 x.1 x.2).1 := by
      rw [build, List.foldl_append]
      rfl
    have hmem : (∃ y ∈ xs ++ [x], checkInsert sha256 y.1 y.2 = .ok (k, s)) ↔
        (∃ y ∈ xs, checkInsert sha256 y.1 y.2 = .ok (k, s)) ∨ checkInsert sha256 x.1 x.2 = .ok (k, s) := by
      simp only [List.mem_append, List.mem_singleton, or_and_right, exists_or, exists_eq_left]
    rw [hbuild, hmem, insert, ← ih]
    cases hchecked : checkInsert sha256 x.1 x.2 with
    | error e => simp
    | ok checked =>
      obtain ⟨key, stored⟩ := checked
      dsimp only
      rw [ExtTreeMap.getElem?_insertIfNew, Except.ok.injEq, Prod.mk.injEq]
      by_cases hkey : key = k
      · subst hkey
        cases hold : (build sha256 xs).entries[key]? with
        | none =>
          have hnew : key ∉ (build sha256 xs).entries := by simp [ExtTreeMap.mem_iff_isSome_getElem?, hold]
          rw [if_pos ⟨ReflCmp.compare_self, hnew⟩]
          simp
        | some old =>
          obtain ⟨y, -, hy⟩ := ih.mp hold
          have hsame := (sealed_of_checked hy).unique hinj (sealed_of_checked hchecked)
          have hheld : key ∈ (build sha256 xs).entries := by simp [ExtTreeMap.mem_iff_isSome_getElem?, hold]
          rw [if_neg fun h => h.2 hheld, hsame]
          simp
      · rw [if_neg fun h => hkey (Std.compare_eq_iff_eq.mp h.1)]
        simp [hkey]

theorem sealed_of_mem (hinj : Function.Injective sha256) {xs : List (CandidateEnvelope × CounterexampleWitness)}
    {e : Str × StoredCounterexample} (h : e ∈ (build sha256 xs).entries.toList) : Sealed sha256 e.1 e.2 := by
  obtain ⟨x, -, hx⟩ := (getElem?_build hinj).mp (ExtTreeMap.mem_toList_iff_getElem?_eq_some.mp h)
  exact sealed_of_checked hx

theorem eq_of_getElem? {corpus corpus' : CounterexampleRegressionCorpus}
    (h : ∀ k : Str, corpus.entries[k]? = corpus'.entries[k]?) : corpus = corpus' := by
  cases corpus
  cases corpus'
  exact congrArg mk (ExtTreeMap.ext_getElem? h)

/-- Order and repeats do not matter. -/
theorem build_congr (hinj : Function.Injective sha256) {xs ys : List (CandidateEnvelope × CounterexampleWitness)}
    (h : ∀ x, x ∈ xs ↔ x ∈ ys) : build sha256 xs = build sha256 ys := by
  refine eq_of_getElem? fun k => Option.ext fun s => ?_
  rw [getElem?_build hinj, getElem?_build hinj]
  simp only [h]

/-- The manifest of some keys. -/
def manifestOf (keys : List Str) : Bytes :=
  utf8 "memorithm.counterexample-regression-corpus.v1\x00".toList ++ pushU16 counterexampleCorpusSchemaVersion
    ++ pushU64 (UInt64.ofNat keys.length) ++ keys.flatMap pushStr

theorem fingerprint_build (hinj : Function.Injective sha256) (xs : List (CandidateEnvelope × CounterexampleWitness)) :
    (build sha256 xs).fingerprint sha256 = .ok (digestHex sha256 (manifestOf (build sha256 xs).entries.keys)) := by
  have hlines : (build sha256 xs).entries.toList.mapM (manifestLine sha256) =
      .ok ((build sha256 xs).entries.toList.map fun e => pushStr e.1) := by
    refine Outcome.mapM_of_ok fun e he => ?_
    have hsealed := sealed_of_mem hinj he
    unfold manifestLine
    rw [hsealed.sealed, hsealed.fingerprint]
    exact bind_eq_ok.mpr ⟨(), rfl, bind_eq_ok.mpr ⟨e.1, rfl, check_eq_ok.mpr ⟨refuseIf_ok.mpr (not_not.mpr rfl), rfl⟩⟩⟩
  have hflat : ((build sha256 xs).entries.toList.map fun e => pushStr e.1).flatten =
      (build sha256 xs).entries.keys.flatMap pushStr := by
    rw [← ExtTreeMap.map_fst_toList_eq_keys, List.flatMap_map]
    rfl
  unfold fingerprint canonicalManifestBytes
  rw [hlines]
  show Except.ok (digestHex sha256 (_ ++ _ ++ _ ++ _)) = _
  rw [hflat, manifestOf, ExtTreeMap.length_keys]

theorem manifestOf_inj {keys keys' : List Str} (hfits : FitInMemory keys [keys.length])
    (hfits' : FitInMemory keys' [keys'.length]) (h : manifestOf keys = manifestOf keys') : keys = keys' := by
  have hlen := hfits.2 _ List.mem_cons_self
  have hlen' := hfits'.2 _ List.mem_cons_self
  simp only [manifestOf, List.append_assoc] at h
  obtain ⟨hsize, h⟩ := pushU64_append_inj (List.append_cancel_left (List.append_cancel_left h))
  have hsame : keys.length = keys'.length := by
    have hnat := congrArg UInt64.toNat hsize
    rwa [UInt64.toNat_ofNat_of_lt' (by unfold UInt64.size; omega),
      UInt64.toNat_ofNat_of_lt' (by unfold UInt64.size; omega)] at hnat
  have hkeys := delimits_pushStr.elements hsame hfits.1 hfits'.1 (x := []) (y := []) (by rw [h])
  simpa using hkeys.1

/-- Equal fingerprints, equal entries. -/
theorem build_eq_of_fingerprint (hinj : Function.Injective sha256)
    {xs ys : List (CandidateEnvelope × CounterexampleWitness)}
    (hfits : FitInMemory (build sha256 xs).entries.keys [(build sha256 xs).entries.keys.length])
    (hfits' : FitInMemory (build sha256 ys).entries.keys [(build sha256 ys).entries.keys.length])
    (h : (build sha256 xs).fingerprint sha256 = (build sha256 ys).fingerprint sha256) :
    build sha256 xs = build sha256 ys := by
  rw [fingerprint_build hinj, fingerprint_build hinj, Except.ok.injEq] at h
  have hkeys := manifestOf_inj hfits hfits' (digestHex_injective hinj h)
  have hmem : ∀ k, k ∈ (build sha256 xs).entries ↔ k ∈ (build sha256 ys).entries := by
    intro k
    rw [← ExtTreeMap.mem_keys, hkeys, ExtTreeMap.mem_keys]
  refine eq_of_getElem? fun k => ?_
  cases hx : (build sha256 xs).entries[k]? with
  | none =>
    refine (ExtTreeMap.getElem?_eq_none fun hk => ?_).symm
    have hheld := ExtTreeMap.mem_iff_isSome_getElem?.mp ((hmem k).mpr hk)
    rw [hx] at hheld
    cases hheld
  | some s =>
    have hheld := (hmem k).mp (ExtTreeMap.mem_iff_isSome_getElem?.mpr (by rw [hx]; rfl))
    obtain ⟨s', hy⟩ := Option.isSome_iff_exists.mp (ExtTreeMap.mem_iff_isSome_getElem?.mp hheld)
    have hsealed := sealed_of_mem hinj (ExtTreeMap.mem_toList_iff_getElem?_eq_some.mpr hx)
    have hsealed' := sealed_of_mem hinj (ExtTreeMap.mem_toList_iff_getElem?_eq_some.mpr hy)
    have hsame : s = s' := hsealed.unique hinj hsealed'
    rw [hy, hsame]

theorem insert_of_error {corpus : CounterexampleRegressionCorpus} {c : CandidateEnvelope} {w : CounterexampleWitness}
    {e : CandidateProtocolError} (h : (corpus.insert sha256 c w).2 = .error e) :
    (corpus.insert sha256 c w).1 = corpus := by
  unfold insert at h ⊢
  cases hchecked : checkInsert sha256 c w with
  | error e => rfl
  | ok checked =>
    rw [hchecked] at h
    cases h

end CounterexampleRegressionCorpus

/-! ## A corpus is replayed -/

/-- The verdict that an outcome stands for. -/
def RegressionOutcome.verdict (s : StoredCounterexample) : RegressionOutcome → OracleVerdict
  | .fixed => .pass
  | .reproduced => .counterexample s.entry.failureKind
  | .differentFailure kind => .counterexample kind

namespace CounterexampleOracle

variable (oracle : CounterexampleOracle) (target : CandidateEnvelope) (s : StoredCounterexample)

/-- The oracle is the one of the entry. -/
structure Matches : Prop where
  oracleId : oracle.oracleId = s.entry.oracleId
  contract : oracle.contractSha256 = s.entry.oracleContractSha256

/-- Neither an error nor an infrastructure failure, and no malformed failure kind. -/
def Answers : Prop :=
  ∃ v, oracle.evaluate target s.minimizedInput = .ok v ∧ (∀ reason, v ≠ .infrastructureFailure reason) ∧
    ∀ kind, v = .counterexample kind → ValidSemanticId kind

/-- The outcome is the verdict of the oracle on the stored bytes. A different failure is of another kind. -/
structure Reports (o : RegressionOutcome) : Prop where
  verdict : oracle.evaluate target s.minimizedInput = .ok (o.verdict s)
  different : ∀ kind, o = .differentFailure kind → kind ≠ s.entry.failureKind ∧ ValidSemanticId kind

variable {oracle target s}

theorem answers_iff (hs : s.entry.validate = .ok ()) :
    oracle.Answers target s ↔ ∃ o, oracle.Reports target s o := by
  have hkind : ValidSemanticId s.entry.failureKind := by
    simp only [CounterexampleCorpusEntry.validate, check_eq_ok, refuseIf_ok, not_not] at hs
    exact hs.2.2.2.2.2.1
  constructor
  · rintro ⟨v, hv, hinfrastructure, hvalid⟩
    cases v with
    | pass => exact ⟨.fixed, hv, by simp⟩
    | infrastructureFailure reason => exact absurd rfl (hinfrastructure reason)
    | counterexample kind =>
      by_cases hsame : kind = s.entry.failureKind
      · exact ⟨.reproduced, by rw [hv, hsame]; rfl, by simp⟩
      · refine ⟨.differentFailure kind, hv, fun kind' heq => ?_⟩
        obtain rfl := RegressionOutcome.differentFailure.inj heq
        exact ⟨hsame, hvalid kind rfl⟩
  · rintro ⟨o, hverdict, hdifferent⟩
    refine ⟨o.verdict s, hverdict, ?_, ?_⟩
    · intro reason h
      cases o <;> cases h
    · intro kind h
      cases o with
      | fixed => cases h
      | reproduced => exact OracleVerdict.counterexample.inj h ▸ hkind
      | differentFailure kind' => exact OracleVerdict.counterexample.inj h ▸ (hdifferent kind' rfl).2

end CounterexampleOracle

namespace CounterexampleRegressionCorpus

variable {corpus : CounterexampleRegressionCorpus} {target : CandidateEnvelope} {oracle : CounterexampleOracle}

theorem replayEntry_eq_ok {k : Str} {s : StoredCounterexample} (hs : corpus.entries[k]? = some s)
    (hsealed : Sealed sha256 k s) {o : RegressionOutcome} : corpus.replayEntry sha256 target k oracle = .ok o ↔
      validateCandidate sha256 target = .ok () ∧ oracle.Matches s ∧ oracle.Reports target s o := by
  unfold replayEntry
  rw [check_eq_ok, hs]
  dsimp only
  rw [check_eq_ok, check_eq_ok, check_eq_ok, refuseIf_ok, refuseIf_ok, not_not, not_not, bind_eq_ok]
  refine and_congr_right fun _ => ?_
  constructor
  · rintro ⟨-, hid, hcontract, v, hv, h⟩
    refine ⟨⟨hid, hcontract⟩, ?_⟩
    cases v with
    | pass =>
      obtain rfl := Except.ok.inj h
      exact ⟨hv, by simp⟩
    | infrastructureFailure reason => cases h
    | counterexample kind =>
      dsimp only at h
      split at h
      · rename_i hsame
        obtain rfl := Except.ok.inj h
        exact ⟨by rw [hv, hsame]; rfl, by simp⟩
      · rename_i hdifferent
        obtain ⟨hvalid, h⟩ := check_eq_ok.mp h
        obtain rfl := Except.ok.inj h
        refine ⟨hv, fun kind' heq => ?_⟩
        obtain rfl := RegressionOutcome.differentFailure.inj heq
        exact ⟨hdifferent, not_not.mp (refuseIf_ok.mp hvalid)⟩
  · rintro ⟨⟨hid, hcontract⟩, hverdict, hdifferent⟩
    refine ⟨hsealed.sealed, hid, hcontract, o.verdict s, hverdict, ?_⟩
    cases o with
    | fixed => rfl
    | reproduced => exact if_pos rfl
    | differentFailure kind =>
      obtain ⟨hne, hvalid⟩ := hdifferent kind rfl
      show (if kind = s.entry.failureKind then _ else _) = _
      rw [if_neg hne]
      exact check_eq_ok.mpr ⟨refuseIf_ok.mpr (not_not.mpr hvalid), rfl⟩

/-- One replay for each key, in order. -/
theorem replayAll_eq_ok {r : List RegressionReplay} : corpus.replayAll sha256 target oracle = .ok r ↔
    List.Forall₂ (fun k report => report.entryFingerprint = k ∧
      corpus.replayEntry sha256 target k oracle = .ok report.outcome) corpus.entries.keys r := by
  have hstep : ∀ k (report : RegressionReplay),
      (do return ⟨k, ← corpus.replayEntry sha256 target k oracle⟩ : Except CandidateProtocolError RegressionReplay) =
        .ok report ↔
      report.entryFingerprint = k ∧ corpus.replayEntry sha256 target k oracle = .ok report.outcome := by
    intro k report
    rw [bind_eq_ok]
    constructor
    · rintro ⟨o, ho, h⟩
      obtain rfl := Except.ok.inj h
      exact ⟨rfl, ho⟩
    · rintro ⟨rfl, ho⟩
      exact ⟨report.outcome, ho, rfl⟩
  unfold replayAll
  rw [Outcome.mapM_eq_ok]
  simp only [hstep]

/-- A corpus that insertions built is replayed exactly when it is empty, or the candidate is valid and the oracle is the
one of every entry and answers it. -/
theorem replayAll_succeeds_iff (hinj : Function.Injective sha256)
    (xs : List (CandidateEnvelope × CounterexampleWitness)) :
    (∃ r, (build sha256 xs).replayAll sha256 target oracle = .ok r) ↔
      (build sha256 xs).entries = ∅ ∨ (validateCandidate sha256 target = .ok () ∧
        ∀ e ∈ (build sha256 xs).entries.toList, oracle.Matches e.2 ∧ oracle.Answers target e.2) := by
  have hentry : ∀ e ∈ (build sha256 xs).entries.toList,
      (∃ report : RegressionReplay, (do return ⟨e.1, ← (build sha256 xs).replayEntry sha256 target e.1 oracle⟩ :
        Except CandidateProtocolError RegressionReplay) = .ok report) ↔
      validateCandidate sha256 target = .ok () ∧ oracle.Matches e.2 ∧ oracle.Answers target e.2 := by
    intro e he
    have hsealed := sealed_of_mem hinj he
    have hreplay := fun o => @replayEntry_eq_ok sha256 _ target oracle _ _
      (ExtTreeMap.mem_toList_iff_getElem?_eq_some.mp he) hsealed o
    rw [oracle.answers_iff hsealed.valid]
    constructor
    · rintro ⟨report, h⟩
      obtain ⟨o, ho, -⟩ := bind_eq_ok.mp h
      obtain ⟨htarget, hmatches, hreports⟩ := (hreplay o).mp ho
      exact ⟨htarget, hmatches, o, hreports⟩
    · rintro ⟨htarget, hmatches, o, hreports⟩
      exact ⟨⟨e.1, o⟩, bind_eq_ok.mpr ⟨o, (hreplay o).mpr ⟨htarget, hmatches, hreports⟩, rfl⟩⟩
  unfold replayAll
  rw [Outcome.mapM_isOk_iff, ← ExtTreeMap.map_fst_toList_eq_keys, List.forall_mem_map, ← ExtTreeMap.toList_eq_nil_iff]
  rw [forall₂_congr hentry]
  cases (build sha256 xs).entries.toList with
  | nil => simp
  | cons e es =>
    simp only [reduceCtorEq, false_or]
    constructor
    · intro h
      exact ⟨(h e List.mem_cons_self).1, fun e' he' => (h e' he').2⟩
    · rintro ⟨htarget, h⟩ e' he'
      exact ⟨htarget, h e' he'⟩

/-- Each entry is reported once, in the order of the keys, with the outcome that the oracle gives. -/
theorem replayAll_reports (hinj : Function.Injective sha256) (xs : List (CandidateEnvelope × CounterexampleWitness))
    {r : List RegressionReplay} (h : (build sha256 xs).replayAll sha256 target oracle = .ok r) :
    (r.map (·.entryFingerprint)).Pairwise (fun a b => compare a b = .lt) ∧
      List.Forall₂ (fun e report => report.entryFingerprint = e.1 ∧ oracle.Reports target e.2 report.outcome)
        (build sha256 xs).entries.toList r := by
  rw [replayAll_eq_ok, ← ExtTreeMap.map_fst_toList_eq_keys, List.forall₂_map_left_iff] at h
  have hreports : List.Forall₂ (fun e report => report.entryFingerprint = e.1 ∧
      oracle.Reports target e.2 report.outcome) (build sha256 xs).entries.toList r := by
    refine ((List.forall₂_and_left _ _).mpr ⟨fun e he => he, h⟩).imp fun e report hboth => ?_
    obtain ⟨he, hkey, houtcome⟩ := hboth
    have hreplay := (replayEntry_eq_ok (ExtTreeMap.mem_toList_iff_getElem?_eq_some.mp he)
      (sealed_of_mem hinj he)).mp houtcome
    exact ⟨hkey, hreplay.2.2⟩
  refine ⟨?_, hreports⟩
  have hkeys : (build sha256 xs).entries.toList.map (·.1) = r.map (·.entryFingerprint) := by
    rw [← List.forall₂_eq_eq_eq, List.forall₂_map_left_iff, List.forall₂_map_right_iff]
    exact hreports.imp fun e report hboth => hboth.1.symm
  rw [← hkeys, ExtTreeMap.map_fst_toList_eq_keys]
  exact ExtTreeMap.ordered_keys

/-- With an injective digest, the corpus is the set of what was inserted, and its replay reports every entry. -/
theorem corpus_is_a_set_and_replays (hinj : Function.Injective sha256)
    (xs : List (CandidateEnvelope × CounterexampleWitness)) :
    (∀ ys : List (CandidateEnvelope × CounterexampleWitness), (∀ x, x ∈ xs ↔ x ∈ ys) →
      build sha256 xs = build sha256 ys ∧
        (build sha256 xs).fingerprint sha256 = (build sha256 ys).fingerprint sha256) ∧
    (∀ ys : List (CandidateEnvelope × CounterexampleWitness),
      FitInMemory (build sha256 xs).entries.keys [(build sha256 xs).entries.keys.length] →
      FitInMemory (build sha256 ys).entries.keys [(build sha256 ys).entries.keys.length] →
      (build sha256 xs).fingerprint sha256 = (build sha256 ys).fingerprint sha256 →
      build sha256 xs = build sha256 ys) ∧
    (∀ (c : CandidateEnvelope) (w : CounterexampleWitness) (e : CandidateProtocolError),
      ((build sha256 xs).insert sha256 c w).2 = .error e → ((build sha256 xs).insert sha256 c w).1 = build sha256 xs) ∧
    ∀ (target : CandidateEnvelope) (oracle : CounterexampleOracle),
      ((∃ r, (build sha256 xs).replayAll sha256 target oracle = .ok r) ↔
        (build sha256 xs).entries = ∅ ∨ (validateCandidate sha256 target = .ok () ∧
          ∀ e ∈ (build sha256 xs).entries.toList, oracle.Matches e.2 ∧ oracle.Answers target e.2)) ∧
      ∀ r, (build sha256 xs).replayAll sha256 target oracle = .ok r →
        (r.map (·.entryFingerprint)).Pairwise (fun a b => compare a b = .lt) ∧
          List.Forall₂ (fun e report => report.entryFingerprint = e.1 ∧ oracle.Reports target e.2 report.outcome)
            (build sha256 xs).entries.toList r := by
  refine ⟨fun ys h => ?_, fun ys hfits hfits' h => build_eq_of_fingerprint hinj hfits hfits' h,
    fun c w e h => insert_of_error h, fun target oracle => ⟨replayAll_succeeds_iff hinj xs, fun r h => ?_⟩⟩
  · have hsame := build_congr hinj h
    exact ⟨hsame, by rw [hsame]⟩
  · exact replayAll_reports hinj xs h

/-! ## One counterexample -/

namespace Sample

open CcosCandidateAudit (tableDigest tableDigest_injective)

/-- The digest of the table, on 32 bytes for what the table holds. -/
def wideDigest (table : List Bytes) (bytes : Bytes) : Bytes := List.replicate 23 0 ++ tableDigest table bytes

theorem wideDigest_injective {table : List Bytes} (hsize : table.length < 256 ^ 8) :
    Function.Injective (wideDigest table) := fun _ _ h => tableDigest_injective hsize (List.append_cancel_left h)

def wideId (n : Nat) : Str := lowerHex (List.replicate 23 0 ++ (leOf 8 n ++ [1]))

def candidate : CandidateEnvelope where
  schemaVersion := 1
  candidateId := wideId 0
  producerCandidateId := none
  parentCandidateId := none
  origin := .rsi
  domain := "sort".toList
  sourceSha256 := List.replicate 64 'a'
  proposalSha256 := none
  trialSeed := 0

/-- The input `[7]` fails. -/
def failure : CounterexampleWitness where
  receipt :=
    { schemaVersion := 1, candidateFingerprint := wideId 1, generatorId := ['g'], oracleId := ['o']
      oracleContractSha256 := List.replicate 64 'f', shrinkerId := ['s'], searchSeed := 0, generationOrdinal := 0
      originalInputSha256 := wideId 2, originalInputBytes := 1, minimizedInputSha256 := wideId 2
      minimizedInputBytes := 1, failureKind := ['k'], generationOracleQueries := 1, shrinkOracleQueries := 0 }
  originalInput := [7]
  minimizedInput := [7]

def digest : Bytes → Bytes :=
  wideDigest [identityBytes .rsi "sort".toList (List.replicate 64 'a'), candidate.canonicalBytes, [7],
    failure.receipt.canonicalBytes]

theorem digest_injective : Function.Injective digest := wideDigest_injective (by decide)

/-- An oracle that passes everything. -/
def passing : CounterexampleOracle := ⟨['o'], List.replicate 64 'f', fun _ _ => .ok .pass⟩

theorem passing_answers (target : CandidateEnvelope) :
    ∀ e ∈ (build digest [(candidate, failure)]).entries.toList, passing.Matches e.2 ∧ passing.Answers target e.2 := by
  have hentries : (build digest [(candidate, failure)]).entries.toList.map
      (fun e => (e.2.entry.oracleId, e.2.entry.oracleContractSha256)) = [(['o'], List.replicate 64 'f')] := by
    decide +kernel
  intro e he
  have hmem := List.mem_map_of_mem (f := fun e : Str × StoredCounterexample =>
    (e.2.entry.oracleId, e.2.entry.oracleContractSha256)) he
  rw [hentries, List.mem_singleton, Prod.mk.injEq] at hmem
  exact ⟨⟨hmem.1.symm, hmem.2.symm⟩, .pass, rfl, by simp, by simp⟩

/-- The failure is one entry however often it is inserted, and its replay succeeds. -/
theorem repeated_failure_replays :
    build digest [(candidate, failure)] = build digest [(candidate, failure), (candidate, failure)] ∧
      ∃ r, (build digest [(candidate, failure)]).replayAll digest candidate passing = .ok r := by
  obtain ⟨hset, -, -, hreplay⟩ := corpus_is_a_set_and_replays digest_injective [(candidate, failure)]
  refine ⟨(hset [(candidate, failure), (candidate, failure)] (by simp)).1, ?_⟩
  exact (hreplay candidate passing).1.mpr (.inr ⟨by decide +kernel, passing_answers candidate⟩)

/-- A candidate of another schema is refused, whatever the oracle says of it. -/
theorem invalid_candidate_is_not_replayed :
    ¬ ∀ (sha256 : Bytes → Bytes), Function.Injective sha256 →
      ∀ (xs : List (CandidateEnvelope × CounterexampleWitness)) (target : CandidateEnvelope)
        (oracle : CounterexampleOracle), (∃ r, (build sha256 xs).replayAll sha256 target oracle = .ok r) ↔
        ∀ e ∈ (build sha256 xs).entries.toList, oracle.Matches e.2 ∧ oracle.Answers target e.2 := by
  intro h
  obtain ⟨r, hr⟩ := (h digest digest_injective [(candidate, failure)] { candidate with schemaVersion := 0 } passing).mpr
    (passing_answers _)
  have hrefused : ((build digest [(candidate, failure)]).replayAll digest { candidate with schemaVersion := 0 }
      passing).toOption = none := by decide +kernel
  rw [hr] at hrefused
  cases hrefused

end Sample

end CounterexampleRegressionCorpus

end Ccos
