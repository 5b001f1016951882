import Ccos.Candidate.Protocol
import Ccos.Lib.ByteCodec

/-!
# Execution profiles

What a measurement ran on. Its texts are written after a length of four bytes, unlike those of the
receipts.
-/

open ByteCodec

namespace Ccos

def executionProfileSchemaVersion : UInt16 := 1

def maxSemanticTextBytes : Nat := 128

inductive ExecutionAttestationError
  | unsupportedSchema (version : UInt16)
  | invalidSha256
  | invalidSemanticId (field : Str)
  | invalidArchitectureName
  | otherArchitectureRequiresName
  deriving DecidableEq, Repr

structure Sha256Digest where
  text : Str
  deriving DecidableEq, Repr

inductive ExecutionBackendKind
  | reference | cpu | wgpu | cuda
  deriving DecidableEq, Repr

def backendTag : ExecutionBackendKind → UInt8
  | .reference => 0
  | .cpu => 1
  | .wgpu => 2
  | .cuda => 3

inductive ExecutionArchitectureFamily
  | unknown | x86_64 | aarch64 | riscV64 | loongArch64 | wasm32 | nvidiaGpu | amdGpu | intelGpu | appleGpu | other
  deriving DecidableEq, Repr

def architectureTag : ExecutionArchitectureFamily → UInt8
  | .unknown => 0
  | .x86_64 => 1
  | .aarch64 => 2
  | .riscV64 => 3
  | .loongArch64 => 4
  | .wasm32 => 5
  | .nvidiaGpu => 6
  | .amdGpu => 7
  | .intelGpu => 8
  | .appleGpu => 9
  | .other => 10

structure ExecutionArchitecture where
  family : ExecutionArchitectureFamily
  name : Option Str
  deriving DecidableEq, Repr

inductive ExecutionReproducibility
  | unknown | bitExact | deterministic | numericallyEquivalent | fastApproximate
  deriving DecidableEq, Repr

def reproducibilityTag : ExecutionReproducibility → UInt8
  | .unknown => 0
  | .bitExact => 1
  | .deterministic => 2
  | .numericallyEquivalent => 3
  | .fastApproximate => 4

structure ExecutionProfile where
  schemaVersion : UInt16
  backend : ExecutionBackendKind
  deviceOrdinal : UInt32
  architecture : ExecutionArchitecture
  capabilityProfileSha256 : Sha256Digest
  topologyProfileSha256 : Sha256Digest
  memoryBudgetBytes : Option UInt64
  numericMode : Str
  reproducibility : ExecutionReproducibility
  kernelSemanticVersion : Str
  samplerSemanticVersion : Option Str
  modelSha256 : Sha256Digest
  tokenizerSha256 : Sha256Digest
  deriving DecidableEq, Repr

/-! ## Validation -/

def refuseProfileIf (bad : Prop) [Decidable bad] (e : ExecutionAttestationError) :
    Except ExecutionAttestationError Unit := if bad then .error e else .ok ()

@[simp] theorem refuseProfileIf_ok {bad : Prop} [Decidable bad] {e : ExecutionAttestationError} {u : Unit} :
    refuseProfileIf bad e = .ok u ↔ ¬ bad := by
  unfold refuseProfileIf
  split <;> simp [*]

/-- `u8::is_ascii_alphanumeric`, and the six signs of a semantic id. -/
def isSemanticByte (b : UInt8) : Bool :=
  (48 ≤ b && b ≤ 57) || (65 ≤ b && b ≤ 90) || (97 ≤ b && b ≤ 122)
    || b = 46 || b = 45 || b = 95 || b = 43 || b = 58 || b = 47

/-- `u8::is_ascii_graphic`, or a blank. -/
def isNameByte (b : UInt8) : Bool := (33 ≤ b && b ≤ 126) || b = 32

def Sha256Digest.validate (d : Sha256Digest) : Except ExecutionAttestationError Unit :=
  refuseProfileIf (isSha256Hex d.text = false) .invalidSha256

def validateSemanticId (field value : Str) : Except ExecutionAttestationError Unit :=
  refuseProfileIf (¬ (value ≠ [] ∧ byteLen value ≤ maxSemanticTextBytes ∧ (utf8 value).all isSemanticByte = true))
    (.invalidSemanticId field)

def validateArchitectureName (value : Str) : Except ExecutionAttestationError Unit :=
  refuseProfileIf (¬ (value ≠ [] ∧ byteLen value ≤ maxSemanticTextBytes ∧ trim value = value
      ∧ (utf8 value).all isNameByte = true)) .invalidArchitectureName

/-- `if let Some(value) = option { check(value)?; }` -/
def checkSome (check : Str → Except ExecutionAttestationError Unit) : Option Str → Except ExecutionAttestationError Unit
  | some value => check value
  | none => .ok ()

namespace ExecutionProfile

def validate (p : ExecutionProfile) : Except ExecutionAttestationError Unit := do
  refuseProfileIf (p.schemaVersion ≠ executionProfileSchemaVersion) (.unsupportedSchema p.schemaVersion)
  p.capabilityProfileSha256.validate
  p.topologyProfileSha256.validate
  p.modelSha256.validate
  p.tokenizerSha256.validate
  validateSemanticId "numeric_mode".toList p.numericMode
  validateSemanticId "kernel_semantic_version".toList p.kernelSemanticVersion
  checkSome (validateSemanticId "sampler_semantic_version".toList) p.samplerSemanticVersion
  checkSome validateArchitectureName p.architecture.name
  refuseProfileIf (p.architecture.family = .other ∧ p.architecture.name = none) .otherArchitectureRequiresName

end ExecutionProfile

/-! ## Canonical bytes -/

def putU16 (value : UInt16) : Bytes := leOf 2 value.toNat

def putU32 (value : UInt32) : Bytes := leOf 4 value.toNat

def putU64 (value : UInt64) : Bytes := leOf 8 value.toNat

/-- The length fits four bytes once the profile is validated. -/
def putText (value : Str) : Bytes := putBytes 4 (utf8 value)

namespace ExecutionProfile

/-- What follows the validation in `canonical_bytes`. -/
def bytes (p : ExecutionProfile) : Bytes :=
  utf8 "scirust.execution-profile.v1\x00".toList ++ putU16 p.schemaVersion ++ [backendTag p.backend]
    ++ putU32 p.deviceOrdinal ++ [architectureTag p.architecture.family] ++ putOption putText p.architecture.name
    ++ putText p.capabilityProfileSha256.text ++ putText p.topologyProfileSha256.text
    ++ putOption putU64 p.memoryBudgetBytes ++ putText p.numericMode ++ [reproducibilityTag p.reproducibility]
    ++ putText p.kernelSemanticVersion ++ putOption putText p.samplerSemanticVersion
    ++ putText p.modelSha256.text ++ putText p.tokenizerSha256.text

def canonicalBytes (p : ExecutionProfile) : Except ExecutionAttestationError Bytes := do
  p.validate
  .ok p.bytes

def fingerprint (sha256 : Bytes → Bytes) (p : ExecutionProfile) : Except ExecutionAttestationError Sha256Digest := do
  let bytes ← p.canonicalBytes
  .ok ⟨digestHex sha256 bytes⟩

/-- The texts of a profile. -/
def texts (p : ExecutionProfile) : List Str :=
  [p.capabilityProfileSha256.text, p.topologyProfileSha256.text, p.modelSha256.text, p.tokenizerSha256.text,
    p.numericMode, p.kernelSemanticVersion] ++ p.samplerSemanticVersion.toList ++ p.architecture.name.toList

/-- Every text of a valid profile is short. -/
theorem byteLen_le_of_validate {p : ExecutionProfile} (h : p.validate = .ok ()) {s : Str} (hs : s ∈ p.texts) :
    byteLen s ≤ maxSemanticTextBytes := by
  have hdigest : ∀ {d : Sha256Digest}, d.validate = .ok () → byteLen d.text ≤ maxSemanticTextBytes := by
    intro d hd
    have hhex := refuseProfileIf_ok.mp hd
    simp only [isSha256Hex, Bool.not_eq_false, Bool.and_eq_true, decide_eq_true_eq] at hhex
    exact hhex.1 ▸ by decide
  have hid : ∀ {field value : Str}, validateSemanticId field value = .ok () →
      byteLen value ≤ maxSemanticTextBytes := fun hv => (not_not.mp (refuseProfileIf_ok.mp hv)).2.1
  unfold validate at h
  obtain ⟨_, -, h⟩ := bind_eq_ok.mp h
  obtain ⟨_, hcapability, h⟩ := bind_eq_ok.mp h
  obtain ⟨_, htopology, h⟩ := bind_eq_ok.mp h
  obtain ⟨_, hmodel, h⟩ := bind_eq_ok.mp h
  obtain ⟨_, htokenizer, h⟩ := bind_eq_ok.mp h
  obtain ⟨_, hmode, h⟩ := bind_eq_ok.mp h
  obtain ⟨_, hkernel, h⟩ := bind_eq_ok.mp h
  obtain ⟨_, hsampler, h⟩ := bind_eq_ok.mp h
  obtain ⟨_, hname, -⟩ := bind_eq_ok.mp h
  simp only [texts, List.cons_append, List.nil_append, List.mem_cons, List.mem_append, Option.mem_toList] at hs
  rcases hs with rfl | rfl | rfl | rfl | rfl | rfl | hs | hs
  · exact hdigest hcapability
  · exact hdigest htopology
  · exact hdigest hmodel
  · exact hdigest htokenizer
  · exact hid hmode
  · exact hid hkernel
  · rw [hs] at hsampler
    exact hid hsampler
  · rw [hs] at hname
    exact (not_not.mp (refuseProfileIf_ok.mp hname)).2.1

end ExecutionProfile

end Ccos
