import Ccos.Dgm.Archive
import Ccos.Wire.Survival

/-!
# The archive as JSON

A score that is not finite is written as `null`, and what is missing is read as a default.
-/

open Std

namespace Ccos

/-- What the archive asks of `f64`: JSON, the infinities, and `as u64`. -/
class DgmFloat64 (F : Type) extends WireFloat64 F, InfFloat64 F where
  toU64 : F → UInt64

/-- Finite numbers read back from their texts, and the whole numbers below `2^53` are exact. -/
class LawfulDgmFloat64 (F : Type) [DgmFloat64 F] : Prop where
  prints : ∀ x : F, Float64.isFinite x = true → Prints x
  ofNat_finite : ∀ n < 2 ^ 53, Float64.isFinite (Scalar.ofNat n : F) = true
  ofNat_nonneg : ∀ n < 2 ^ 53, Scalar.ge (Scalar.ofNat n : F) (Scalar.lit 0) = true
  toU64_ofNat : ∀ n < 2 ^ 53, DgmFloat64.toU64 (Scalar.ofNat n : F) = UInt64.ofNat n

/-! ## The accessors of a value -/

namespace Json

variable {F : Type} [DgmFloat64 F]

def get (j : Json F) (key : String) : Option (Json F) :=
  match j with
  | .obj map => getField map key
  | _ => none

def asStr : Json F → Option Str
  | .str s => some s
  | _ => none

def asF64 : Json F → Option F
  | .num n => some n
  | _ => none

def asU64 (j : Json F) : Option UInt64 :=
  (j.asF64.filter fun n => Float64.isFinite n && Scalar.ge n (Scalar.lit 0)).map DgmFloat64.toU64

def asBool : Json F → Option Bool
  | .bool b => some b
  | _ => none

def asArray : Json F → Option (List (Json F))
  | .arr items => some items
  | _ => none

end Json

/-! ## Writing and reading -/

def JsonError.text : JsonError → Str
  | .message text => text
  | .outOfFuel => []

section Json

variable {F : Type} [DgmFloat64 F]

def Patch.toJson (p : Patch) : Json F :=
  .obj (ofEntries [("target".toList, .str p.target), ("find".toList, .str p.find), ("replace".toList, .str p.replace)])

def Patch.fromJson (j : Json F) : Option Patch := do
  let target ← (← j.get "target").asStr
  let find ← (← j.get "find").asStr
  let replace ← (← j.get "replace").asStr
  some ⟨target, find, replace⟩

def Fitness.toJson (f : Fitness F) : Json F :=
  .obj (ofEntries [
    ("compiles".toList, .bool f.compiles),
    ("tests_passed".toList, .num (Scalar.ofNat f.testsPassed.toNat)),
    ("tests_failed".toList, .num (Scalar.ofNat f.testsFailed.toNat)),
    ("score".toList, if Float64.isFinite f.score then .num f.score else .null),
    ("notes".toList, .str f.notes)])

/-- A count that is missing or no number is zero. -/
def countField (j : Json F) (key : String) : UInt64 := ((j.get key).bind Json.asU64).getD 0

def textField (j : Json F) (key : String) (default : Str) : Str := ((j.get key).bind Json.asStr).getD default

def Fitness.fromJson (j : Json F) : Option (Fitness F) := do
  let compiles ← (← j.get "compiles").asBool
  let score :=
    match j.get "score" with
    | some (.num n) => n
    | _ => if !compiles then -InfFloat64.infinity else Scalar.lit 0
  some ⟨compiles, (countField j "tests_passed").toUInt32, (countField j "tests_failed").toUInt32, score,
    textField j "notes" []⟩

def VariantStatus.asStr : VariantStatus → Str
  | .pending => "pending".toList
  | .accepted => "accepted".toList
  | .rejected => "rejected".toList

def VariantStatus.fromStr (s : Str) : VariantStatus :=
  if s = "accepted".toList then .accepted else if s = "rejected".toList then .rejected else .pending

def Variant.toJson (v : Variant F) : Json F :=
  .obj (ofEntries [
    ("id".toList, .str v.id),
    ("parent".toList, optionString v.parent),
    ("generation".toList, .num (Scalar.ofNat v.generation)),
    ("seq".toList, .num (Scalar.ofNat v.seq)),
    ("patch".toList, v.patch.toJson),
    ("rationale".toList, .str v.rationale),
    ("status".toList, .str v.status.asStr),
    ("fitness".toList, (v.fitness.map Fitness.toJson).getD .null)])

def Variant.fromJson (j : Json F) : Option (Variant F) := do
  let id ← (← j.get "id").asStr
  let patch ← Patch.fromJson (← j.get "patch")
  some {
    id := id
    parent := (j.get "parent").bind Json.asStr
    generation := (countField j "generation").toNat
    seq := (countField j "seq").toNat
    patch := patch
    rationale := textField j "rationale" []
    status := .fromStr (textField j "status" "pending".toList)
    fitness := (j.get "fitness").bind Fitness.fromJson }

namespace Archive

def toJson (a : Archive F) : Str :=
  Json.write (.obj (ofEntries [("variants".toList, .arr (a.variants.map Variant.toJson))]))

/-- A variant that does not read is left out. -/
def fromJson (s : Str) : Except DgmError (Archive F) := do
  let j ← (Json.parse s).mapError fun e => .apply e.text
  match (j.get "variants").bind Json.asArray with
  | none => .error (.apply "missing 'variants' array".toList)
  | some items => .ok ⟨items.filterMap Variant.fromJson⟩

end Archive

/-! ## What is read back -/

/-- A score that is not finite is read back as negative infinity or as zero. -/
def Fitness.reloaded (f : Fitness F) : Fitness F :=
  { f with score :=
      if Float64.isFinite f.score then f.score else if f.compiles then Scalar.lit 0 else -InfFloat64.infinity }

def Variant.reloaded (v : Variant F) : Variant F := { v with fitness := v.fitness.map Fitness.reloaded }

def Archive.reloaded (a : Archive F) : Archive F := ⟨a.variants.map Variant.reloaded⟩

end Json

section Lawful

variable {F : Type} [DgmFloat64 F]

/-! ### The order of the keys -/

omit [DgmFloat64 F] in
theorem Patch.toJson_eq (p : Patch) : (p.toJson : Json F) = .obj [("find".toList, .str p.find),
    ("replace".toList, .str p.replace), ("target".toList, .str p.target)] := rfl

theorem Fitness.toJson_eq (f : Fitness F) : f.toJson = .obj [("compiles".toList, .bool f.compiles),
    ("notes".toList, .str f.notes), ("score".toList, if Float64.isFinite f.score then .num f.score else .null),
    ("tests_failed".toList, .num (Scalar.ofNat f.testsFailed.toNat)),
    ("tests_passed".toList, .num (Scalar.ofNat f.testsPassed.toNat))] := rfl

theorem Variant.toJson_eq (v : Variant F) : v.toJson = .obj [
    ("fitness".toList, (v.fitness.map Fitness.toJson).getD .null),
    ("generation".toList, .num (Scalar.ofNat v.generation)), ("id".toList, .str v.id),
    ("parent".toList, optionString v.parent), ("patch".toList, v.patch.toJson),
    ("rationale".toList, .str v.rationale), ("seq".toList, .num (Scalar.ofNat v.seq)),
    ("status".toList, .str v.status.asStr)] := rfl

omit [DgmFloat64 F] in
theorem ascending_of_keys {entries : Fields F} (keys : List Str) (hkeys : entries.map (·.1) = keys)
    (h : keys.Pairwise fun a b => compare a b = .lt) : entries.Pairwise fun a b => compare a.1 b.1 = .lt :=
  List.pairwise_map.mp (hkeys ▸ h)

variable [LawfulDgmFloat64 F]

theorem prints_ofNat {n : Nat} (h : n < 2 ^ 53) : Prints (Scalar.ofNat n : F) :=
  LawfulDgmFloat64.prints _ (LawfulDgmFloat64.ofNat_finite n h)

theorem lt_exact (n : UInt32) : n.toNat < 2 ^ 53 := by
  have := n.toNat_lt
  omega

omit [LawfulDgmFloat64 F] in
theorem Patch.canonical (p : Patch) : Canonical 1 (p.toJson : Json F) := by
  rw [Patch.toJson_eq]
  refine .obj (ascending_of_keys ["find".toList, "replace".toList, "target".toList] rfl (by decide)) ?_
  intro e he
  simp only [List.mem_cons, List.not_mem_nil, or_false] at he
  rcases he with rfl | rfl | rfl <;> exact .str _

theorem Fitness.canonical (f : Fitness F) : Canonical 1 f.toJson := by
  rw [Fitness.toJson_eq]
  refine .obj (ascending_of_keys ["compiles".toList, "notes".toList, "score".toList, "tests_failed".toList,
    "tests_passed".toList] rfl (by decide)) ?_
  intro e he
  simp only [List.mem_cons, List.not_mem_nil, or_false] at he
  rcases he with rfl | rfl | rfl | rfl | rfl
  · exact .bool _
  · exact .str _
  · dsimp only
    split
    · next hfinite => exact .num (LawfulDgmFloat64.prints _ hfinite)
    · exact .null
  · exact .num (prints_ofNat (lt_exact _))
  · exact .num (prints_ofNat (lt_exact _))

def Variant.Exact (v : Variant F) : Prop := v.generation < 2 ^ 53 ∧ v.seq < 2 ^ 53

theorem Variant.canonical {v : Variant F} (hv : v.Exact) : Canonical 2 v.toJson := by
  rw [Variant.toJson_eq]
  refine .obj (ascending_of_keys ["fitness".toList, "generation".toList, "id".toList, "parent".toList, "patch".toList,
    "rationale".toList, "seq".toList, "status".toList] rfl (by decide)) ?_
  intro e he
  simp only [List.mem_cons, List.not_mem_nil, or_false] at he
  rcases he with rfl | rfl | rfl | rfl | rfl | rfl | rfl | rfl
  · cases v.fitness with
    | none => exact .null
    | some f => exact f.canonical
  · exact .num (prints_ofNat hv.1)
  · exact .str _
  · exact .optionString _
  · exact v.patch.canonical
  · exact .str _
  · exact .num (prints_ofNat hv.2)
  · exact .str _

/-! ### The round trip -/

theorem countField_ofNat {j : Json F} {key : String} {n : Nat} (h : j.get key = some (.num (Scalar.ofNat n)))
    (hn : n < 2 ^ 53) : countField j key = UInt64.ofNat n := by
  unfold countField
  rw [h, Option.bind_some, Json.asU64, Json.asF64, Option.filter_some, LawfulDgmFloat64.ofNat_finite n hn,
    LawfulDgmFloat64.ofNat_nonneg n hn, Bool.and_true, if_pos rfl, Option.map_some,
    LawfulDgmFloat64.toU64_ofNat n hn, Option.getD_some]

omit [DgmFloat64 F] [LawfulDgmFloat64 F] in
theorem textField_str {j : Json F} {key : String} {s : Str} (h : j.get key = some (.str s)) (default : Str) :
    textField j key default = s := by
  unfold textField
  rw [h]
  rfl

omit [DgmFloat64 F] [LawfulDgmFloat64 F] in
theorem Patch.fromJson_toJson (p : Patch) : Patch.fromJson (p.toJson : Json F) = some p := rfl

theorem VariantStatus.fromStr_asStr (status : VariantStatus) : fromStr status.asStr = status := by
  cases status <;> decide

theorem Fitness.fromJson_toJson (f : Fitness F) : Fitness.fromJson f.toJson = some f.reloaded := by
  have hcompiles : f.toJson.get "compiles" = some (.bool f.compiles) := rfl
  have hscore : f.toJson.get "score" = some (if Float64.isFinite f.score then .num f.score else .null) := rfl
  have hpassed := countField_ofNat (rfl : f.toJson.get "tests_passed" = some (.num (Scalar.ofNat f.testsPassed.toNat)))
    (lt_exact _)
  have hfailed := countField_ofNat (rfl : f.toJson.get "tests_failed" = some (.num (Scalar.ofNat f.testsFailed.toNat)))
    (lt_exact _)
  have hnotes := textField_str (rfl : f.toJson.get "notes" = some (.str f.notes)) []
  unfold Fitness.fromJson
  rw [hcompiles, hscore, hpassed, hfailed, hnotes]
  unfold Fitness.reloaded
  simp only [bind, Option.bind, Json.asBool]
  cases Float64.isFinite f.score <;> cases f.compiles <;> simp

theorem Variant.fromJson_toJson {v : Variant F} (hv : v.Exact) : Variant.fromJson v.toJson = some v.reloaded := by
  have hid : v.toJson.get "id" = some (.str v.id) := rfl
  have hparent : v.toJson.get "parent" = some (optionString v.parent) := rfl
  have hgeneration := countField_ofNat (rfl : v.toJson.get "generation" = some (.num (Scalar.ofNat v.generation))) hv.1
  have hseq := countField_ofNat (rfl : v.toJson.get "seq" = some (.num (Scalar.ofNat v.seq))) hv.2
  have hpatch : v.toJson.get "patch" = some v.patch.toJson := rfl
  have hrationale := textField_str (rfl : v.toJson.get "rationale" = some (.str v.rationale)) []
  have hstatus := textField_str (rfl : v.toJson.get "status" = some (.str v.status.asStr)) "pending".toList
  have hfitness : v.toJson.get "fitness" = some ((v.fitness.map Fitness.toJson).getD .null) := rfl
  have hname : (optionString v.parent : Json F).asStr = v.parent := by
    cases v.parent <;> rfl
  have hmeasured : Fitness.fromJson ((v.fitness.map Fitness.toJson).getD .null) = v.fitness.map Fitness.reloaded := by
    cases v.fitness with
    | none => rfl
    | some f => exact f.fromJson_toJson
  have hexact : ∀ n < 2 ^ 53, (UInt64.ofNat n).toNat = n := fun n hn =>
    UInt64.toNat_ofNat_of_lt' (hn.trans (by decide))
  unfold Variant.fromJson
  rw [hid, hparent, hgeneration, hseq, hpatch, hrationale, hstatus, hfitness, hexact _ hv.1, hexact _ hv.2]
  simp only [Option.bind_eq_bind, Option.bind_some, Patch.fromJson_toJson, hname, hmeasured,
    VariantStatus.fromStr_asStr]
  rfl

/-- What was saved is read back, but for the scores that are not finite. -/
theorem Archive.fromJson_toJson {a : Archive F} (ha : ∀ v ∈ a.variants, v.Exact) :
    Archive.fromJson a.toJson = .ok a.reloaded := by
  have hcanonical : Canonical 4 (.obj (ofEntries [("variants".toList, .arr (a.variants.map Variant.toJson))])) := by
    refine .obj (List.pairwise_singleton _ _) ?_
    intro e he
    rw [List.mem_singleton.mp he]
    refine .arr fun j hj => ?_
    obtain ⟨v, hv, rfl⟩ := List.mem_map.mp hj
    exact Variant.canonical (ha v hv)
  have hitems : (a.variants.map Variant.toJson).filterMap Variant.fromJson = a.variants.map Variant.reloaded := by
    rw [List.filterMap_map, ← List.filterMap_eq_map]
    exact List.filterMap_congr fun v hv => Variant.fromJson_toJson (ha v hv)
  unfold Archive.fromJson Archive.toJson
  rw [Json.parse_write hcanonical (by decide)]
  show Except.ok (Archive.mk _) = _
  rw [hitems]
  rfl

end Lawful

end Ccos
