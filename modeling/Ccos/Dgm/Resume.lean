import Ccos.Dgm.ArchiveJson
import Ccos.Dgm.Lineage
import Ccos.Dgm.Promotions

/-!
# An archive that is saved and resumed

Ids hash the lineage, the number and the text of a patch. An engine on a reloaded archive numbers its variants
from the length of the archive, so what it archives may have a number that an older variant has.
-/

open ByteCodec

namespace Ccos

variable {F : Type}

/-- Everything but the fitness. -/
def Variant.record (v : Variant F) : Variant F := { v with fitness := none }

namespace Archive

/-- Every id is that of its variant, and only roots have no parent. -/
structure WellNamed (digest : Bytes → Bytes) (a : Archive F) : Prop where
  id_eq : ∀ v ∈ a.variants, v.id = variantId digest v.parent v.generation v.seq v.patch
  bar_not_mem : ∀ v ∈ a.variants, '|' ∉ v.parent.getD []
  root : ∀ v ∈ a.variants, v.parent = none → v.generation = 0

/-- The ids differ, and each one finds the variant that was inserted under it. -/
structure Identified (a : Archive F) : Prop where
  distinct : (a.variants.map (·.id)).Nodup
  found : ∀ v ∈ a.variants, a.get v.id = some v

/-- Some variant has the parent, the generation, the number and the text of such a child. -/
def Repeats (a : Archive F) (parent : Variant F) (seq : Nat) (patch : Patch) : Prop :=
  ∃ v ∈ a.variants, v.parent = some parent.id ∧ v.generation = parent.generation + 1 ∧ v.seq = seq
    ∧ v.patch.joined = patch.joined

/-- Where `C` holds of their fitness in `a`, the archives agree on which of two variants is better. -/
def SameOrder [Float64 F] (C : Fitness F → Fitness F → Prop) (a b : Archive F) : Prop :=
  ∀ p ∈ a.variants.zip b.variants, ∀ q ∈ a.variants.zip b.variants, ∀ f f' g g',
    p.1.fitness = some f → p.2.fitness = some f' → q.1.fitness = some g → q.2.fitness = some g' →
    C f g → f'.isBetterThan g' = f.isBetterThan g

end Archive

/-- The score is one that is read back: finite, or the negative infinity of what does not compile. -/
def Fitness.KeepsScore [InfFloat64 F] (f : Fitness F) : Prop :=
  Float64.isFinite f.score = true ∨ f.compiles = false ∧ f.score = -InfFloat64.infinity

/-- The scores do not decide, or they are both read back. -/
def Fitness.OrderKept [InfFloat64 F] (f g : Fitness F) : Prop := f.gates ≠ g.gates ∨ f.KeepsScore ∧ g.KeepsScore

/-- The step archives nothing that repeats a variant. -/
def DgmEngine.NothingRepeated {P : Type} [InfFloat64 F] (digest : Bytes → Bytes) (roles : Roles P F)
    (config : DgmConfig F) (s : DgmEngine P F) (workspace : Tree) : Prop :=
  ∀ t, (s.attempt digest roles config workspace).1 = .ok (some t) → acceptable config t.parent t.fitness = true →
    ¬ s.archive.Repeats t.parent s.nextSeq t.proposal.patch

/-! ## Ids -/

section Ids

variable {digest : Bytes → Bytes}

namespace Archive

theorem identified_of_distinct {a : Archive F} (h : (a.variants.map (·.id)).Nodup) : a.Identified := by
  refine ⟨h, fun v hv => ?_⟩
  unfold get
  cases hfind : a.variants.find? (fun w => w.id = v.id) with
  | none =>
    have hother := List.find?_eq_none.mp hfind v hv
    rw [decide_eq_true rfl] at hother
    exact absurd rfl hother
  | some w =>
    have hid : w.id = v.id := by simpa using List.find?_some hfind
    rw [List.inj_on_of_nodup_map h (List.mem_of_find?_eq_some hfind) hv hid]

theorem identified_insert {a : Archive F} (ha : a.Identified) (child : Variant F) :
    (a.insert child).Identified ↔ ∀ v ∈ a.variants, v.id ≠ child.id := by
  have hids : ((a.insert child).variants.map (·.id)).Nodup ↔ ∀ v ∈ a.variants, v.id ≠ child.id := by
    unfold Archive.insert
    rw [List.map_append, List.map_singleton, List.nodup_append]
    constructor
    · rintro ⟨-, -, hne⟩ v hv
      exact hne v.id (List.mem_map_of_mem hv) child.id (List.mem_singleton_self _)
    · intro hne
      refine ⟨ha.distinct, List.nodup_singleton _, ?_⟩
      intro id hid id' hid'
      obtain ⟨v, hv, rfl⟩ := List.mem_map.mp hid
      rw [List.mem_singleton.mp hid']
      exact hne v hv
  exact ⟨fun h => hids.mp h.distinct, fun h => identified_of_distinct (hids.mpr h)⟩

theorem WellNamed.insert {a : Archive F} (ha : a.WellNamed digest) {child : Variant F}
    (hid : child.id = variantId digest child.parent child.generation child.seq child.patch)
    {parent : Variant F} (hmem : parent ∈ a.variants) (hparent : child.parent = some parent.id) :
    (a.insert child).WellNamed digest := by
  have hbar : '|' ∉ child.parent.getD [] := by
    rw [hparent, Option.getD_some, ha.id_eq parent hmem]
    exact bar_not_mem_variantId _ _ _ _ _
  refine ⟨?_, ?_, ?_⟩ <;> intro v hv <;> rcases List.mem_append.mp hv with hv | hv
  · exact ha.id_eq v hv
  · rw [List.mem_singleton.mp hv]
    exact hid
  · exact ha.bar_not_mem v hv
  · rw [List.mem_singleton.mp hv]
    exact hbar
  · exact ha.root v hv
  · intro hnone
    rw [List.mem_singleton.mp hv, hparent] at hnone
    cases hnone

end Archive

end Ids

/-! ## Steps -/

namespace DgmEngine

variable {P : Type} [InfFloat64 F] {digest : Bytes → Bytes} {roles : Roles P F} {config : DgmConfig F}

/-- A child has the id of a variant exactly when it repeats it. -/
theorem measuredChild_id_iff (hdigest : Function.Injective digest) (config : DgmConfig F) {s : DgmEngine P F}
    (hs : s.archive.WellNamed digest) {parent : Variant F} (hparent : parent ∈ s.archive.variants)
    (proposal : Proposal) (fitness : Fitness F) :
    (∃ v ∈ s.archive.variants, v.id = (measuredChild digest config s parent proposal fitness).id) ↔
      s.archive.Repeats parent s.nextSeq proposal.patch := by
  have hbar : '|' ∉ (some parent.id).getD [] := by
    rw [Option.getD_some, hs.id_eq parent hparent]
    exact bar_not_mem_variantId _ _ _ _ _
  have hchild : (measuredChild digest config s parent proposal fitness).id
      = variantId digest (some parent.id) (parent.generation + 1) s.nextSeq proposal.patch := rfl
  have hiff : ∀ v ∈ s.archive.variants, v.id = (measuredChild digest config s parent proposal fitness).id ↔
      v.parent = some parent.id ∧ v.generation = parent.generation + 1 ∧ v.seq = s.nextSeq
        ∧ v.patch.joined = proposal.patch.joined := by
    intro v hv
    rw [hs.id_eq v hv, hchild, variantId_eq_iff hdigest (hs.bar_not_mem v hv) hbar]
    refine and_congr_left fun h => ?_
    cases hname : v.parent with
    | none =>
      have hroot := hs.root v hv hname
      exact absurd (hroot.symm.trans h.1) (Nat.succ_ne_zero _).symm
    | some name => rw [Option.getD_some, Option.getD_some, Option.some_inj]
  unfold Archive.Repeats
  constructor
  · rintro ⟨v, hv, hid⟩
    exact ⟨v, hv, (hiff v hv).mp hid⟩
  · rintro ⟨v, hv, hsame⟩
    exact ⟨v, hv, (hiff v hv).mpr hsame⟩

theorem stepped_wellNamed {s : DgmEngine P F} (hs : s.archive.WellNamed digest) (workspace : Tree) :
    (s.stepped digest roles config workspace).archive.WellNamed digest := by
  rcases stepped_cases digest roles config s workspace with ⟨-, harchive, -⟩ | ⟨t, -, hparent, harchive, -⟩
  · rw [harchive]
    exact hs
  · rw [harchive]
    split
    · exact hs.insert rfl hparent rfl
    · exact hs

/-- A step keeps the ids apart exactly when it archives nothing that repeats a variant. -/
theorem stepped_identified_iff (hdigest : Function.Injective digest) {s : DgmEngine P F}
    (hs : s.archive.WellNamed digest) (hids : s.archive.Identified) (workspace : Tree) :
    (s.stepped digest roles config workspace).archive.Identified ↔
      s.NothingRepeated digest roles config workspace := by
  refine stepped_iff hids fun t hparent _ => ?_
  rw [Archive.identified_insert hids, ← measuredChild_id_iff hdigest config hs hparent t.proposal t.fitness]
  simp

theorem identified_iff (hdigest : Function.Injective digest) {s : DgmEngine P F} (hs : s.archive.WellNamed digest)
    (hids : s.archive.Identified) (workspaces : List Tree) :
    Runs.Throughout (stepped digest roles config) (fun s => s.archive.Identified) s workspaces ↔
      Runs.EachStep (stepped digest roles config) (NothingRepeated digest roles config) s workspaces :=
  Runs.throughout_iff_eachStep (P := fun s => s.archive.WellNamed digest) hs hids
    (fun _ workspace hs _ => stepped_wellNamed hs workspace)
    fun _ workspace hs hids => stepped_identified_iff hdigest hs hids workspace

/-! ## A run from a root -/

/-- The counter is ahead of every number, and every number of every generation. -/
structure Fresh (digest : Bytes → Bytes) (s : DgmEngine P F) : Prop where
  named : s.archive.WellNamed digest
  identified : s.archive.Identified
  seq_lt : ∀ v ∈ s.archive.variants, v.seq < s.nextSeq
  generation_le : ∀ v ∈ s.archive.variants, v.generation ≤ v.seq

omit [InfFloat64 F] in
theorem onRoot_fresh (baseline : Fitness F) (state : P) (seed : UInt64) :
    (onRoot digest baseline state seed).Fresh digest := by
  refine ⟨⟨?_, ?_, ?_⟩, Archive.identified_of_distinct (List.nodup_singleton _), ?_, ?_⟩ <;> intro v hv <;>
    rw [List.mem_singleton.mp hv]
  · rfl
  · exact List.not_mem_nil
  · exact fun _ => rfl
  · exact Nat.one_pos
  · exact Nat.le_refl 0

theorem stepped_fresh (hdigest : Function.Injective digest) {s : DgmEngine P F} (hs : s.Fresh digest)
    (workspace : Tree) : (s.stepped digest roles config workspace).Fresh digest := by
  have hnamed : (s.stepped digest roles config workspace).archive.WellNamed digest :=
    stepped_wellNamed hs.named workspace
  have hids : (s.stepped digest roles config workspace).archive.Identified := by
    refine (stepped_identified_iff hdigest hs.named hs.identified workspace).mpr fun t _ _ => ?_
    rintro ⟨v, hv, -, -, hseq, -⟩
    have := hs.seq_lt v hv
    omega
  rcases stepped_cases digest roles config s workspace with ⟨-, harchive, hseq⟩ | ⟨t, -, hparent, harchive, hseq⟩
  · refine ⟨hnamed, hids, ?_, ?_⟩ <;> rw [harchive]
    · rw [hseq]
      exact hs.seq_lt
    · exact hs.generation_le
  · have hmem : ∀ v ∈ (s.stepped digest roles config workspace).archive.variants, v ∈ s.archive.variants
        ∨ v = measuredChild digest config s t.parent t.proposal t.fitness := by
      intro v hv
      rw [harchive] at hv
      split at hv
      · exact (List.mem_append.mp hv).imp_right List.mem_singleton.mp
      · exact .inl hv
    refine ⟨hnamed, hids, ?_, ?_⟩
    · intro v hv
      rw [hseq]
      rcases hmem v hv with h | rfl
      · exact Nat.lt_succ_of_lt (hs.seq_lt v h)
      · exact Nat.lt_succ_self _
    · intro v hv
      rcases hmem v hv with h | rfl
      · exact hs.generation_le v h
      · exact Nat.lt_of_le_of_lt (hs.generation_le t.parent hparent) (hs.seq_lt t.parent hparent)

theorem nextSeq_run_le (digest : Bytes → Bytes) (roles : Roles P F) (config : DgmConfig F) (s : DgmEngine P F)
    (workspaces : List Tree) :
    (Runs.run (stepped digest roles config) s workspaces).nextSeq ≤ s.nextSeq + workspaces.length := by
  induction workspaces generalizing s with
  | nil => exact Nat.le_refl _
  | cons workspace workspaces ih =>
    have hstep : (s.stepped digest roles config workspace).nextSeq ≤ s.nextSeq + 1 := by
      rcases stepped_cases digest roles config s workspace with ⟨-, -, hseq⟩ | ⟨_, -, -, -, hseq⟩ <;> omega
    have := ih (s.stepped digest roles config workspace)
    rw [List.length_cons]
    show (Runs.run _ (s.stepped digest roles config workspace) workspaces).nextSeq ≤ _
    omega

end DgmEngine

/-! ## Reloading -/

section Reload

variable [DgmFloat64 F]

theorem Fitness.KeepsScore.reloaded {f : Fitness F} (h : f.KeepsScore) : f.reloaded = f := by
  have hscore : f.reloaded.score = f.score := by
    unfold Fitness.reloaded
    rcases h with hfinite | ⟨hcompiles, hscore⟩
    · rw [if_pos hfinite]
    · rw [hcompiles, if_neg Bool.false_ne_true, ← hscore, ite_self]
  exact congrArg (fun x => { f with score := x }) hscore

theorem Fitness.reloaded_of_gates {f g : Fitness F} (h : f.gates ≠ g.gates) :
    f.reloaded.isBetterThan g.reloaded = f.isBetterThan g := by
  have hsame : ∀ b c : Bool, b.toNat = c.toNat → b = c := by decide
  rw [Bool.eq_iff_iff, isBetterThan_iff, isBetterThan_iff]
  refine or_congr_right (and_congr_right fun hcompiles => or_congr_right (and_congr_right fun hfailed =>
    or_congr_right (and_congr_right fun hpassed => absurd ?_ h)))
  have hc : f.compiles = g.compiles := hsame _ _ hcompiles.symm
  have hf : f.testsFailed.toNat = g.testsFailed.toNat := hfailed
  have hp : f.testsPassed.toNat = g.testsPassed.toNat := hpassed.symm
  unfold gates
  rw [hc, hf, hp]

theorem Fitness.OrderKept.reloaded {f g : Fitness F} (h : f.OrderKept g) :
    f.reloaded.isBetterThan g.reloaded = f.isBetterThan g := by
  rcases h with hne | ⟨hf, hg⟩
  · exact reloaded_of_gates hne
  · rw [hf.reloaded, hg.reloaded]

namespace Archive

theorem mem_zip_reloaded {a : Archive F} {p : Variant F × Variant F} (h : p ∈ a.variants.zip a.reloaded.variants) :
    p.2 = p.1.reloaded := by
  have hzip := List.zip_map' (f := id) (g := Variant.reloaded) (l := a.variants)
  rw [List.map_id] at hzip
  unfold Archive.reloaded at h
  rw [hzip] at h
  obtain ⟨v, -, rfl⟩ := List.mem_map.mp h
  rfl

theorem sameOrder_reloaded (a : Archive F) : a.SameOrder Fitness.OrderKept a.reloaded := by
  intro p hp q hq f f' g g' hf hf' hg hg' hkept
  rw [mem_zip_reloaded hp, Variant.reloaded, hf, Option.map_some, Option.some_inj] at hf'
  rw [mem_zip_reloaded hq, Variant.reloaded, hg, Option.map_some, Option.some_inj] at hg'
  rw [← hf', ← hg']
  exact hkept.reloaded

theorem records_reloaded (a : Archive F) : a.reloaded.variants.map Variant.record = a.variants.map Variant.record := by
  unfold Archive.reloaded
  rw [List.map_map]
  rfl

variable {digest : Bytes → Bytes}

theorem WellNamed.reloaded {a : Archive F} (ha : a.WellNamed digest) : a.reloaded.WellNamed digest := by
  refine ⟨?_, ?_, ?_⟩ <;> intro v hv <;> obtain ⟨w, hw, rfl⟩ := List.mem_map.mp hv
  · exact ha.id_eq w hw
  · exact ha.bar_not_mem w hw
  · exact ha.root w hw

theorem Identified.reloaded {a : Archive F} (ha : a.Identified) : a.reloaded.Identified := by
  refine identified_of_distinct ?_
  unfold Archive.reloaded
  rw [List.map_map]
  exact ha.distinct

end Archive

/-- What a run from a root has archived is read back in order, with the scores that are not finite replaced, and the
ids stay apart in every run from there that archives nothing that repeats a variant. -/
theorem Archive.resume {P : Type} [LawfulDgmFloat64 F] {digest : Bytes → Bytes} (hdigest : Function.Injective digest)
    (roles : Roles P F) (config : DgmConfig F) (baseline : Fitness F) (state : P) (seed : UInt64)
    (workspaces : List Tree) (hlength : workspaces.length < 2 ^ 53) :
    let saved := (Runs.run (DgmEngine.stepped digest roles config) (.onRoot digest baseline state seed)
      workspaces).archive
    Archive.fromJson saved.toJson = .ok saved.reloaded
      ∧ saved.reloaded.variants.map Variant.record = saved.variants.map Variant.record
      ∧ saved.SameOrder Fitness.OrderKept saved.reloaded
      ∧ ∀ (P' : Type) (roles' : Roles P' F) (config' : DgmConfig F) (state' : P') (seed' : UInt64)
          (workspaces' : List Tree),
        Runs.EachStep (DgmEngine.stepped digest roles' config') (DgmEngine.NothingRepeated digest roles' config')
            (.new saved.reloaded state' seed') workspaces' →
          Runs.Throughout (DgmEngine.stepped digest roles' config') (fun s => s.archive.Identified)
            (.new saved.reloaded state' seed') workspaces' := by
  intro saved
  have hfresh : (Runs.run (DgmEngine.stepped digest roles config) (.onRoot digest baseline state seed)
      workspaces).Fresh digest :=
    Runs.run_keeps (DgmEngine.onRoot_fresh baseline state seed) fun s workspace hs =>
      DgmEngine.stepped_fresh hdigest hs workspace
  have hcount := DgmEngine.nextSeq_run_le digest roles config (.onRoot digest baseline state seed) workspaces
  have hexact : ∀ v ∈ saved.variants, v.Exact := by
    intro v hv
    have hseq := hfresh.seq_lt v hv
    have hgeneration := hfresh.generation_le v hv
    have hone : (DgmEngine.onRoot digest baseline state seed).nextSeq = 1 := rfl
    unfold Variant.Exact
    omega
  refine ⟨Archive.fromJson_toJson hexact, Archive.records_reloaded saved, Archive.sameOrder_reloaded saved, ?_⟩
  intro P' roles' config' state' seed' workspaces'
  exact (DgmEngine.identified_iff hdigest hfresh.named.reloaded hfresh.identified.reloaded workspaces').mpr

end Reload

/-! ## Texts of exact numbers -/

namespace ExtRat

def intStr (i : Int) : Str := (toString i).toList

def parseDigits (digits : Str) : Option Nat :=
  if digits ≠ [] ∧ digits.all isAsciiDigit = true then some (Nat.ofDigitChars 10 digits 0) else none

def parseInt : Str → Option Int
  | '-' :: digits => (parseDigits digits).map fun n => -Int.ofNat n
  | digits => (parseDigits digits).map Int.ofNat

/-- The denominator stands after a point. -/
def display : ExtRat → Str
  | num q => intStr q.num ++ if q.den = 1 then [] else '.' :: natStr q.den
  | infinity negative => if negative then "-inf".toList else "inf".toList
  | nan => "NaN".toList

def parseRest (n : Int) : Str → Option ExtRat
  | [] => some (num n)
  | _ :: digits => (parseDigits digits).map fun d : Nat => num (n / d)

def parse (s : Str) : Option ExtRat :=
  (parseInt (s.takeWhile (· ≠ '.'))).bind fun n => parseRest n (s.dropWhile (· ≠ '.'))

def trunc : ExtRat → Int
  | num q => q.num.tdiv q.den
  | _ => 0

instance : DgmFloat64 ExtRat where
  toInfFloat64 := inferInstance
  fromBits _ := nan
  fract
    | num q => num (q - (num q).trunc)
    | _ => nan
  toI64 := trunc
  toU16 x := UInt16.ofNat x.trunc.toNat
  toU64 x := UInt64.ofNat x.trunc.toNat
  display := display
  parse := parse

theorem parseDigits_natStr (n : Nat) : parseDigits (natStr n) = some n := by
  unfold parseDigits
  rw [if_pos ⟨natStr_ne_nil n, List.all_eq_true.mpr fun c hc => isAsciiDigit_of_mem_natStr hc⟩, ofDigitChars_natStr]

theorem intStr_eq (i : Int) : intStr i = natStr i.natAbs ∧ 0 ≤ i ∨ intStr i = '-' :: natStr i.natAbs ∧ i < 0 := by
  cases i with
  | ofNat n => exact .inl ⟨rfl, Int.natCast_nonneg n⟩
  | negSucc n => exact .inr ⟨by simp [intStr, natStr, toString, Int.repr], Int.negSucc_lt_zero n⟩

theorem parseInt_intStr (i : Int) : parseInt (intStr i) = some i := by
  rcases intStr_eq i with ⟨heq, hi⟩ | ⟨heq, hi⟩
  · rw [heq]
    obtain ⟨c, rest, hcons⟩ := List.exists_cons_of_ne_nil (natStr_ne_nil i.natAbs)
    have hc : c ≠ '-' := by
      rintro rfl
      exact absurd (isAsciiDigit_of_mem_natStr (hcons ▸ List.mem_cons_self)) (by decide)
    have hparse : parseInt (natStr i.natAbs) = (parseDigits (natStr i.natAbs)).map Int.ofNat := by
      rw [hcons]
      unfold parseInt
      split
      · next h => exact absurd (List.cons.inj h).1 hc
      · rfl
    rw [hparse, parseDigits_natStr, Option.map_some]
    exact congrArg some (Int.natAbs_of_nonneg hi)
  · rw [heq, parseInt, parseDigits_natStr, Option.map_some]
    exact congrArg some (by rw [Int.ofNat_eq_natCast]; omega)

theorem isNumberChar_natStr (n : Nat) : ∀ c ∈ natStr n, isNumberChar c = true := by
  intro c hc
  unfold isNumberChar
  rw [isAsciiDigit_of_mem_natStr hc]
  rfl

theorem isNumberChar_intStr (i : Int) : ∀ c ∈ intStr i, isNumberChar c = true := by
  rcases intStr_eq i with ⟨heq, -⟩ | ⟨heq, -⟩
  · rw [heq]
    exact isNumberChar_natStr _
  · rw [heq]
    intro c hc
    rcases List.mem_cons.mp hc with rfl | hc
    · rfl
    · exact isNumberChar_natStr _ c hc

theorem intStr_head (i : Int) : ∃ c text, intStr i = c :: text ∧ (c = '-' ∨ isAsciiDigit c = true) := by
  rcases intStr_eq i with ⟨heq, -⟩ | ⟨heq, -⟩
  · obtain ⟨c, rest, hcons⟩ := List.exists_cons_of_ne_nil (natStr_ne_nil i.natAbs)
    exact ⟨c, rest, heq.trans hcons, .inr (isAsciiDigit_of_mem_natStr (hcons ▸ List.mem_cons_self))⟩
  · exact ⟨'-', _, heq, .inl rfl⟩

theorem ne_point_of_mem_intStr {i : Int} {c : Char} (h : c ∈ intStr i) : c ≠ '.' := by
  rintro rfl
  rcases intStr_eq i with ⟨heq, -⟩ | ⟨heq, -⟩ <;> rw [heq] at h
  · exact absurd (isAsciiDigit_of_mem_natStr h) (by decide)
  · rcases List.mem_cons.mp h with h | h
    · exact absurd h (by decide)
    · exact absurd (isAsciiDigit_of_mem_natStr h) (by decide)

theorem parse_intStr (i : Int) (rest : Str) (h : rest.head? = none ∨ rest.head? = some '.') :
    parse (intStr i ++ rest) = parseRest i rest := by
  have hpoint : ∀ c ∈ intStr i, decide (c ≠ '.') = true := fun c hc => decide_eq_true (ne_point_of_mem_intStr hc)
  have hstop : rest.takeWhile (· ≠ '.') = [] ∧ rest.dropWhile (· ≠ '.') = rest := by
    cases rest with
    | nil => exact ⟨rfl, rfl⟩
    | cons c rest =>
      obtain rfl : c = '.' := by simpa using h
      exact ⟨rfl, rfl⟩
  unfold parse
  rw [List.takeWhile_append_of_pos hpoint, List.dropWhile_append_of_pos hpoint, hstop.1, hstop.2, List.append_nil,
    parseInt_intStr]
  rfl

theorem writeNum_eq (q : ℚ) :
    Json.writeNum (num q) = intStr q.num ++ (if q.den = 1 then [] else '.' :: natStr q.den) := by
  by_cases hden : q.den = 1
  · have hdisplay : display (num q) = intStr q.num := by
      rw [display, if_pos hden, List.append_nil]
    have htrunc : (num q).trunc = q.num := by
      rw [trunc, hden]
      exact Int.tdiv_one _
    rw [if_pos hden, List.append_nil]
    unfold Json.writeNum
    split
    · exact congrArg intStr htrunc
    · exact hdisplay
  · have hfract : Scalar.eq (WireFloat64.fract (num q)) (Scalar.lit 0) = false := by
      rw [Bool.eq_false_iff]
      intro h
      have hcompare : compare (q - (num q).trunc) 0 = .eq := by
        simpa [Scalar.eq, Scalar.partialCmp, place, WireFloat64.fract, Scalar.lit] using h
      have hwhole : q = ((num q).trunc : ℚ) := sub_eq_zero.mp (compare_eq_iff_eq.mp hcompare)
      exact hden (hwhole ▸ Rat.den_intCast _)
    unfold Json.writeNum
    rw [hfract]
    rfl

theorem prints_num (q : ℚ) : Prints (num q) := by
  refine ⟨?_, ?_, ?_⟩ <;> rw [writeNum_eq]
  · obtain ⟨c, text, heq, hc⟩ := intStr_head q.num
    rw [heq]
    exact ⟨c, _, rfl, hc⟩
  · intro c hc
    rcases List.mem_append.mp hc with hc | hc
    · exact isNumberChar_intStr _ c hc
    · split at hc
      · cases hc
      · rcases List.mem_cons.mp hc with rfl | hc
        · rfl
        · exact isNumberChar_natStr _ c hc
  · show parse _ = _
    split
    · next hden =>
      rw [parse_intStr _ _ (.inl rfl), parseRest, Rat.coe_int_num_of_den_eq_one hden]
    · rw [parse_intStr _ _ (.inr rfl), parseRest, parseDigits_natStr, Option.map_some, Rat.num_div_den]

instance : LawfulDgmFloat64 ExtRat where
  prints x hx := by
    cases x with
    | num q => exact prints_num q
    | infinity _ => cases hx
    | nan => cases hx
  ofNat_finite _ _ := rfl
  ofNat_nonneg n _ := by
    show Scalar.ge (n : ℚ) 0 = true
    rw [ge_rat]
    exact decide_eq_true (Nat.cast_nonneg n)
  toU64_ofNat n _ := by
    show UInt64.ofNat ((n : ℚ).num.tdiv (n : ℚ).den).toNat = UInt64.ofNat n
    simp

end ExtRat

/-! ## Runs that are saved -/

theorem NanRun.resumes : Archive.fromJson NanRun.finished.archive.toJson = .ok NanRun.finished.archive.reloaded
    ∧ (NanRun.finished.archive.reloaded.variants.map fun v => v.fitness.map (·.score))
      = [some (.num 0), some (.num 5), some (.num 0), some (.num 1)] :=
  ⟨(Archive.resume Function.injective_id NanRun.roles NanRun.config NanRun.baseline 0 9
    [NanRun.level, NanRun.level, NanRun.level] (by decide)).1, by decide +kernel⟩

namespace InfiniteRun

/-- A candidate that compiles and has an infinite score. -/
def roles : Roles Unit ExtRat where
  advisors := {
    propose := fun _ _ rng => (.ok (some ⟨⟨"level.txt".toList, ['0'], ['1']⟩, "one".toList⟩), (), rng)
    predict := none }
  snapshotError _ := none
  evaluate _ _ := (.ok ⟨true, 0, 0, .infinity false, []⟩, ())

def baseline : Fitness ExtRat := ⟨true, 0, 0, .num 5, []⟩

def finished : DgmEngine Unit ExtRat :=
  Runs.run (DgmEngine.stepped id roles NanRun.config) (.onRoot id baseline () 7) [NanRun.level]

/-- The infinite score is better than five, and is read back as zero. -/
theorem order_is_lost : ¬ ∀ (roles : Roles Unit ExtRat) (config : DgmConfig ExtRat) (baseline : Fitness ExtRat)
    (state : Unit) (seed : UInt64) (workspaces : List Tree), workspaces.length < 2 ^ 53 →
    let saved := (Runs.run (DgmEngine.stepped id roles config) (.onRoot id baseline state seed) workspaces).archive
    ∃ loaded, Archive.fromJson saved.toJson = .ok loaded
      ∧ loaded.variants.map Variant.record = saved.variants.map Variant.record
      ∧ saved.SameOrder (fun _ _ => True) loaded
      ∧ ∀ (P' : Type) (roles' : Roles P' ExtRat) (config' : DgmConfig ExtRat) (state' : P') (seed' : UInt64)
          (workspaces' : List Tree),
        Runs.Throughout (DgmEngine.stepped id roles' config') (fun s => s.archive.Identified)
          (.new loaded state' seed') workspaces' := by
  intro h
  obtain ⟨loaded, hloaded, -, horder, -⟩ := h roles NanRun.config baseline () 7 [NanRun.level] (by decide)
  change Archive.fromJson finished.archive.toJson = .ok loaded at hloaded
  change finished.archive.SameOrder _ loaded at horder
  have hexact : ∀ v ∈ finished.archive.variants, v.Exact := by
    unfold Variant.Exact
    decide +kernel
  have hfitness : finished.archive.variants.map (·.fitness)
      = [some baseline, some ⟨true, 0, 0, .infinity false, []⟩] := by decide +kernel
  rw [Archive.fromJson_toJson hexact] at hloaded
  cases hloaded
  generalize finished.archive = saved at horder hfitness
  obtain ⟨_ | ⟨v, _ | ⟨w, _ | _⟩⟩⟩ := saved <;> simp only [List.map_cons, List.map_nil] at hfitness
  · cases hfitness
  · simp at hfitness
  · obtain ⟨hv, hw⟩ : v.fitness = some baseline ∧ w.fitness = some ⟨true, 0, 0, .infinity false, []⟩ := by
      simpa using hfitness
    have hsame := horder (w, w.reloaded) (by simp [Archive.reloaded]) (v, v.reloaded) (by simp [Archive.reloaded])
      _ _ _ _ hw (congrArg (Option.map Fitness.reloaded) hw) hv (congrArg (Option.map Fitness.reloaded) hv) trivial
    revert hsame
    decide +kernel
  · simp at hfitness

end InfiniteRun

end Ccos
