import Ccos.Log.EventLog
import Ccos.Lib.ByteCodec
import Ccos.Forge.Pareto

/-!
# Patches of a source tree

An exact replacement in one file, on a throw-away copy or on the live tree, with a backup of what was there.
-/

open ByteCodec

namespace Ccos

inductive DgmError
  | io (message : Str)
  | pathNotAllowed (path : Str)
  | apply (message : Str)
  | evaluation (message : Str)
  | proposer (message : Str)
  deriving DecidableEq, Repr

/-- `Display` of an error. -/
def DgmError.display : DgmError → Str
  | .io e => "io error: ".toList ++ e
  | .pathNotAllowed p => "patch target ".toList ++ p ++ " is outside the allowed paths".toList
  | .apply e => "could not apply patch: ".toList ++ e
  | .evaluation e => "evaluation failed: ".toList ++ e
  | .proposer e => "proposer failed: ".toList ++ e

structure Patch where
  target : Str
  find : Str
  replace : Str
  deriving DecidableEq, Repr

def Patch.isNoop (patch : Patch) : Bool := patch.find = patch.replace

/-! ## Trees -/

/-- The components of a path below the root. -/
abbrev Path := List Str

/-- The regular files under a root. -/
abbrev Tree := Path → Option Bytes

def Tree.write (tree : Tree) (path : Path) (content : Bytes) : Tree :=
  fun p => if p = path then some content else tree p

theorem Tree.write_self (tree : Tree) (path : Path) (content : Bytes) : tree.write path content path = some content :=
  if_pos rfl

theorem Tree.write_other (tree : Tree) {path p : Path} (content : Bytes) (h : p ≠ path) :
    tree.write path content p = tree p := if_neg h

def skipDirs : List Str := ["target".toList, ".git".toList, "node_modules".toList]

/-- A file below a directory that copies leave out. -/
def skipped (path : Path) : Bool := path.dropLast.any (skipDirs.contains ·)

def copyTree (tree : Tree) : Tree := fun p => if skipped p then none else tree p

/-- `validate_relative_target`: the components, when all of them are names. A target that ends in a slash
or a dot names a directory. -/
def relativeTarget (target : Str) : Option Path :=
  let parts := split ['/'] target
  if parts.head? = some [] ∨ parts.head? = some ['.'] ∨ parts.contains ['.', '.'] then none
  else some (parts.filter fun part => part ≠ [] ∧ part ≠ ['.'])

def namesDirectory (target : Str) : Bool :=
  (split ['/'] target).getLast? = some [] || (split ['/'] target).getLast? = some ['.']

/-- `std::fs::read` of a target. -/
def readTarget (tree : Tree) (target : Str) (path : Path) : Option Bytes :=
  if namesDirectory target then none else tree path

def validateRelativeTarget (target : Str) : Except DgmError Path :=
  match relativeTarget target with
  | some path => .ok path
  | none => .error (.pathNotAllowed target)

/-! ## The place of a patch -/

/-- `str::matches(find).count()`. -/
def countMatches (find content : Str) : Nat :=
  if find = [] then content.length + 1 else (split find content).length - 1

/-- The loop of `line_spans`, in characters. -/
def lineSpansFrom (start i : Nat) : Str → List (Nat × Nat)
  | [] => if start < i then [(start, i)] else []
  | c :: rest =>
    if c = '\n' then (start, i) :: lineSpansFrom (i + 1) (i + 1) rest else lineSpansFrom start (i + 1) rest

def lineSpans (s : Str) : List (Nat × Nat) :=
  let spans := lineSpansFrom 0 0 s
  if spans = [] then [(0, s.length)] else spans

def span (content : Str) (start stop : Nat) : Str := (content.take stop).drop start

/-- The lines of the pattern without the blanks around them and without blank lines at both ends. -/
def needleLines (find : Str) : List Str :=
  ((((lines find).map trim).dropWhile (· = [])).reverse.dropWhile (· = [])).reverse

/-- The lines at which the needle stands. -/
def fuzzyHits (content : Str) (spans : List (Nat × Nat)) (needle : List Str) : List Nat :=
  (List.range (spans.length - needle.length + 1)).filter fun start =>
    ((spans.drop start).take needle.length).map (fun s => trim (span content s.1 s.2)) = needle

/-- The span that the pattern stands for: the only exact match, or the only match line by line. -/
def locateMatch (content find : Str) : Except Str (Nat × Nat) :=
  match countMatches find content with
  | 1 =>
    let start := ((splitOnce find content).map (·.1.length)).getD 0
    .ok (start, start + find.length)
  | 0 =>
    let spans := lineSpans content
    let needle := needleLines find
    if needle = [] ∨ spans.length < needle.length then .error "pattern not found".toList
    else
      match fuzzyHits content spans needle with
      | [start] => .ok ((spans.getD start (0, 0)).1, (spans.getD (start + needle.length - 1) (0, 0)).2)
      | [] => .error "pattern not found".toList
      | many => .error ("pattern is not unique (".toList ++ natStr many.length ++ " fuzzy occurrences)".toList)
  | n => .error ("pattern is not unique (".toList ++ natStr n ++ " occurrences)".toList)

def replaceSpan (content : Str) (place : Nat × Nat) (replace : Str) : Str :=
  content.take place.1 ++ replace ++ content.drop place.2

/-! ## Application -/

/-- `sha256_hex(material)[..16]`: the digits of the first eight bytes. -/
def shortHash (digest : Bytes → Bytes) (material : Str) : Str := lowerHex (digest (utf8 material))

/-- Backups go below the root or somewhere else. -/
inductive BackupDir
  | inside (path : Path)
  | outside
  deriving DecidableEq, Repr

def BackupDir.save (dir : BackupDir) (tree : Tree) (id : Str) (content : Bytes) : Tree :=
  match dir with
  | .inside path => tree.write (path ++ [id ++ ".bak".toList]) content
  | .outside => tree

def defaultBackups : BackupDir := .inside [".rsi_backups".toList]

section Apply

variable (digest : Bytes → Bytes)

/-- The backup id and the tree, under a root of the given name. -/
def patchFileWithBackup (root : Str) (tree : Tree) (path : Path) (patch : Patch) (backups : BackupDir) :
    Except DgmError (Str × Tree) :=
  let shown := root ++ '/' :: patch.target
  match readTarget tree patch.target path with
  | none => .error (.apply ("read ".toList ++ shown ++ ": No such file or directory (os error 2)".toList))
  | some bytes =>
    match decodeUtf8 bytes with
    | none => .error (.apply ("read ".toList ++ shown ++ ": stream did not contain valid UTF-8".toList))
    | some content =>
      match locateMatch content patch.find with
      | .error message => .error (.apply (message ++ " in ".toList ++ shown))
      | .ok place =>
        let id := shortHash digest (shown ++ '|' :: content)
        .ok (id, (backups.save tree id bytes).write path (utf8 (replaceSpan content place patch.replace)))

/-- `WorkspaceSnapshot::apply`. -/
def applyToSnapshot (root : Str) (tree : Tree) (patch : Patch) : Except DgmError Tree := do
  if patch.isNoop then .error (.apply "patch is a no-op".toList)
  else
    let path ← validateRelativeTarget patch.target
    let (_, patched) ← patchFileWithBackup digest root tree path patch defaultBackups
    return patched

def promoteToLive (root : Str) (live : Tree) (patch : Patch) (backups : BackupDir) :
    Except DgmError (Str × Tree) := do
  if patch.isNoop then .error (.apply "patch is a no-op".toList)
  else
    let path ← validateRelativeTarget patch.target
    if readTarget live patch.target path = none then
      .error (.apply "inspect patch target: No such file or directory (os error 2)".toList)
    else patchFileWithBackup digest root live path patch backups

end Apply

end Ccos

/-!
## Fitness and the archive of variants

Variants are compared by what was measured of them, and any of them can be branched from.
-/

open ByteCodec

namespace Ccos

structure Fitness (F : Type) where
  compiles : Bool
  testsPassed : UInt32
  testsFailed : UInt32
  score : F
  notes : Str
  deriving DecidableEq, Repr

namespace Fitness

section

variable {F : Type} [InfFloat64 F]

def broken (notes : Str) : Fitness F := ⟨false, 0, 0, -InfFloat64.infinity, notes⟩

end

section

variable {F : Type} [Float64 F]

def allGreen (f : Fitness F) : Bool := f.compiles && f.testsFailed = 0

/-- Compiling first, then fewer failed tests, then more passed tests, then the score. -/
def isBetterThan (f other : Fitness F) : Bool :=
  match compare f.compiles other.compiles,
    compare (-(f.testsFailed.toNat : Int)) (-(other.testsFailed.toNat : Int)),
    compare (f.testsPassed.toNat : Int) (other.testsPassed.toNat : Int) with
  | .gt, _, _ => true
  | .lt, _, _ => false
  | _, .gt, _ => true
  | _, .lt, _ => false
  | _, _, .gt => true
  | _, _, .lt => false
  | _, _, _ => Scalar.partialCmp f.score other.score == some .gt

/-- A gain of the score alone has to be large enough. -/
def meetsMinGain (cand parent : Fitness F) (minGain : F) : Bool :=
  if Scalar.ge (Scalar.lit 0) minGain then true
  else if cand.compiles ≠ parent.compiles ∨ cand.testsFailed ≠ parent.testsFailed
      ∨ cand.testsPassed ≠ parent.testsPassed then true
  else
    let base := Scalar.max (Scalar.abs parent.score) (Scalar.lit (1 / 1000000000000))
    Scalar.ge cand.score (parent.score + base * minGain)

end

end Fitness

/-! ## The generator of random numbers -/

/-- `xoshiro256**`. -/
structure Rng where
  s0 : UInt64
  s1 : UInt64
  s2 : UInt64
  s3 : UInt64
  deriving DecidableEq, Repr

def rotateLeft (x k : UInt64) : UInt64 := (x <<< k) ||| (x >>> (64 - k))

namespace Rng

/-- One step of `splitmix64`: the mixed value, and the state. -/
def splitmix (sm : UInt64) : UInt64 × UInt64 :=
  let sm := sm + 0x9e3779b97f4a7c15
  let z := (sm ^^^ (sm >>> 30)) * 0xbf58476d1ce4e5b9
  let z := (z ^^^ (z >>> 27)) * 0x94d049bb133111eb
  (z ^^^ (z >>> 31), sm)

def new (seed : UInt64) : Rng :=
  let a := splitmix seed
  let b := splitmix a.2
  let c := splitmix b.2
  let d := splitmix c.2
  ⟨a.1, b.1, c.1, d.1⟩

def nextU64 (r : Rng) : UInt64 × Rng :=
  let result := rotateLeft (r.s1 * 5) 7 * 9
  let t := r.s1 <<< 17
  let s2 := r.s2 ^^^ r.s0
  let s3 := r.s3 ^^^ r.s1
  let s1 := r.s1 ^^^ s2
  let s0 := r.s0 ^^^ s3
  (result, ⟨s0, s1, s2 ^^^ t, rotateLeft s3 45⟩)

/-- A number of `[0, 1)`. -/
def uniform {F : Type} [Scalar F] (r : Rng) : F × Rng :=
  let next := r.nextU64
  (Scalar.ofNat (next.1 >>> 11).toNat * (Scalar.lit 1 / Scalar.lit (2 ^ 53)), next.2)

end Rng

/-! ## Variants -/

inductive VariantStatus
  | pending | accepted | rejected
  deriving DecidableEq, Repr

structure Variant (F : Type) where
  id : Str
  parent : Option Str
  generation : Nat
  seq : Nat
  patch : Patch
  rationale : Str
  status : VariantStatus
  fitness : Option (Fitness F)
  deriving DecidableEq, Repr

def variantMaterial (parent : Option Str) (generation seq : Nat) (patch : Patch) : Str :=
  parent.getD [] ++ '|' :: (natStr generation ++ '|' :: (natStr seq ++ '|' :: (patch.target ++ '|' ::
    (patch.find ++ '|' :: patch.replace))))

section Archive

variable {F : Type} (digest : Bytes → Bytes)

def variantId (parent : Option Str) (generation seq : Nat) (patch : Patch) : Str :=
  shortHash digest (variantMaterial parent generation seq patch)

def Variant.root (baseline : Fitness F) : Variant F where
  id := variantId digest none 0 0 ⟨[], [], []⟩
  parent := none
  generation := 0
  seq := 0
  patch := ⟨[], [], []⟩
  rationale := "baseline (unmodified codebase)".toList
  status := .accepted
  fitness := some baseline

def Variant.child (parent : Variant F) (patch : Patch) (rationale : Str) (seq : Nat) : Variant F where
  id := variantId digest (some parent.id) (parent.generation + 1) seq patch
  parent := some parent.id
  generation := parent.generation + 1
  seq := seq
  patch := patch
  rationale := rationale
  status := .pending
  fitness := none

structure Archive (F : Type) where
  variants : List (Variant F)

namespace Archive

def withRoot (baseline : Fitness F) : Archive F := ⟨[Variant.root digest baseline]⟩

def insert (a : Archive F) (v : Variant F) : Archive F := ⟨a.variants ++ [v]⟩

def get (a : Archive F) (id : Str) : Option (Variant F) := a.variants.find? fun v => v.id = id

section Best

variable [Float64 F]

/-- The comparison of `Archive::best`: what was measured comes above what was not. -/
def compareFitness (v w : Variant F) : Ordering :=
  match v.fitness, w.fitness with
  | some f, some g => if f.isBetterThan g then .gt else if g.isBetterThan f then .lt else .eq
  | some _, none => .gt
  | none, some _ => .lt
  | none, none => .eq

def best (a : Archive F) : Option (Variant F) := maxBy compareFitness a.variants

end Best

section Select

variable [Float64 F] (a : Archive F)

/-- What compiles and has few children so far weighs more. -/
def weight (v : Variant F) : F :=
  let children : F := Scalar.ofNat (a.variants.countP fun c => c.parent = some v.id)
  let quality : F :=
    match v.fitness with
    | some f => if f.compiles then Scalar.lit 1 else Scalar.lit (1 / 10)
    | none => Scalar.lit (1 / 10)
  let novelty := Scalar.lit 1 / (Scalar.lit 1 + children)
  quality * novelty + Scalar.lit (1 / 2 ^ 52)

/-- The loop that takes the weights off the pick. -/
def pickFrom (weight : Variant F → F) : F → List (Variant F) → Option (Variant F)
  | _, [] => none
  | pick, v :: rest =>
    let pick := pick - weight v
    if Scalar.ge (Scalar.lit 0) pick then some v else pickFrom weight pick rest

def selectParent (rng : Rng) : Option (Variant F) × Rng :=
  if a.variants = [] then (none, rng)
  else
    let total := (a.variants.map a.weight).foldl (· + ·) (Scalar.lit 0)
    let draw := rng.uniform
    ((pickFrom a.weight (draw.1 * total) a.variants).or a.variants.getLast?, draw.2)

end Select

theorem mem_pickFrom [Float64 F] {weight : Variant F → F} {variants : List (Variant F)} {pick : F} {v : Variant F}
    (h : pickFrom weight pick variants = some v) : v ∈ variants := by
  induction variants generalizing pick with
  | nil => cases h
  | cons w variants ih =>
    rw [pickFrom] at h
    split at h
    · cases h
      exact List.mem_cons_self
    · exact List.mem_cons_of_mem _ (ih h)

/-- The parent comes from the archive. -/
theorem mem_selectParent [Float64 F] {a : Archive F} {rng : Rng} {v : Variant F}
    (h : (a.selectParent rng).1 = some v) : v ∈ a.variants := by
  unfold selectParent at h
  split at h
  · cases h
  · dsimp only at h
    rcases hpick : pickFrom a.weight (rng.uniform.1 * (a.variants.map a.weight).foldl (· + ·) (Scalar.lit 0))
      a.variants with _ | w
    · rw [hpick, Option.none_or] at h
      exact List.mem_of_getLast? h
    · rw [hpick, Option.some_or] at h
      cases h
      exact mem_pickFrom hpick

end Archive

end Archive

end Ccos
