import Ccos.Octasoma.Memory

/-!
# Sketches

An index keeps a binary sketch of every item beside its embedding: the nearest sketches make a shortlist, and the
embeddings rank it.
-/

namespace Ccos.Octasoma

open Scalar

/-- What the embeddings ask of `f32` besides what the octree does. -/
class Quantized (F : Type) extends Single F where
  round : F → F
  /-- `as i8` of a whole number in its range. -/
  toInt : F → Int

instance : Quantized ℚ where
  round q := if 0 ≤ q then (⌊q + 1 / 2⌋ : ℚ) else -(⌊1 / 2 - q⌋ : ℚ)
  toInt q := q.floor

/-- Row `i` of a flat table. -/
def row {α : Type} (table : List α) (width i : Nat) : List α := (table.drop (i * width)).take width

section

variable {F : Type} [Quantized F]

def dot (a b : List F) : F := (a.zip b).foldl (fun s p => s + p.1 * p.2) (lit 0)

/-- The integer dot; the codes are within ±127. -/
def idot (a b : List Int) : Int := (a.zip b).foldl (fun s p => s + p.1 * p.2) 0

def l2Normalize (v : List F) : List F :=
  let n := v.foldl (fun n x => n + x * x) (lit 0)
  if gt n (lit 0) then
    let inv := lit 1 / sqrt n
    v.map fun x => x * inv
  else v

def clamp (x low high : F) : F :=
  let x := if lt x low then low else x
  if gt x high then high else x

def quantizeI8 (v : List F) : List Int × F :=
  let absmax := v.foldl (fun m x => Scalar.max m (Scalar.abs x)) (lit 0)
  if ge (lit 0) absmax then (v.map fun _ => 0, lit 0)
  else
    let scale := absmax / lit 127
    (v.map fun x => Quantized.toInt (clamp (Quantized.round (x / scale)) (lit (-127)) (lit 127)), scale)

def nf4Levels : List ℚ :=
  [-1, -0.6961928, -0.52507305, -0.3949175, -0.28444138, -0.18477343, -0.091050036, 0, 0.0795803, 0.1609302, 0.2461123,
    0.33791524, 0.44070983, 0.562617, 0.72295684, 1]

def level (code : Nat) : F := lit (nf4Levels.getD code 0)

/-- The first of the nearest levels. -/
def nearestLevel (val : F) : Nat :=
  ((List.range 16).tail.foldl (fun best k =>
    let d := Scalar.abs (val - level k)
    if lt d best.2 then (k, d) else best) (0, Scalar.abs (val - level 0))).1

/-- Two codes per byte, low nibble first; the scale makes the levels a unit vector. -/
def quantizeNf4 (v : List F) : List UInt8 × F :=
  let absmax := (v.map Scalar.abs).foldl Scalar.max (lit 0)
  let inv := if gt absmax (lit (1 / 10 ^ 12)) then lit 1 / absmax else lit 0
  let best := v.map fun x => nearestLevel (x * inv)
  let packed := best.zipIdx.foldl (fun packed b =>
    packed.modify (b.2 / 2) fun byte => byte ||| b.1.toUInt8 <<< (b.2 % 2 * 4).toUInt8)
    (List.replicate ((v.length + 1) / 2) 0)
  let levelNorm2 := best.foldl (fun n b => n + level b * level b) (lit 0)
  (packed, if gt levelNorm2 (lit 0) then lit 1 / sqrt levelNorm2 else lit 0)

end

/-! ## Sketching -/

/-- Row `i` of `planes` is the normal of hyperplane `i`; the rows are drawn from a seeded generator. -/
structure SimHasher (F : Type) where
  planes : List F
  dim : Nat
  bits : Nat

def countOnes (x : UInt64) : Nat := (List.range 64).countP fun i => x.toBitVec.getLsbD i

def hamming (a b : List UInt64) : Nat := ((a.zip b).map fun p => countOnes (p.1 ^^^ p.2)).sum

namespace SimHasher

variable {F : Type} [Quantized F] (h : SimHasher F)

def words : Nat := h.bits / 64

/-- A bit is set when the embedding is on the positive side of its hyperplane. -/
def sketch (embedding : List F) : List UInt64 :=
  if embedding.length ≠ h.dim then []
  else (List.range h.bits).foldl (fun out b =>
    if ge (dot (row h.planes h.dim b) embedding) (lit 0) then
      out.modify (b / 64) fun word => word ||| (1 : UInt64) <<< (b % 64).toUInt64
    else out) (List.replicate h.words 0)

end SimHasher

/-! ## The index -/

/-- The embeddings in one precision: flat rows, and for the codes the scale of each item. -/
inductive EmbeddingStore (F : Type) where
  | f32 (rows : List F)
  | int8 (codes : List Int) (scales : List F)
  | nf4 (codes : List UInt8) (scales : List F)

structure SketchIndex (F : Type) where
  hasher : SimHasher F
  dim : Nat
  store : EmbeddingStore F
  sketches : List UInt64
  payloads : List UInt8
  offsets : List (Nat × Nat)

namespace SketchIndex

variable {F : Type} [Quantized F] (x : SketchIndex F)

def len : Nat := x.offsets.length

def stored (normalized : List F) : EmbeddingStore F → EmbeddingStore F
  | .f32 rows => .f32 (rows ++ normalized)
  | .int8 codes scales => .int8 (codes ++ (quantizeI8 normalized).1) (scales ++ [(quantizeI8 normalized).2])
  | .nf4 codes scales => .nf4 (codes ++ (quantizeNf4 normalized).1) (scales ++ [(quantizeNf4 normalized).2])

/-- The raw embedding is sketched, the normalized one stored; an embedding of another length is refused. -/
def insert (embedding : List F) (payload : List UInt8) : SketchIndex F × Bool :=
  if embedding.length ≠ x.dim then (x, false)
  else ({ x with
    store := stored (l2Normalize embedding) x.store
    sketches := x.sketches ++ x.hasher.sketch embedding
    payloads := x.payloads ++ payload
    offsets := x.offsets ++ [(x.payloads.length, payload.length)] }, true)

def sketchOf (i : Nat) : List UInt64 := row x.sketches x.hasher.words i

/-- `prepare_query` and `score`: the query takes the form that the store scores against, once for all items. -/
def score (query : List F) : Nat → F :=
  let qn := l2Normalize query
  match x.store with
  | .f32 rows => fun i => dot (row rows x.dim i) qn
  | .int8 codes scales =>
    let q := quantizeI8 qn
    fun i => scales.getD i (lit 0) * q.2 * lit (idot (row codes x.dim i) q.1)
  | .nf4 codes scales => fun i =>
    let bytes := row codes ((x.dim + 1) / 2) i
    let sum := (qn.take x.dim).zipIdx.foldl (fun sum q =>
      let code := bytes.getD (q.2 / 2) 0 >>> (q.2 % 2 * 4).toUInt8 &&& 0x0F
      sum + level code.toNat * q.1) (lit 0)
    scales.getD i (lit 0) * sum

/-- Greater scores first. -/
def byScore (a b : F × Nat) : Ordering := Single.totalCmp b.1 a.1

/-- Greater scores first, then smaller ids. -/
def byScoreThenId (a b : F × Nat) : Ordering := (Single.totalCmp b.1 a.1).then (compare a.2 b.2)

/-- `select cand i` is what `select_nth_unstable_by_key(i, |(h, _)| *h)` leaves of `cand`. -/
abbrev Select := List (Nat × Nat) → Nat → List (Nat × Nat)

/-- The shortlist of `m` items: all of them, in id order, when there are no more. -/
def shortlisted (select : Select) (query : List F) (m : Nat) : List (Nat × Nat) :=
  let qs := x.hasher.sketch query
  let cand := (List.range x.len).map fun i => (hamming qs (x.sketchOf i), i)
  if m < cand.length then (select cand (m - 1)).take m else cand

def nearestIds (select : Select) (query : List F) (k shortlist : Nat) : List (Nat × F) :=
  if query.length ≠ x.dim ∨ k = 0 ∨ x.len = 0 then []
  else
    let m := min (max shortlist k) x.len
    let scored := (x.shortlisted select query m).map fun c => (x.score query c.2, c.2)
    ((sortBy byScore scored).take k).map fun s => (s.2, s.1)

def payload (i : Nat) : List UInt8 :=
  let o := x.offsets.getD i (0, 0)
  (x.payloads.drop o.1).take o.2

def nearest (select : Select) (query : List F) (k shortlist : Nat) : List (List UInt8 × F) :=
  (x.nearestIds select query k shortlist).map fun s => (x.payload s.1, s.2)

def exactTopIds (query : List F) (k : Nat) : List Nat :=
  let scored := (List.range x.len).map fun i => (x.score query i, i)
  ((sortBy byScoreThenId scored).take (min k x.len)).map fun s => s.2

end SketchIndex

/-! ## Certificates -/

/-- What the bound asks of `f64`. -/
class Bounded (D : Type) extends Scalar D where
  infinity : D

section

variable {D : Type}

/-- `none` is the panic for a `delta` outside the unit interval. -/
def hoeffdingUcb [Bounded D] (mean : D) (n : Nat) (delta : D) : Option D :=
  if gt delta (lit 0) && lt delta (lit 1) then
    some (if n = 0 then Bounded.infinity else mean + sqrt (ln (lit 1 / delta) / (lit 2 * ofNat n)))
  else none

/-- The scan from the last risk, with the candidate so far, stops at the first bound that is over `alpha`. -/
def rcpsScan [Bounded D] (n : Nat) (alpha delta : D) : List (D × Nat) → Option Nat → Option (Option Nat)
  | [], hat => some hat
  | risk :: earlier, hat => do
    let ucb ← hoeffdingUcb risk.1 n delta
    if ge alpha ucb then rcpsScan n alpha delta earlier (some risk.2) else some hat

def rcpsSelect [Bounded D] (risks : List D) (n : Nat) (alpha delta : D) : Option (Option Nat) :=
  rcpsScan n alpha delta risks.zipIdx.reverse none

/-- The sizes that double from `m` while they are below the corpus; a doubling that saturates is not. -/
def doublings (len m : Nat) : List Nat :=
  if h : 0 < m ∧ m < len then m :: doublings len (m * 2) else []
termination_by len - m
decreasing_by omega

def grid (k len : Nat) : List Nat := doublings len (max k 1) ++ [len]

structure ShortlistCertificate (D : Type) where
  shortlist : Nat
  k : Nat
  alpha : D
  delta : D
  calibrationN : Nat
  empiricalRisk : D
  riskUcb : D
  grid : List Nat

namespace SketchIndex

variable {F : Type} [Quantized F] (x : SketchIndex F)

def valid (queries : List (List F)) : List (List F) := queries.filter fun q => decide (q.length = x.dim)

/-- The exact best that a shortlist misses, in proportion. -/
def loss [Scalar D] (select : Select) (k m : Nat) (query : List F) : D :=
  let oracle := x.exactTopIds query k
  let got := x.nearestIds select query k m
  let hits := (oracle.filter fun t => got.any fun s => s.1 == t).length
  lit 1 - ofNat hits / ofNat oracle.length

def risks [Scalar D] (select : Select) (queries : List (List F)) (k : Nat) : List D :=
  (grid k x.len).map fun m =>
    ((x.valid queries).map fun q => x.loss select k m q).foldl (· + ·) (lit 0) / ofNat (x.valid queries).length

/-- `none` is the panic of the bound. -/
def certifyShortlist [Bounded D] (select : Select) (queries : List (List F)) (k : Nat) (alpha delta : D) :
    Option (Option (ShortlistCertificate D)) :=
  let n := (x.valid queries).length
  if k = 0 ∨ x.len = 0 ∨ n = 0 then some none
  else do
    let risks : List D := x.risks select queries k
    match ← rcpsSelect risks n alpha delta with
    | none => some none
    | some chosen => do
      let empiricalRisk := risks.getD chosen (lit 0)
      let riskUcb ← hoeffdingUcb empiricalRisk n delta
      some (some ⟨(grid k x.len).getD chosen 0, k, alpha, delta, n, empiricalRisk, riskUcb, grid k x.len⟩)

end SketchIndex

end

end Ccos.Octasoma
