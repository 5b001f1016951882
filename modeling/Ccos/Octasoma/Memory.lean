import Ccos.Scalar
import Mathlib

/-!
# Points and cubes

The eight octants of a cube, and how near a point of it can be.
-/

namespace Ccos.Octasoma

/-- What the octree asks of `f32` besides arithmetic. -/
class Single (F : Type) extends Scalar F, Neg F where
  isFinite : F → Bool
  totalCmp : F → F → Ordering

instance : Single ℚ where
  isFinite _ := true
  totalCmp := compare

/-- `[f32; 3]`. -/
abbrev Point (F : Type) := Fin 3 → F

section

variable {F : Type} [Single F]

open Scalar

def dist2 (a b : Point F) : F :=
  let dx := a 0 - b 0
  let dy := a 1 - b 1
  let dz := a 2 - b 2
  dx * dx + dy * dy + dz * dz

/-- The squared distance from `p` to the nearest point of the cube. -/
def cubeMinDist2 (p center : Point F) (half : F) : F :=
  (List.finRange 3).foldl (fun d2 a =>
    let excess := abs (p a - center a) - half
    if gt excess (lit 0) then d2 + excess * excess else d2) (lit 0)

/-- The bit of an axis in an octant index. -/
def axisBit : Fin 3 → Fin 8
  | 0 => 1
  | 1 => 2
  | 2 => 4

def octantIndex (center point : Point F) : Fin 8 :=
  (if ge (point 0) (center 0) then axisBit 0 else 0) |||
    (if ge (point 1) (center 1) then axisBit 1 else 0) |||
    (if ge (point 2) (center 2) then axisBit 2 else 0)

def childCenter (parentCenter : Point F) (parentHalf : F) (octant : Fin 8) : Point F :=
  let q := parentHalf * lit (1 / 2)
  fun a => parentCenter a + if octant &&& axisBit a ≠ 0 then q else -q

def origin : Point F := fun _ => lit 0

end

/-! ## Exact geometry -/

def InCube (p center : Point ℚ) (half : ℚ) : Prop := ∀ a, |p a - center a| ≤ half

theorem bit_octantIndex (center point : Point ℚ) (a : Fin 3) :
    octantIndex center point &&& axisBit a ≠ 0 ↔ center a ≤ point a := by
  have hbits : ∀ (x y z : Bool) (a : Fin 3),
      (((if x then axisBit 0 else 0) ||| (if y then axisBit 1 else 0) ||| (if z then axisBit 2 else 0)) &&& axisBit a ≠ 0) ↔
        ![x, y, z] a = true := by decide
  unfold octantIndex
  rw [hbits]
  fin_cases a
  all_goals simp [ge_rat]

/-- A point of a cube lies in the octant that its index names. -/
theorem inCube_child {p center : Point ℚ} {half : ℚ} (h : InCube p center half) :
    InCube p (childCenter center half (octantIndex center p)) (half * (1 / 2)) := by
  intro a
  have hbounds := abs_le.mp (h a)
  have hbit := bit_octantIndex center p a
  show |p a - (center a + if octantIndex center p &&& axisBit a ≠ 0 then half * (1 / 2) else -(half * (1 / 2)))| ≤ _
  rw [abs_le]
  split
  · rename_i hset
    have hle := hbit.mp hset
    constructor <;> linarith
  · rename_i hset
    have hlt := not_le.mp fun hle => hset (hbit.mpr hle)
    constructor <;> linarith

/-- What an axis adds to the distance from a cube. -/
def excess2 (q center : Point ℚ) (half : ℚ) (a : Fin 3) : ℚ :=
  let excess := |q a - center a| - half
  if 0 < excess then excess * excess else 0

theorem cubeMinDist2_eq (q center : Point ℚ) (half : ℚ) :
    cubeMinDist2 q center half = excess2 q center half 0 + excess2 q center half 1 + excess2 q center half 2 := by
  have hstep : ∀ (d2 : ℚ) (a : Fin 3),
      (if Scalar.gt (Scalar.abs (q a - center a) - half) (Scalar.lit 0) then
        d2 + (Scalar.abs (q a - center a) - half) * (Scalar.abs (q a - center a) - half) else d2) =
      d2 + excess2 q center half a := by
    intro d2 a
    rw [gt_rat]
    show (if decide (0 < |q a - center a| - half) = true then
      d2 + (|q a - center a| - half) * (|q a - center a| - half) else d2) = _
    unfold excess2
    dsimp only
    by_cases hpos : 0 < |q a - center a| - half
    · rw [if_pos hpos, if_pos (decide_eq_true hpos)]
    · rw [if_neg hpos, if_neg (by rw [decide_eq_false hpos]; exact Bool.false_ne_true), add_zero]
  unfold cubeMinDist2
  simp only [hstep]
  show Scalar.lit 0 + excess2 q center half 0 + excess2 q center half 1 + excess2 q center half 2 = _
  rw [show (Scalar.lit 0 : ℚ) = 0 from rfl, zero_add]

theorem excess2_le {p q center : Point ℚ} {half : ℚ} (h : InCube p center half) (a : Fin 3) :
    excess2 q center half a ≤ (q a - p a) * (q a - p a) := by
  unfold excess2
  dsimp only
  split
  · rename_i hpos
    have htri : |q a - center a| ≤ |q a - p a| + |p a - center a| := by
      have := abs_add_le (q a - p a) (p a - center a)
      rwa [sub_add_sub_cancel] at this
    have hle : |q a - center a| - half ≤ |q a - p a| := by linarith [h a]
    calc (|q a - center a| - half) * (|q a - center a| - half)
        ≤ |q a - p a| * |q a - p a| := mul_self_le_mul_self hpos.le hle
      _ = (q a - p a) * (q a - p a) := abs_mul_abs_self _
  · exact mul_self_nonneg _

/-- No point of a cube is nearer than the cube. -/
theorem cubeMinDist2_le {p q center : Point ℚ} {half : ℚ} (h : InCube p center half) :
    cubeMinDist2 q center half ≤ dist2 q p := by
  have h0 := excess2_le (q := q) h 0
  have h1 := excess2_le (q := q) h 1
  have h2 := excess2_le (q := q) h 2
  rw [cubeMinDist2_eq]
  show _ ≤ (q 0 - p 0) * (q 0 - p 0) + (q 1 - p 1) * (q 1 - p 1) + (q 2 - p 2) * (q 2 - p 2)
  linarith

end Ccos.Octasoma

/-!
## The octree memory

Nodes, buckets and items refer to each other by index. An index out of range panics. The loops take fuel,
and a run that gives out an id that does not fit `u32` stops there.
-/

namespace Ccos.Octasoma

abbrev NodeId := Nat
abbrev ItemId := Nat

/-- `NONE`: an absent child, and the bucket of an internal node. -/
def noId : Nat := 2 ^ 32 - 1

/-- Why a call does not return. -/
inductive Stop
  | outOfFuel
  | panic
  | idsExhausted
  deriving DecidableEq

/-- `xs[i]` -/
def index {α : Type} (xs : List α) (i : Nat) : Except Stop α :=
  match xs[i]? with
  | some x => .ok x
  | none => .error .panic

/-- The id of a node or bucket that is about to be added. -/
def freshId (len : Nat) : Except Stop Nat := if len < noId then .ok len else .error .idsExhausted

/-- The id of an item that is about to be added. -/
def freshItemId (len : Nat) : Except Stop ItemId := if len < 2 ^ 32 then .ok len else .error .idsExhausted

structure OctreeNode (F : Type) where
  center : Point F
  halfSize : F
  children : Fin 8 → NodeId
  bucketId : Nat

namespace OctreeNode

variable {F : Type}

def leaf (center : Point F) (halfSize : F) (bucketId : Nat) : OctreeNode F :=
  ⟨center, halfSize, fun _ => noId, bucketId⟩

def isLeaf (node : OctreeNode F) : Bool := decide (node.bucketId ≠ noId)

end OctreeNode

structure Item (F : Type) where
  point : Point F
  payloadOffset : Nat
  payloadLen : Nat

structure FractalMemory3D (F : Type) where
  nodes : List (OctreeNode F)
  leafBuckets : List (List ItemId)
  items : List (Item F)
  projectionMatrix : List F
  highDim : Nat
  payloadArena : List UInt8
  worldHalfSize : F
  bucketCapacity : Nat
  minHalfSize : F

/-! ## Bounded k-NN result set -/

structure KnnSet (F : Type) where
  k : Nat
  best : List (ItemId × F)

namespace KnnSet

variable {F : Type} [Single F]

open Scalar

/-- `Vec::with_capacity` panics when the bytes exceed `isize::MAX`: an entry has eight. -/
def new (k : Nat) : Except Stop (KnnSet F) :=
  let k := Nat.max k 1
  if 8 * k < 2 ^ 63 then .ok ⟨k, []⟩ else .error .panic

def isFull (s : KnnSet F) : Bool := decide (s.k ≤ s.best.length)

/-- `f32::max` from `NEG_INFINITY`, which is `none`. -/
def maxFrom (m : Option F) (d : F) : Option F :=
  match m with
  | none => if isNan d then none else some d
  | some m => some (Scalar.max m d)

/-- The largest distance of a full set. -/
def worst (s : KnnSet F) : Option F := s.best.foldl (fun m entry => maxFrom m entry.2) none

/-- `d > v`, where no `v` is `NEG_INFINITY`. -/
def above (d : F) : Option F → Bool
  | none => !isNan d
  | some v => gt d v

/-- `lower_bound >= worst`, likewise. -/
def atLeast (d : F) : Option F → Bool
  | none => !isNan d
  | some v => ge d v

/-- The place and the distance of the current maximum. -/
def farthest (best : List (ItemId × F)) : Nat × Option F :=
  best.zipIdx.foldl (fun far entry =>
    if above entry.1.2 far.2 then (entry.2, some entry.1.2) else far) (0, none)

def offer (s : KnnSet F) (item : ItemId) (d2 : F) : KnnSet F :=
  if s.best.length < s.k then { s with best := s.best ++ [(item, d2)] }
  else
    let (maxI, maxV) := farthest s.best
    if maxV.any fun v => lt d2 v then { s with best := s.best.set maxI (item, d2) } else s

def intoSorted (s : KnnSet F) : List (ItemId × F) :=
  sortBy (fun a b => Single.totalCmp a.2 b.2) s.best

end KnnSet

namespace FractalMemory3D

variable {F : Type} [Single F]

open Scalar

/-! ## Construction -/

def resetRoot (m : FractalMemory3D F) : FractalMemory3D F :=
  { m with nodes := [OctreeNode.leaf origin m.worldHalfSize 0], leafBuckets := [[]] }

def newEmpty (highDim : Nat) (projectionMatrix : List F) (bucketCapacity : Nat) (minHalfSize : F) :
    FractalMemory3D F :=
  let m : FractalMemory3D F :=
    { nodes := [], leafBuckets := [], items := [], projectionMatrix, highDim, payloadArena := [],
      worldHalfSize := lit 1, bucketCapacity, minHalfSize }
  m.resetRoot

/-! ## Insertion -/

def addLeaf (m : FractalMemory3D F) (center : Point F) (half : F) (bucketId : Nat) : FractalMemory3D F :=
  { m with
    leafBuckets := m.leafBuckets ++ [[]]
    nodes := m.nodes ++ [OctreeNode.leaf center half bucketId] }

/-- Allocates a fresh empty leaf. -/
def newLeaf (m : FractalMemory3D F) (center : Point F) (half : F) : Except Stop (NodeId × FractalMemory3D F) := do
  let bucketId ← freshId m.leafBuckets.length
  let id ← freshId m.nodes.length
  return (id, m.addLeaf center half bucketId)

def setChild (m : FractalMemory3D F) (n : NodeId) (octant : Fin 8) (child : NodeId) : FractalMemory3D F :=
  { m with nodes := m.nodes.modify n fun node =>
      { node with children := Function.update node.children octant child } }

def pushItem (m : FractalMemory3D F) (bucketId : Nat) (item : ItemId) : FractalMemory3D F :=
  { m with leafBuckets := m.leafBuckets.modify bucketId fun bucket => bucket ++ [item] }

/-- The child of an octant, created when it is absent. -/
def lazyChild (m : FractalMemory3D F) (n : NodeId) (octant : Fin 8) : Except Stop (NodeId × FractalMemory3D F) := do
  let node ← index m.nodes n
  if node.children octant = noId then
    let (child, m) ← m.newLeaf (childCenter node.center node.halfSize octant) (node.halfSize * lit (1 / 2))
    return (child, m.setChild n octant child)
  else
    return (node.children octant, m)

/-- One item of a leaf that is being subdivided. -/
def moveItem (n : NodeId) (center : Point F) (m : FractalMemory3D F) (item : ItemId) :
    Except Stop (FractalMemory3D F) := do
  let stored ← index m.items item
  let (child, m) ← m.lazyChild n (octantIndex center stored.point)
  let childNode ← index m.nodes child
  let _ ← index m.leafBuckets childNode.bucketId
  return m.pushItem childNode.bucketId item

def subdivide (m : FractalMemory3D F) (n : NodeId) : Except Stop (FractalMemory3D F) := do
  let node ← index m.nodes n
  let moved ← index m.leafBuckets node.bucketId
  let m := { m with
    leafBuckets := m.leafBuckets.set node.bucketId []
    nodes := m.nodes.set n { node with bucketId := noId } }
  moved.foldlM (moveItem n node.center) m

/-- The loop of `route`, at node `cur`. -/
def routeFrom (item : ItemId) (point : Point F) :
    Nat → FractalMemory3D F → NodeId → Except Stop (FractalMemory3D F)
  | 0, _, _ => .error .outOfFuel
  | fuel + 1, m, cur => do
    let node ← index m.nodes cur
    if node.bucketId = noId then
      let (child, m) ← m.lazyChild cur (octantIndex node.center point)
      routeFrom item point fuel m child
    else
      let bucket ← index m.leafBuckets node.bucketId
      if bucket.length < m.bucketCapacity || ge m.minHalfSize node.halfSize then
        return m.pushItem node.bucketId item
      else
        let m ← m.subdivide cur
        routeFrom item point fuel m cur

def route (fuel : Nat) (m : FractalMemory3D F) (item : ItemId) : Except Stop (FractalMemory3D F) := do
  let stored ← index m.items item
  routeFrom item stored.point fuel m 0

/-- Doubles the half-edge of the world until it covers the coordinate. -/
def growWorld (maxCoord : F) : Nat → F → Except Stop F
  | 0, _ => .error .outOfFuel
  | fuel + 1, half => if lt half maxCoord then growWorld maxCoord fuel (half * lit 2) else .ok half

def growTo (fuel : Nat) (m : FractalMemory3D F) (maxCoord : F) : Except Stop (FractalMemory3D F) := do
  let half ← growWorld maxCoord fuel m.worldHalfSize
  let m := { m with worldHalfSize := half }.resetRoot
  let _ ← freshItemId m.items.length
  (List.range m.items.length).foldlM (route fuel) m

def maxCoord (point : Point F) : F := Scalar.max (Scalar.max (abs (point 0)) (abs (point 1))) (abs (point 2))

/-- Grows the world to contain the point if necessary. -/
def growFor (fuel : Nat) (m : FractalMemory3D F) (point : Point F) : Except Stop (FractalMemory3D F) :=
  if gt (maxCoord point) m.worldHalfSize then m.growTo fuel (maxCoord point) else .ok m

/-- The memory with one more stored item, not routed yet. -/
def stage (m : FractalMemory3D F) (point : Point F) (payload : Option (List UInt8)) : FractalMemory3D F :=
  { m with
    items := m.items ++ [⟨point, m.payloadArena.length, (payload.map List.length).getD 0⟩]
    payloadArena := m.payloadArena ++ payload.getD [] }

/-- An insert, for any projection of the embeddings. -/
def insertWith {E : Type} (project : E → Option (Point F)) (fuel : Nat) (m : FractalMemory3D F) (embedding : E)
    (payload : Option (List UInt8)) : Except Stop (Option ItemId × FractalMemory3D F) :=
  match project embedding with
  | none => return (none, m)
  | some point =>
    if !(List.finRange 3).all fun a => Single.isFinite (point a) then return (none, m)
    else do
      let m ← m.growFor fuel point
      let item ← freshItemId m.items.length
      let m ← (m.stage point payload).route fuel item
      return (some item, m)

/-! ## Retrieval -/

/-- The children that are there, nearest cube first. -/
def childOrder (m : FractalMemory3D F) (point : Point F) (node : OctreeNode F) : Except Stop (List (F × NodeId)) := do
  let present := (List.finRange 8).filterMap fun o => if node.children o = noId then none else some (node.children o)
  let bounds ← present.mapM fun child => do
    let c ← index m.nodes child
    return (cubeMinDist2 point c.center c.halfSize, child)
  return sortBy (fun a b => Single.totalCmp a.1 b.1) bounds

def offerItem (m : FractalMemory3D F) (point : Point F) (heap : KnnSet F) (item : ItemId) : Except Stop (KnnSet F) := do
  let stored ← index m.items item
  return heap.offer item (dist2 point stored.point)

/-- Nothing in a cube this far can beat the current results. -/
def prunes (heap : KnnSet F) (lowerBound : F) : Bool := heap.isFull && KnnSet.atLeast lowerBound heap.worst

def nnDescend (m : FractalMemory3D F) (point : Point F) : Nat → NodeId → KnnSet F → Except Stop (KnnSet F)
  | 0, _, _ => .error .outOfFuel
  | fuel + 1, n, heap => do
    let node ← index m.nodes n
    if node.isLeaf then
      let bucket ← index m.leafBuckets node.bucketId
      bucket.foldlM (m.offerItem point) heap
    else
      let order ← m.childOrder point node
      order.foldlM (fun heap entry =>
        if prunes heap entry.1 then pure heap else nnDescend m point fuel entry.2 heap) heap

def nearest (fuel : Nat) (m : FractalMemory3D F) (point : Point F) (k : Nat) : Except Stop (List (ItemId × F)) :=
  if k = 0 ∨ m.items = [] ∨ ¬ (List.finRange 3).all (fun a => Single.isFinite (point a)) = true then return []
  else do
    let heap ← KnnSet.new k
    let heap ← m.nnDescend point fuel 0 heap
    return heap.intoSorted

def nearestBruteforce (m : FractalMemory3D F) (point : Point F) (k : Nat) : Except Stop (List (ItemId × F)) :=
  if k = 0 then return []
  else do
    let heap ← KnnSet.new k
    let heap ← (List.range m.items.length).foldlM (m.offerItem point) heap
    return heap.intoSorted

def getPayload (m : FractalMemory3D F) (item : ItemId) : Option (List UInt8) :=
  match m.items[item]? with
  | none => none
  | some item =>
    let stop := item.payloadOffset + item.payloadLen
    if stop < 2 ^ 64 ∧ stop ≤ m.payloadArena.length then
      some ((m.payloadArena.drop item.payloadOffset).take item.payloadLen)
    else none

end FractalMemory3D

end Ccos.Octasoma
