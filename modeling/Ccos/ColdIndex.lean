import Ccos.Text

/-!
# The on-disk key store

A write buffer in front of immutable sorted segments, newest first, with a bounded read cache.
All I/O succeeds here. A segment is the list of the records its file holds, and a value of type `V`
stands for its bytes.
-/

open Std

namespace Ccos

/-! ## The read cache -/

structure Lru (V : Type) where
  cap : Nat
  clock : Nat
  map : BTreeMap Str (V × Nat)

namespace Lru

variable {V : Type}

def new (cap : Nat) : Lru V := { cap, clock := 0, map := ∅ }

def get (c : Lru V) (key : Str) : Option V × Lru V :=
  let now := c.clock + 1
  (c.map[key]?.map (·.1), { c with clock := now, map := c.map.modify key fun (v, _) => (v, now) })

/-- The key with the smallest clock. -/
def victim (c : Lru V) : Option Str :=
  (c.map.toList.foldl (fun (best : Option (Str × Nat)) (kv : Str × V × Nat) =>
    match best with
    | none => some (kv.1, kv.2.2)
    | some (k, ts) => if kv.2.2 < ts then some (kv.1, kv.2.2) else some (k, ts)) none).map (·.1)

def insert (c : Lru V) (key : Str) (value : V) : Lru V :=
  if c.cap = 0 then c
  else
    let map :=
      if key ∉ c.map ∧ c.map.size ≥ c.cap then
        match c.victim with
        | some v => c.map.erase v
        | none => c.map
      else c.map
    { c with clock := c.clock + 1, map := map.insert key (value, c.clock + 1) }

def remove (c : Lru V) (key : Str) : Lru V := { c with map := c.map.erase key }

end Lru

/-! ## The store -/

/-- A flushed segment: its records in ascending key order. `none` is a tombstone. -/
abbrev Segment (V : Type) := List (Str × Option V)

def Segment.get {V : Type} (s : Segment V) (key : Str) : Option (Option V) := s.lookup key

structure HuskStore (V : Type) where
  buffer : BTreeMap Str (Option V)
  bufferLimit : Nat
  /-- Oldest first. -/
  segments : List (Segment V)
  nextSeq : Nat
  cache : Lru V

namespace HuskStore

variable {V : Type}

/-- Opening a fresh directory. -/
def new (bufferLimit cacheCap : Nat) : HuskStore V :=
  { buffer := ∅, bufferLimit := max bufferLimit 1, segments := [], nextSeq := 0,
    cache := Lru.new cacheCap }

def flush (s : HuskStore V) : HuskStore V :=
  if s.buffer.isEmpty then s
  else
    { s with segments := s.segments ++ [s.buffer.toList], nextSeq := s.nextSeq + 1, buffer := ∅ }

def maybeFlush (s : HuskStore V) : HuskStore V :=
  if s.buffer.size ≥ s.bufferLimit then s.flush else s

def put (s : HuskStore V) (key : Str) (value : V) : HuskStore V :=
  maybeFlush { s with buffer := s.buffer.insert key (some value), cache := s.cache.remove key }

def delete (s : HuskStore V) (key : Str) : HuskStore V :=
  maybeFlush { s with buffer := s.buffer.insert key none, cache := s.cache.remove key }

/-- The newest segment that holds the key decides. -/
def segmentGet (segments : List (Segment V)) (key : Str) : Option (Option V) :=
  segments.reverse.findSome? (·.get key)

/-- A read, and the store with the cache it leaves behind. -/
def get (s : HuskStore V) (key : Str) : Option V × HuskStore V :=
  match s.buffer[key]? with
  | some slot => (slot, s)
  | none =>
    match s.cache.get key with
    | (some v, cache) => (some v, { s with cache })
    | (none, cache) =>
      match segmentGet s.segments key with
      | some (some v) => (some v, { s with cache := cache.insert key v })
      | some none => (none, { s with cache })
      | none => (none, { s with cache })

/-- Every record from the oldest segment to the buffer, a later one over an earlier one. -/
def merged (s : HuskStore V) : BTreeMap Str (Option V) :=
  (s.segments.flatten ++ s.buffer.toList).foldl (fun m (kv : Str × Option V) => m.insert kv.1 kv.2) ∅

def liveEntries (s : HuskStore V) : List (Str × V) :=
  s.merged.toList.filterMap fun (k, slot) => slot.map fun v => (k, v)

/-- The live records whose key starts with a prefix, in key order. -/
def scanPrefix (s : HuskStore V) (pre : Str) : List (Str × V) := s.liveEntries.filter (startsWith pre ·.1)

/-- The values that a compaction keeps, from the oldest segment to the newest. -/
def liveValues (segments : List (Segment V)) : BTreeMap Str V :=
  segments.flatten.foldl (fun m (kv : Str × Option V) =>
    match kv.2 with
    | some v => m.insert kv.1 v
    | none => m.erase kv.1) ∅

/-- The segment of the live values; none when there are no values. -/
def mergedSegments (segments : List (Segment V)) : List (Segment V) :=
  let live := liveValues segments
  if live.isEmpty then [] else [live.toList.map fun kv => (kv.1, some kv.2)]

/-- A compaction up to the removal of `removed` old segments, the oldest first. -/
def compactUpTo (s : HuskStore V) (removed : Nat) : HuskStore V :=
  let s := s.flush
  if s.segments.length < 2 then s
  else
    let merged := mergedSegments s.segments
    { s with segments := s.segments.drop removed ++ merged, nextSeq := s.nextSeq + merged.length }

def compact (s : HuskStore V) : HuskStore V := s.compactUpTo s.flush.segments.length

/-- Opening the directory of a store again. The buffer is gone. -/
def reopen (s : HuskStore V) (bufferLimit cacheCap : Nat) : HuskStore V :=
  { buffer := ∅, bufferLimit := max bufferLimit 1, segments := s.segments,
    nextSeq := if s.segments.isEmpty then 0 else s.nextSeq, cache := Lru.new cacheCap }

/-- One sparse index entry for every 64 records. -/
def sparseLen (s : Segment V) : Nat := (s.length + 63) / 64

/-- `valueLen` is the byte length of a value. -/
def residentBytes (valueLen : V → Nat) (s : HuskStore V) : Nat :=
  (s.buffer.toList.map fun (k, slot) => byteLen k + (slot.map valueLen).getD 0).sum
    + (s.segments.map fun seg => sparseLen seg * 48).sum
    + (s.cache.map.toList.map fun (k, v, _) => byteLen k + valueLen v).sum

end HuskStore

end Ccos
