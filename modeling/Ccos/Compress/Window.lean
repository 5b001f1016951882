import Ccos.Scalar

/-!
# What the compressor reads off a text

The route of an item, and the signature that two texts are compared by.
-/

namespace Ccos

/-! ## The router -/

inductive Route
  | json
  | code
  | prose
deriving DecidableEq, Repr

namespace ContentRouter

/-- How far a scan for brackets has come. -/
structure Balance where
  depth : Int
  inStr : Bool
  esc : Bool

def balanceStep (b : Balance) (c : Char) : Balance :=
  if b.inStr then
    if b.esc then { b with esc := false }
    else if c = '\\' then { b with esc := true }
    else if c = '"' then { b with inStr := false }
    else b
  else if c = '"' then { b with inStr := true }
  else if c = '\x7b' ∨ c = '[' then { b with depth := b.depth + 1 }
  else if c = '\x7d' ∨ c = ']' then { b with depth := b.depth - 1 }
  else b

def looksLikeJson (s : Str) : Bool :=
  let t := trimStart s
  if !startsWith ['\x7b'] t && !startsWith ['['] t then false
  else ((t.take 4096).foldl balanceStep ⟨0, false, false⟩).depth = 0

/-- `str::to_lowercase`, as far as the names below can tell: no other character has a lowercase form
made of their letters. -/
def toLowercase (s : Str) : Str := s.map Char.toLower

def classify (kind content : Str) : Route :=
  let k := toLowercase kind
  if containsStr "symbol".toList k || containsStr "file".toList k || containsStr "module".toList k then
    if looksLikeJson content then .json else .code
  else if looksLikeJson content then .json
  else .prose

end ContentRouter

/-! ## Signatures -/

def numHashes : Nat := 64

def minhashPrime : UInt64 := 2147483647

def lcg (state : UInt64) : UInt64 := state * 6364136223846793005 + 1442695040888963407

/-- The coefficients of the hash functions, from a fixed seed. -/
def coefficients : Nat → UInt64 → List (UInt64 × UInt64)
  | 0, _ => []
  | n + 1, state =>
    (lcg state % (minhashPrime - 1) + 1, lcg (lcg state) % minhashPrime) :: coefficients n (lcg (lcg state))

def shinglesOf : Str → List Str
  | a :: b :: c :: rest => [a, b, c] :: shinglesOf (b :: c :: rest)
  | _ => []

/-- Three characters each; a shorter text is its own shingle. -/
def shingles (text : Str) : List Str := if text.length ≤ 3 then [text] else shinglesOf text

def fnv1a (bytes : List UInt8) : UInt64 :=
  bytes.foldl (fun h byte => (h ^^^ byte.toUInt64) * 1099511628211) 14695981039346656037

def lowerMinima (sig : List UInt32) (ab : List (UInt64 × UInt64)) (h : UInt64) : List UInt32 :=
  List.zipWith (fun s (a, b) => min ((a * h + b) % minhashPrime).toUInt32 s) sig ab

/-- A `MinHash` signature: for each hash function, its least value on the shingles. -/
def shingleSignature (text : Str) : List UInt32 :=
  let ab := coefficients numHashes 0x9E3779B97F4A7C15
  (shingles text).foldl (fun sig sh => lowerMinima sig ab (fnv1a (utf8 sh)))
    (List.replicate numHashes 0xFFFFFFFF)

def agreements (a b : List UInt32) : Nat := (List.zip a b).countP fun (x, y) => x == y

variable {F : Type} [Scalar F]

def estimatedJaccard (a b : List UInt32) : F :=
  if a.length ≠ b.length ∨ a = [] then Scalar.lit 0
  else Scalar.ofNat (agreements a b) / Scalar.ofNat a.length

end Ccos

/-!
## Compressing a window, reversibly

The digest and the three encoders are left open, as functions of a content: nothing here depends on
what they compute.
-/

open Std

namespace Ccos

/-- A handle for `retrieve`. -/
structure CcrRef where
  key : Str
deriving DecidableEq, Repr

structure CompressionStat (F : Type) where
  algorithm : Str
  tokensBefore : Nat
  tokensAfter : Nat
  ratio : F

structure CompressorConfig (F : Type) where
  enableJson : Bool
  enableCode : Bool
  enableProse : Bool
  summarySentences : Nat
  /-- 0 is unbounded. -/
  ccrCapacity : Nat
  minChars : Nat
  enableDedup : Bool
  dedupThreshold : F
  enableAstV2 : Bool
  astSignatureCollapseAfter : Nat

structure Encoders (F : Type) where
  sha256Hex : Str → Str
  crush : Str → Str
  skeletonizeWith : Str → CompressorConfig F → Str
  summarize : Str → Nat → F → Str

structure CausalCompressor (F : Type) where
  ccr : BTreeMap Str Str
  lastStats : List (CompressionStat F)
  config : CompressorConfig F

/-- An item handed to `compress_window`. -/
structure WindowItem (F : Type) where
  kind : Str
  score : F
  uri : Str
  content : Str

/-- An item between the phases of `compress_window`. -/
structure Candidate (F : Type) where
  uri : Str
  score : F
  content : Str
  ccrRef : Option CcrRef
  stat : CompressionStat F

structure CompressedItem where
  content : Str
  ccrRef : Option CcrRef
deriving DecidableEq, Repr

variable {F : Type} [Scalar F]

def CompressorConfig.default : CompressorConfig F where
  enableJson := true
  enableCode := true
  enableProse := true
  summarySentences := 0
  ccrCapacity := 4096
  minChars := 30
  enableDedup := true
  dedupThreshold := Scalar.lit 0.85
  enableAstV2 := true
  astSignatureCollapseAfter := 8

def CcrRef.of (enc : Encoders F) (original : Str) : CcrRef := ⟨(enc.sha256Hex original).take 12⟩

def passthrough (tokensBefore : Nat) : CompressionStat F :=
  { algorithm := "passthrough".toList, tokensBefore, tokensAfter := tokensBefore, ratio := Scalar.lit 1 }

def tokensOf (content : Str) : Nat := content.length / 4

def statOf (algorithm : Str) (before after : Nat) : CompressionStat F where
  algorithm
  tokensBefore := before
  tokensAfter := after
  ratio := if before = 0 then Scalar.lit 1 else Scalar.ofNat after / Scalar.ofNat before

namespace CausalCompressor

def withConfig (config : CompressorConfig F) : CausalCompressor F := { ccr := ∅, lastStats := [], config }

def new : CausalCompressor F := withConfig .default

def ccrLen (c : CausalCompressor F) : Nat := c.ccr.size

def retrieve (c : CausalCompressor F) (ref : CcrRef) : Option Str := c.ccr[ref.key]?

def clearCcr (c : CausalCompressor F) : CausalCompressor F := { c with ccr := ∅ }

variable (enc : Encoders F)

def store (c : CausalCompressor F) (original : Str) : CcrRef × CausalCompressor F :=
  let r := CcrRef.of enc original
  (r, { c with ccr := c.ccr.insert r.key original })

/-- One encoder's result: the text, the handle of the stored original, and the encoder's name. -/
def encode (c : CausalCompressor F) (kind content : Str) (causalScore : F) :
    (Str × Option CcrRef × Str) × CausalCompressor F :=
  let plain := ((content, none, "passthrough".toList), c)
  match ContentRouter.classify kind content with
  | .json =>
    if c.config.enableJson then
      let text := enc.crush content
      let (r, c) := c.store enc content
      ((text, some r, "causal-crusher".toList), c)
    else plain
  | .code =>
    if c.config.enableCode then
      let text := enc.skeletonizeWith content c.config
      let (r, c) := c.store enc content
      ((text, some r, "causal-ast".toList), c)
    else plain
  | .prose =>
    if c.config.enableProse then
      let text := enc.summarize content c.config.summarySentences causalScore
      if byteLen text ≥ byteLen content then plain
      else
        let (r, c) := c.store enc content
        ((text, some r, "causal-summ".toList), c)
    else plain

def compressItemInner (c : CausalCompressor F) (kind content : Str) (causalScore : F) :
    (Str × Option CcrRef × CompressionStat F) × CausalCompressor F :=
  let tokensBefore := tokensOf content
  if byteLen content < c.config.minChars then ((content, none, passthrough tokensBefore), c)
  else
    let ((text, r, algo), c) := c.encode enc kind content causalScore
    ((text, r, statOf algo tokensBefore (tokensOf text)), c)

/-- Drops the first key that is not kept until the store fits. `fuel` bounds the rounds. -/
def evictDown (cap : Nat) (keep : List Str) : Nat → BTreeMap Str Str → BTreeMap Str Str
  | 0, ccr => ccr
  | fuel + 1, ccr =>
    if ccr.size > cap then
      match ccr.keys.find? (· ∉ keep) with
      | some victim => evictDown cap keep fuel (ccr.erase victim)
      -- Everything left is live.
      | none => ccr
    else ccr

def enforceCcrCapacity (c : CausalCompressor F) (keep : List Str) : CausalCompressor F :=
  if c.config.ccrCapacity = 0 then c
  else { c with ccr := evictDown c.config.ccrCapacity keep c.ccr.size c.ccr }

def compressItem (c : CausalCompressor F) (kind content : Str) (causalScore : F) :
    (Str × Option CcrRef × CompressionStat F) × CausalCompressor F :=
  let ((text, r, stat), c) := c.compressItemInner enc kind content causalScore
  match r with
  | some r => ((text, some r, stat), c.enforceCcrCapacity [r.key])
  | none => ((text, none, stat), c)

/-- Each item by itself. -/
def compressEach (c : CausalCompressor F) : List (WindowItem F) → List (Candidate F) × CausalCompressor F
  | [] => ([], c)
  | item :: rest =>
    let ((content, ccrRef, stat), c) := c.compressItemInner enc item.kind item.content item.score
    let (candidates, c) := c.compressEach rest
    ({ uri := item.uri, score := item.score, content, ccrRef, stat } :: candidates, c)

end CausalCompressor

/-! ## Near duplicates -/

def similar (threshold : F) (sigs : List (List UInt32)) (i j : Nat) : Bool :=
  Scalar.ge (estimatedJaccard (sigs.getD i []) (sigs.getD j [])) threshold

/-- Marks an item as a duplicate of the first similar one before it that is no duplicate itself. -/
def markDup (threshold : F) (sigs : List (List UInt32)) (dupOf : List (Option Nat)) (i : Nat) :
    List (Option Nat) :=
  if (dupOf[i]?.join).isSome then dupOf
  else
    match (List.range i).find? fun j => (dupOf[j]?.join).isNone && similar threshold sigs i j with
    | some j => dupOf.set i (some j)
    | none => dupOf

def markDups (threshold : F) (sigs : List (List UInt32)) : List (Option Nat) :=
  (List.range sigs.length).foldl (markDup threshold sigs) (List.replicate sigs.length none)

def placeholder (uri : Str) : Str := "// ~dup of ".toList ++ uri

def Candidate.replace (candidate : Candidate F) (originalUri : Str) : Candidate F :=
  { candidate with
    content := placeholder originalUri
    stat := statOf "causal-dedup".toList candidate.stat.tokensBefore (tokensOf (placeholder originalUri)) }

/-- The duplicates of a window, by position; all are read before the first is replaced. -/
def duplicates (config : CompressorConfig F) (contents : List Str) : List (Option Nat) :=
  if config.enableDedup ∧ contents.length > 1 then
    markDups config.dedupThreshold (contents.map shingleSignature)
  else List.replicate contents.length none

def uriAt (candidates : List (Candidate F)) (j : Nat) : Str := ((candidates[j]?).map (·.uri)).getD []

def suppress (config : CompressorConfig F) (candidates : List (Candidate F)) : List (Candidate F) :=
  let dupOf := duplicates config (candidates.map (·.content))
  candidates.mapIdx fun i candidate =>
    match dupOf[i]?.join with
    | some j => candidate.replace (uriAt candidates j)
    | none => candidate

def CausalCompressor.compressWindow (enc : Encoders F) (c : CausalCompressor F) (items : List (WindowItem F)) :
    List CompressedItem × CausalCompressor F :=
  let (candidates, c) := compressEach enc { c with lastStats := [] } items
  let candidates : List (Candidate F) := suppress c.config candidates
  let out : List CompressedItem := candidates.map fun candidate =>
    { content := candidate.content, ccrRef := candidate.ccrRef }
  let c := { c with lastStats := c.lastStats ++ candidates.map Candidate.stat }
  (out, c.enforceCcrCapacity (out.filterMap fun (item : CompressedItem) => item.ccrRef.map CcrRef.key))

end Ccos
