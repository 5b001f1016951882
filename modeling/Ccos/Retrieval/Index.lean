import Ccos.Scalar

/-!
# Rankings of documents

A dense index scores documents by the angle between vectors, a lexical one by their words. Both rank by score and then
by id, and a hybrid retriever fuses the two rankings.
-/

open Std

namespace Ccos.Retrieval

/-- `char::is_alphanumeric` and `str::to_lowercase`. -/
class UnicodeText where
  isAlphanumeric : Char → Bool
  toLowercase : Str → Str

structure Scored (F : Type) where
  id : UInt64
  score : F
  deriving DecidableEq, Repr

inductive RetrievalError
  | dimMismatch (expected got : Nat)
  deriving DecidableEq, Repr

section

variable {F : Type} [Scalar F]

/-! ## Vectors -/

def dot (a b : List F) : F := (a.zip b).foldl (fun acc p => acc + p.1 * p.2) (Scalar.lit 0)

def norm (a : List F) : F := Scalar.sqrt (dot a a)

def normalized (a : List F) : List F :=
  let n := norm a
  if Scalar.ge (Scalar.lit 0) n then a
  else
    let inv := Scalar.lit 1 / n
    a.map fun x => x * inv

/-! ## Ranking -/

/-- The higher score first, then the smaller id. -/
def byRank (a b : Scored F) : Ordering :=
  ((Scalar.partialCmp b.score a.score).getD .eq).then (compare a.id b.id)

def rankTruncate (scored : List (Scored F)) (k : Nat) : List (Scored F) := (sortBy byRank scored).take k

/-! ## The dense index -/

structure DenseIndex (F : Type) where
  dim : Nat
  ids : List UInt64
  normed : List (List F)

namespace DenseIndex

def new (dim : Nat) : DenseIndex F := ⟨dim, [], []⟩

def add (x : DenseIndex F) (id : UInt64) (vector : List F) : Except RetrievalError (DenseIndex F) :=
  if vector.length ≠ x.dim then .error (.dimMismatch x.dim vector.length)
  else .ok { x with ids := x.ids ++ [id], normed := x.normed ++ [normalized vector] }

def search (x : DenseIndex F) (query : List F) (k : Nat) : List (Scored F) :=
  if k = 0 ∨ x.ids = [] ∨ query.length ≠ x.dim then []
  else
    let q := normalized query
    rankTruncate ((x.ids.zip x.normed).map fun p => ⟨p.1, dot q p.2⟩) k

end DenseIndex

/-! ## The lexical index -/

section Words

variable [UnicodeText]

/-- `text.split(|c| !c.is_alphanumeric())`. -/
def splitWords (piece : Str) : Str → List Str
  | [] => [piece]
  | c :: cs => if UnicodeText.isAlphanumeric c then splitWords (piece ++ [c]) cs else piece :: splitWords [] cs

def bm25Tokenize (text : Str) : List Str :=
  ((splitWords [] text).filter fun t => !t.isEmpty).map UnicodeText.toLowercase

end Words

/-- `postings` is by term, and has the index and the frequency of each document the term is in. -/
structure Bm25Index (F : Type) where
  k1 : F
  b : F
  vocab : BTreeMap Str Nat
  postings : List (List (Nat × UInt32))
  docLen : List UInt32
  ids : List UInt64
  totalLen : UInt64

namespace Bm25Index

def new (k1 b : F) : Bm25Index F := ⟨k1, b, ∅, [], [], [], 0⟩

/-- `Default`. -/
def standard : Bm25Index F := new (Scalar.lit 1.2) (Scalar.lit 0.75)

def termFrequencies (tokens : List Str) : BTreeMap Str UInt32 :=
  tokens.foldl (fun tf tok => tf.insert tok ((tf[tok]?).getD 0 + 1)) ∅

def addTerm (docIdx : Nat) (x : Bm25Index F) (term : Str) (count : UInt32) : Bm25Index F :=
  match x.vocab[term]? with
  | some i => { x with postings := x.postings.modify i fun p => p ++ [(docIdx, count)] }
  | none => { x with
      vocab := x.vocab.insert term x.postings.length
      postings := x.postings ++ [[(docIdx, count)]] }

variable [UnicodeText]

def add (x : Bm25Index F) (id : UInt64) (text : Str) : Bm25Index F :=
  let tokens := bm25Tokenize text
  let docIdx := x.ids.length
  let x := (termFrequencies tokens).toList.foldl (fun x e => addTerm docIdx x e.1 e.2) x
  { x with
    docLen := x.docLen ++ [UInt32.ofNat tokens.length]
    totalLen := x.totalLen + UInt64.ofNat tokens.length
    ids := x.ids ++ [id] }

def seeTerm (x : Bm25Index F) (s : List Nat × BTreeMap Nat Unit) (tok : Str) : List Nat × BTreeMap Nat Unit :=
  match x.vocab[tok]? with
  | some tid => (if s.2.contains tid then s.1 else s.1 ++ [tid], s.2.insert tid ())
  | none => s

/-- The distinct terms of a query that some document has, as they are first seen. -/
def queryTerms (x : Bm25Index F) (query : Str) : List Nat := ((bm25Tokenize query).foldl x.seeTerm ([], ∅)).1

/-- What one posting adds to the score of its document. -/
def weight (x : Bm25Index F) (df : Nat) (tf dl : UInt32) : F :=
  let n : F := Scalar.ofNat x.ids.length
  let avgdl := Scalar.ofNat x.totalLen.toNat / n
  let df : F := Scalar.ofNat df
  let idf := Scalar.ln (Scalar.lit 1 + (n - df + Scalar.lit 0.5) / (df + Scalar.lit 0.5))
  let tf : F := Scalar.ofNat tf.toNat
  let dl : F := Scalar.ofNat dl.toNat
  let denom := tf + x.k1 * (Scalar.lit 1 - x.b + x.b * dl / avgdl)
  idf * tf * (x.k1 + Scalar.lit 1) / denom

def scoreTerm (x : Bm25Index F) (acc : BTreeMap Nat F) (tid : Nat) : BTreeMap Nat F :=
  let posting := (x.postings[tid]?).getD []
  posting.foldl (fun acc p => acc.insert p.1
    ((acc[p.1]?).getD (Scalar.lit 0) + x.weight posting.length p.2 ((x.docLen[p.1]?).getD 0))) acc

def scores (x : Bm25Index F) (query : Str) : List (Scored F) :=
  ((x.queryTerms query).foldl x.scoreTerm ∅).toList.map fun e => ⟨(x.ids[e.1]?).getD 0, e.2⟩

def search (x : Bm25Index F) (query : Str) (k : Nat) : List (Scored F) :=
  if k = 0 ∨ x.ids = [] then [] else rankTruncate (x.scores query) k

end Bm25Index

/-! ## Fusion -/

def addRank (rrfK : F) (scores : BTreeMap UInt64 F) (id : UInt64) (rank : Nat) : BTreeMap UInt64 F :=
  scores.insert id
    ((scores[id]?).getD (Scalar.lit 0) + Scalar.lit 1 / (rrfK + Scalar.ofNat rank + Scalar.lit 1))

def reciprocalRankFusion (rankings : List (List UInt64)) (rrfK : F) (k : Nat) : List (Scored F) :=
  let scores := rankings.foldl (fun scores ranking =>
    ranking.zipIdx.foldl (fun scores p => addRank rrfK scores p.1 p.2) scores) ∅
  rankTruncate (scores.toList.map fun e => ⟨e.1, e.2⟩) k

end

/-- `encode` may change the encoder. -/
class Encoder (E : Type) (F : outParam Type) where
  embeddingDim : E → Nat
  encode : E → Str → List F × E

structure HybridRetriever (E F : Type) where
  encoder : E
  dense : DenseIndex F
  sparse : Bm25Index F
  rrfK : F

namespace HybridRetriever

variable {E F : Type} [Scalar F] [Encoder E F]

def new (encoder : E) (rrfK : F) : HybridRetriever E F :=
  ⟨encoder, .new (Encoder.embeddingDim encoder), .standard, rrfK⟩

variable [UnicodeText]

def indexText (r : HybridRetriever E F) (id : UInt64) (text : Str) :
    Except RetrievalError Unit × HybridRetriever E F :=
  let emb := Encoder.encode r.encoder text
  match r.dense.add id emb.1 with
  | .error e => (.error e, { r with encoder := emb.2 })
  | .ok dense => (.ok (), { r with encoder := emb.2, dense := dense, sparse := r.sparse.add id text })

/-- `k * 5` must not overflow. -/
def retrieve (r : HybridRetriever E F) (query : Str) (k : Nat) : List (Scored F) × HybridRetriever E F :=
  let pool := max (k * 5) 20
  let emb := Encoder.encode r.encoder query
  let denseIds := (r.dense.search emb.1 pool).map Scored.id
  let sparseIds := (r.sparse.search query pool).map Scored.id
  (reciprocalRankFusion [denseIds, sparseIds] r.rrfK k, { r with encoder := emb.2 })

end HybridRetriever

end Ccos.Retrieval
