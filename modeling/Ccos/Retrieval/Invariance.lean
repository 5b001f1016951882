import Ccos.Retrieval.Postings
import Mathlib.Algebra.BigOperators.Group.List.Basic
import Mathlib.Data.Prod.Lex

/-!
# Rankings do not depend on the order of indexing

Term ids and document indices depend on it, but what is scored is a document and its words. The scores of two orders are
the same up to their order, and a ranking forgets that one.
-/

open Std

namespace Ccos.Retrieval

/-- Exact arithmetic compares as a linear order does. -/
class ExactOrder (F : Type) [Scalar F] [LinearOrder F] : Prop where
  partialCmp_eq : ∀ a b : F, Scalar.partialCmp a b = some (compare a b)

/-! ## Ranking -/

section Rank

variable {F : Type} [Scalar F] [LinearOrder F]

def rankKey (s : Scored F) : Lex (Fᵒᵈ × UInt64) := toLex (OrderDual.toDual s.score, s.id)

omit [Scalar F] [LinearOrder F] in
theorem rankKey_injective : Function.Injective (rankKey : Scored F → _) := by
  intro a b h
  cases a
  cases b
  obtain ⟨hscore, hid⟩ := Prod.mk.inj (toLex.injective h)
  rw [Scored.mk.injEq]
  exact ⟨hid, OrderDual.toDual.injective hscore⟩

omit [Scalar F] in
theorem rankKey_lawful : LawfulEqOrd (Lex (Fᵒᵈ × UInt64)) :=
  have hlex : @LawfulEqOrd (Fᵒᵈ × UInt64) lexOrd := inferInstance
  hlex

variable [ExactOrder F]

theorem byRank_eq : (byRank : Scored F → Scored F → Ordering) = fun a b => compare (rankKey a) (rankKey b) := by
  funext a b
  rw [byRank, ExactOrder.partialCmp_eq, Option.getD_some]
  rw [Prod.Lex.compare_def]
  rfl

theorem rankTruncate_of_perm {l l' : List (Scored F)} (h : l.Perm l') (k : Nat) :
    rankTruncate l k = rankTruncate l' k := by
  have hlawful : LawfulEqOrd (Lex (Fᵒᵈ × UInt64)) := rankKey_lawful
  rw [rankTruncate, rankTruncate, byRank_eq, sortBy_eq_of_perm rankKey (fun _ _ _ _ hab => rankKey_injective hab) h]

omit [LinearOrder F] [ExactOrder F] in
theorem rankTruncate_take (l : List (Scored F)) {k k' : Nat} (h : k ≤ k') :
    rankTruncate l k = (rankTruncate l k').take k := by
  rw [rankTruncate, rankTruncate, List.take_take, Nat.min_eq_left h]

end Rank

/-! ## The dense index -/

namespace DenseIndex

section

variable {F : Type} [Scalar F]

/-- The documents are added in turn; one that is refused leaves the index as it is. -/
def addAll (x : DenseIndex F) (docs : List (UInt64 × List F)) : DenseIndex F :=
  docs.foldl (fun x d => (x.add d.1 d.2).toOption.getD x) x

def fits (dim : Nat) (d : UInt64 × List F) : Bool := d.2.length = dim

theorem addAll_eq (x : DenseIndex F) (docs : List (UInt64 × List F)) :
    x.addAll docs = ⟨x.dim, x.ids ++ (docs.filter (fits x.dim)).map (·.1),
      x.normed ++ (docs.filter (fits x.dim)).map fun d => normalized d.2⟩ := by
  induction docs generalizing x with
  | nil => simp [addAll]
  | cons d docs ih =>
    have hstep : x.addAll (d :: docs) = ((x.add d.1 d.2).toOption.getD x).addAll docs := rfl
    rw [hstep, ih, add]
    by_cases hd : d.2.length = x.dim
    · simp [hd, fits, Except.toOption]
    · simp [hd, fits, Except.toOption]

theorem search_addAll (dim : Nat) (docs : List (UInt64 × List F)) (query : List F) (k : Nat) :
    ((new dim).addAll docs).search query k =
      if k = 0 ∨ docs.filter (fits dim) = [] ∨ query.length ≠ dim then []
      else rankTruncate ((docs.filter (fits dim)).map fun d => ⟨d.1, dot (normalized query) (normalized d.2)⟩) k := by
  rw [addAll_eq, search]
  simp only [new, List.nil_append, List.map_eq_nil_iff, List.zip_map', List.map_map]
  rfl

theorem search_prefix (x : DenseIndex F) (query : List F) {k k' : Nat} (h : k ≤ k') :
    x.search query k = (x.search query k').take k := by
  rw [search, search]
  by_cases hk : k = 0
  · rw [if_pos (.inl hk), hk, List.take_zero]
  · have hk' : k' ≠ 0 := by omega
    by_cases hrest : x.ids = [] ∨ query.length ≠ x.dim
    · rw [if_pos (.inr hrest), if_pos (.inr hrest), List.take_nil]
    · rw [if_neg (not_or.mpr ⟨hk, hrest⟩), if_neg (not_or.mpr ⟨hk', hrest⟩)]
      exact rankTruncate_take _ h

theorem search_of_perm [LinearOrder F] [ExactOrder F] (dim : Nat) {docs docs' : List (UInt64 × List F)}
    (h : docs.Perm docs') (query : List F) (k : Nat) :
    ((new dim).addAll docs).search query k = ((new dim).addAll docs').search query k := by
  have hfilter := h.filter (fits dim)
  have hnil : docs.filter (fits dim) = [] ↔ docs'.filter (fits dim) = [] := by
    rw [← List.length_eq_zero_iff, ← List.length_eq_zero_iff, hfilter.length_eq]
  rw [search_addAll, search_addAll, rankTruncate_of_perm (hfilter.map _)]
  simp only [hnil]

end

end DenseIndex

/-! ## The lexical index -/

namespace Bm25Index

section

variable {F : Type} [UnicodeText]

theorem occurs_of_perm {docs docs' : List (UInt64 × Str)} (h : docs.Perm docs') : occurs docs = occurs docs' :=
  funext fun _ => propext (exists_congr fun _ => and_congr_left fun _ => h.mem_iff)

theorem firstSeen_of_perm {docs docs' : List (UInt64 × Str)} (h : docs.Perm docs') (tokens : List Str) :
    firstSeen docs tokens = firstSeen docs' tokens := by
  unfold firstSeen
  simp only [occurs_of_perm h]

theorem length_postingsOf_of_perm {docs docs' : List (UInt64 × Str)} (h : docs.Perm docs') (t : Str) :
    (postingsOf docs t).length = (postingsOf docs' t).length := by
  rw [length_postingsOf, length_postingsOf]
  exact h.countP_eq _

end

section

variable {F : Type} [Scalar F] [UnicodeText]

theorem docScore_of_perm {k1 b : F} {docs docs' : List (UInt64 × Str)} {x x' : Bm25Index F} (hx : Holds k1 b docs x)
    (hx' : Holds k1 b docs' x') (h : docs.Perm docs') (terms : List Str) (text : Str) :
    x.docScore docs terms text = x'.docScore docs' terms text := by
  have hweight : x.weight = x'.weight := by
    have hids : x.ids.length = x'.ids.length := by rw [hx.ids, hx'.ids, List.length_map, List.length_map, h.length_eq]
    have htotal : x.totalLen = x'.totalLen := by rw [hx.totalLen, hx'.totalLen, (h.map _).sum_eq]
    unfold weight
    rw [hids, htotal, hx.k1, hx'.k1, hx.b, hx'.b]
  have hstep : x.scoreStep docs text = x'.scoreStep docs' text := by
    funext score t
    rw [scoreStep, scoreStep, hweight, length_postingsOf_of_perm h]
  rw [docScore, docScore, hstep]

theorem scores_of_perm {k1 b : F} {docs docs' : List (UInt64 × Str)} {x x' : Bm25Index F} (hx : Holds k1 b docs x)
    (hx' : Holds k1 b docs' x') (h : docs.Perm docs') (query : Str) : (x.scores query).Perm (x'.scores query) := by
  refine (perm_scores hx query).trans (.trans ?_ (perm_scores hx' query).symm)
  rw [← firstSeen_of_perm h]
  have hscore : x.scored docs (firstSeen docs (bm25Tokenize query)) =
      x'.scored docs' (firstSeen docs (bm25Tokenize query)) := by
    funext d
    rw [scored, scored, docScore_of_perm hx hx' h]
  rw [hscore]
  exact h.filterMap _

theorem search_of_perm [LinearOrder F] [ExactOrder F] (k1 b : F) {docs docs' : List (UInt64 × Str)}
    (h : docs.Perm docs') (query : Str) (k : Nat) :
    ((new k1 b).addAll docs).search query k = ((new k1 b).addAll docs').search query k := by
  have hx := holds_addAll k1 b docs
  have hx' := holds_addAll k1 b docs'
  have hnil : ((new k1 b).addAll docs).ids = [] ↔ ((new k1 b).addAll docs').ids = [] := by
    rw [hx.ids, hx'.ids, List.map_eq_nil_iff, List.map_eq_nil_iff, ← List.length_eq_zero_iff, h.length_eq,
      List.length_eq_zero_iff]
  rw [search, search, rankTruncate_of_perm (scores_of_perm hx hx' h query)]
  simp only [hnil]

theorem search_prefix (x : Bm25Index F) (query : Str) {k k' : Nat} (h : k ≤ k') :
    x.search query k = (x.search query k').take k := by
  rw [search, search]
  by_cases hk : k = 0
  · rw [if_pos (.inl hk), hk, List.take_zero]
  · have hk' : k' ≠ 0 := by omega
    by_cases hids : x.ids = []
    · rw [if_pos (.inr hids), if_pos (.inr hids), List.take_nil]
    · rw [if_neg (not_or.mpr ⟨hk, hids⟩), if_neg (not_or.mpr ⟨hk', hids⟩)]
      exact rankTruncate_take _ h

end

end Bm25Index

/-! ## The hybrid retriever -/

/-- An encoder may remember the texts it encoded, and encodes the next as if it did not. -/
class LawfulEncoder (E : Type) (F : outParam Type) [Encoder E F] : Prop where
  encode_after : ∀ (e : E) (text text' : Str),
    (Encoder.encode (Encoder.encode e text).2 text').1 = (Encoder.encode e text').1

namespace HybridRetriever

variable {E F : Type} [Scalar F] [Encoder E F] [UnicodeText]

/-- The texts are indexed in turn, whether or not they are refused. -/
def indexAll (r : HybridRetriever E F) (docs : List (UInt64 × Str)) : HybridRetriever E F :=
  docs.foldl (fun r d => (r.indexText d.1 d.2).2) r

def embedded (e : E) (d : UInt64 × Str) : UInt64 × List F := (d.1, (Encoder.encode e d.2).1)

theorem indexText_eq (r : HybridRetriever E F) (d : UInt64 × Str) : (r.indexText d.1 d.2).2 =
    ⟨(Encoder.encode r.encoder d.2).2, r.dense.addAll [embedded r.encoder d],
      r.sparse.addAll ([d].filter fun d => DenseIndex.fits r.dense.dim (embedded r.encoder d)), r.rrfK⟩ := by
  rw [indexText, DenseIndex.addAll_eq]
  by_cases hd : (Encoder.encode r.encoder d.2).1.length = r.dense.dim
  · simp [DenseIndex.add, hd, DenseIndex.fits, embedded, Bm25Index.addAll]
  · simp [DenseIndex.add, hd, DenseIndex.fits, embedded, Bm25Index.addAll]

variable [LawfulEncoder E F]

omit [Scalar F] [UnicodeText] in
theorem embedded_after (e : E) (text : Str) : embedded (Encoder.encode e text).2 = embedded (F := F) e :=
  funext fun d => Prod.ext rfl (LawfulEncoder.encode_after e text d.2)

/-- After a run, the indices hold what the first encoder makes of the texts. -/
theorem indexAll_spec (r : HybridRetriever E F) (docs : List (UInt64 × Str)) :
    (∀ text, (Encoder.encode (r.indexAll docs).encoder text).1 = (Encoder.encode r.encoder text).1) ∧
      (r.indexAll docs).dense = r.dense.addAll (docs.map (embedded r.encoder)) ∧
      (r.indexAll docs).sparse =
        r.sparse.addAll (docs.filter fun d => DenseIndex.fits r.dense.dim (embedded r.encoder d)) ∧
      (r.indexAll docs).rrfK = r.rrfK := by
  induction docs generalizing r with
  | nil => exact ⟨fun _ => rfl, rfl, rfl, rfl⟩
  | cons d docs ih =>
    have hstep : r.indexAll (d :: docs) = ((r.indexText d.1 d.2).2).indexAll docs := rfl
    have hdim : (r.dense.addAll [embedded r.encoder d]).dim = r.dense.dim := by rw [DenseIndex.addAll_eq]
    rw [hstep]
    obtain ⟨hencode, hdense, hsparse, hrrf⟩ := ih (r.indexText d.1 d.2).2
    rw [indexText_eq] at hencode hdense hsparse hrrf ⊢
    dsimp only at hencode hdense hsparse hrrf
    rw [embedded_after] at hdense hsparse
    rw [hdim] at hsparse
    refine ⟨fun text => (hencode text).trans (LawfulEncoder.encode_after _ _ _), ?_, ?_, hrrf⟩
    · rw [hdense, List.map_cons, DenseIndex.addAll, DenseIndex.addAll, DenseIndex.addAll, ← List.foldl_append]
      rfl
    · rw [hsparse, Bm25Index.addAll, Bm25Index.addAll, Bm25Index.addAll, ← List.foldl_append, ← List.filter_append]
      rfl

theorem retrieve_of_perm [LinearOrder F] [ExactOrder F] (encoder : E) (rrfK : F) {docs docs' : List (UInt64 × Str)}
    (h : docs.Perm docs') (query : Str) (k : Nat) :
    (((new encoder rrfK).indexAll docs).retrieve query k).1 =
      (((new encoder rrfK).indexAll docs').retrieve query k).1 := by
  obtain ⟨hencode, hdense, hsparse, hrrf⟩ := indexAll_spec (new encoder rrfK) docs
  obtain ⟨hencode', hdense', hsparse', hrrf'⟩ := indexAll_spec (new encoder rrfK) docs'
  have hd := fun (q : List F) (k : Nat) =>
    DenseIndex.search_of_perm (Encoder.embeddingDim encoder) (h.map (embedded encoder)) q k
  have hs := fun (q : Str) (k : Nat) => Bm25Index.search_of_perm (Scalar.lit 1.2 : F) (Scalar.lit 0.75)
    (h.filter fun d =>
      DenseIndex.fits (DenseIndex.new (Encoder.embeddingDim encoder) : DenseIndex F).dim (embedded encoder d)) q k
  rw [retrieve, retrieve]
  dsimp only
  rw [hencode, hencode', hdense, hdense', hsparse, hsparse', hrrf, hrrf']
  dsimp only [new, Bm25Index.standard]
  rw [hd, hs]

end HybridRetriever

/-! ## Rankings -/

section

variable {F : Type} [Scalar F] [LinearOrder F] [ExactOrder F] [UnicodeText]

end

/-! ## Two texts -/

namespace Sample

/-- Remembers how many texts it encoded. -/
structure Tally where
  encoded : Nat

instance : Encoder Tally ℚ where
  embeddingDim _ := 2
  encode e text := ([(text.count 'a' : ℚ), (text.count 'b' : ℚ)], ⟨e.encoded + 1⟩)

instance : LawfulEncoder Tally ℚ := ⟨fun _ _ _ => rfl⟩

instance : ExactOrder ℚ := ⟨fun _ _ => rfl⟩

instance : UnicodeText where
  isAlphanumeric := Char.isAlphanum
  toLowercase text := text.map Char.toLower

def texts : List (UInt64 × Str) := [(1, ['a', ' ', 'b']), (2, ['B'])]

end Sample

end Ccos.Retrieval
