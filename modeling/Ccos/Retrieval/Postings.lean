import Ccos.Lib.RankedChoice
import Ccos.Retrieval.Index
import Mathlib.Data.UInt

/-!
# What a lexical index holds

The terms are numbered as they come and a posting names its document by position. By term and document, the index is the
documents' own words, and so are the scores.
-/

open Std

namespace Ccos.Retrieval

/-! ## Words of documents -/

/-- The entries of a map under one key. -/
theorem filter_toList {B : Type} (m : BTreeMap Str B) (t : Str) :
    m.toList.filter (fun e => e.1 = t) = ((m[t]?).map fun c => (t, c)).toList := by
  have hnodup : (m.toList.filter fun e => e.1 = t).Nodup :=
    (ExtTreeMap.distinct_keys_toList.imp fun hne heq => hne (by rw [heq]; exact ReflCmp.compare_self)).filter _
  have hmem : ∀ e, e ∈ m.toList.filter (fun e => e.1 = t) ↔ e ∈ ((m[t]?).map fun c => (t, c)).toList := by
    intro e
    obtain ⟨s, c⟩ := e
    rw [List.mem_filter, decide_eq_true_eq, ExtTreeMap.mem_toList_iff_getElem?_eq_some, Option.mem_toList,
      Option.map_eq_some_iff]
    constructor
    · rintro ⟨hc, rfl⟩
      exact ⟨c, hc, rfl⟩
    · rintro ⟨c', hc, heq⟩
      cases heq
      exact ⟨hc, rfl⟩
  have hperm : (m.toList.filter fun e => e.1 = t).Perm ((m[t]?).map fun c => (t, c)).toList := by
    refine (List.perm_ext_iff_of_nodup hnodup ?_).mpr hmem
    cases m[t]? <;> simp
  cases hc : m[t]? with
  | none =>
    rw [hc] at hperm
    exact hperm.eq_nil
  | some c =>
    rw [hc] at hperm
    exact List.perm_singleton.mp hperm

section

variable [UnicodeText]

def frequency (t text : Str) : UInt32 := UInt32.ofNat ((bm25Tokenize text).count t)

omit [UnicodeText] in
theorem foldl_count (tokens : List Str) (n : UInt32) :
    tokens.foldl (fun n _ => n + 1) n = n + UInt32.ofNat tokens.length := by
  induction tokens generalizing n with
  | nil => simp
  | cons u tokens ih =>
    rw [List.foldl_cons, ih, List.length_cons, UInt32.ofNat_add, UInt32.add_assoc, UInt32.add_comm 1]
    rfl

theorem getElem?_termFrequencies (text t : Str) : (Bm25Index.termFrequencies (bm25Tokenize text))[t]? =
    if t ∈ bm25Tokenize text then some (frequency t text) else none := by
  have hgather := Tally.getElem?_gather id (fun (n : UInt32) (_ : Str) => n + 1) 0 (bm25Tokenize text) t
  have hcount : (bm25Tokenize text).count t = ((bm25Tokenize text).filter fun u => u = t).length := by
    rw [← List.countP_eq_length_filter]
    exact List.countP_congr fun u _ => by simp
  rw [List.map_id, foldl_count, UInt32.zero_add] at hgather
  rw [frequency, hcount]
  by_cases ht : t ∈ bm25Tokenize text
  · rw [if_pos ht] at hgather ⊢
    exact hgather
  · rw [if_neg ht] at hgather ⊢
    exact hgather

/-- What the documents say of a term. -/
def occurs (docs : List (UInt64 × Str)) (t : Str) : Prop := ∃ d ∈ docs, t ∈ bm25Tokenize d.2

instance (docs : List (UInt64 × Str)) (t : Str) : Decidable (occurs docs t) :=
  List.decidableBEx (fun d : UInt64 × Str => t ∈ bm25Tokenize d.2) docs

def postingsOf (docs : List (UInt64 × Str)) (t : Str) : List (Nat × UInt32) :=
  (docs.zipIdx.filter fun e => t ∈ bm25Tokenize e.1.2).map fun e => (e.2, frequency t e.1.2)

theorem postingsOf_concat (docs : List (UInt64 × Str)) (d : UInt64 × Str) (t : Str) :
    postingsOf (docs ++ [d]) t =
      postingsOf docs t ++ if t ∈ bm25Tokenize d.2 then [(docs.length, frequency t d.2)] else [] := by
  rw [postingsOf, List.zipIdx_append, List.filter_append, List.map_append]
  by_cases ht : t ∈ bm25Tokenize d.2 <;> simp [ht, postingsOf]

theorem length_postingsOf (docs : List (UInt64 × Str)) (t : Str) :
    (postingsOf docs t).length = docs.countP fun d => t ∈ bm25Tokenize d.2 := by
  have hzip : docs.zipIdx.countP (fun e => t ∈ bm25Tokenize e.1.2) =
      (docs.zipIdx.map (·.1)).countP fun d => t ∈ bm25Tokenize d.2 := by
    rw [List.countP_map]
    rfl
  rw [postingsOf, List.length_map, ← List.countP_eq_length_filter, hzip, List.zipIdx_map_fst]

end

namespace Bm25Index

variable {F : Type}

/-- The terms of an index: which there are, told apart by their numbers, and their postings. -/
structure Indexed (has : Str → Prop) (posting : Str → List (Nat × UInt32)) (x : Bm25Index F) : Prop where
  vocab : ∀ t : Str, (∃ i, x.vocab[t]? = some i) ↔ has t
  inj : ∀ (t t' : Str) (i : Nat), x.vocab[t]? = some i → x.vocab[t']? = some i → t = t'
  postings : ∀ (t : Str) (i : Nat), x.vocab[t]? = some i → x.postings[i]? = some (posting t)
  absent : ∀ t, ¬ has t → posting t = []

theorem Indexed.addTerm {has : Str → Prop} {posting : Str → List (Nat × UInt32)} {x : Bm25Index F}
    (h : Indexed has posting x) (docIdx : Nat) (term : Str) (count : UInt32) :
    Indexed (fun t => has t ∨ t = term) (fun t => posting t ++ if t = term then [(docIdx, count)] else [])
      (addTerm docIdx x term count) := by
  unfold Bm25Index.addTerm
  cases hterm : x.vocab[term]? with
  | some i =>
    have hhas : has term := (h.vocab term).mp ⟨i, hterm⟩
    refine ⟨fun t => ?_, h.inj, fun t j hj => ?_, fun t ht => ?_⟩
    · rw [h.vocab, or_iff_left_of_imp (by rintro rfl; exact hhas)]
    · by_cases ht : t = term
      · subst ht
        obtain rfl := Option.some.inj (hterm.symm.trans hj)
        simp [h.postings t i hj]
      · have hne : i ≠ j := by
          rintro rfl
          exact ht (h.inj t term i hj hterm)
        simp [hne, h.postings t j hj, ht]
    · rw [not_or] at ht
      simp [h.absent t ht.1, ht.2]
  | none =>
    have hhas : ¬ has term := fun hh => by
      obtain ⟨i, hi⟩ := (h.vocab term).mpr hh
      cases hterm.symm.trans hi
    have hlt : ∀ (t : Str) (i : Nat), x.vocab[t]? = some i → i < x.postings.length := fun t i hi =>
      (List.getElem?_eq_some_iff.mp (h.postings t i hi)).1
    have hget : ∀ t, (x.vocab.insert term x.postings.length)[t]? =
        if t = term then some x.postings.length else x.vocab[t]? := by
      intro t
      rw [ExtTreeMap.getElem?_insert]
      by_cases ht : t = term
      · rw [if_pos (by rw [ht]; exact ReflCmp.compare_self), if_pos ht]
      · rw [if_neg (by rw [LawfulEqOrd.compare_eq_iff_eq]; exact Ne.symm ht), if_neg ht]
    refine ⟨fun t => ?_, fun t t' i ht ht' => ?_, fun t i ht => ?_, fun t ht => ?_⟩
    · dsimp only
      rw [hget]
      by_cases ht : t = term
      · simp [ht]
      · simp [ht, h.vocab]
    · dsimp only at ht ht'
      rw [hget] at ht ht'
      split_ifs at ht ht' with h1 h2 h2
      · exact h1.trans h2.symm
      · exact absurd (hlt t' i ht') (by rw [← Option.some.inj ht]; exact Nat.lt_irrefl _)
      · exact absurd (hlt t i ht) (by rw [← Option.some.inj ht']; exact Nat.lt_irrefl _)
      · exact h.inj t t' i ht ht'
    · dsimp only at ht ⊢
      rw [hget] at ht
      by_cases h1 : t = term
      · rw [if_pos h1] at ht
        obtain rfl := Option.some.inj ht
        simp [h1, h.absent term hhas]
      · rw [if_neg h1] at ht
        rw [List.getElem?_append_left (hlt t i ht), h.postings t i ht, if_neg h1, List.append_nil]
    · rw [not_or] at ht
      simp [h.absent t ht.1, ht.2]

/-- A document's terms, one after the other. -/
theorem Indexed.foldl_addTerm {has : Str → Prop} {posting : Str → List (Nat × UInt32)} {x : Bm25Index F}
    (h : Indexed has posting x) (docIdx : Nat) (l : List (Str × UInt32)) :
    Indexed (fun t => has t ∨ ∃ e ∈ l, e.1 = t)
      (fun t => posting t ++ (l.filter fun e => e.1 = t).map fun e => (docIdx, e.2))
      (l.foldl (fun x e => Bm25Index.addTerm docIdx x e.1 e.2) x) := by
  induction l generalizing has posting x with
  | nil => simpa using h
  | cons e l ih =>
    have hrest := ih (h.addTerm docIdx e.1 e.2)
    rw [List.foldl_cons]
    convert hrest using 2 with t t
    · rw [List.exists_mem_cons_iff, or_assoc, eq_comm]
    · by_cases ht : e.1 = t
      · simp [ht]
      · simp [ht, Ne.symm ht]

end Bm25Index

namespace Bm25Index

section

variable {F : Type} [UnicodeText]

/-- The index of the documents, in the order they were added. -/
structure Holds (k1 b : F) (docs : List (UInt64 × Str)) (x : Bm25Index F) : Prop where
  k1 : x.k1 = k1
  b : x.b = b
  ids : x.ids = docs.map (·.1)
  docLen : x.docLen = docs.map fun d => UInt32.ofNat (bm25Tokenize d.2).length
  totalLen : x.totalLen = (docs.map fun d => UInt64.ofNat (bm25Tokenize d.2).length).sum
  indexed : Indexed (occurs docs) (postingsOf docs) x

def addAll (x : Bm25Index F) (docs : List (UInt64 × Str)) : Bm25Index F := docs.foldl (fun x d => x.add d.1 d.2) x

omit [UnicodeText] in
theorem addTerm_fields (docIdx : Nat) (l : List (Str × UInt32)) (x : Bm25Index F) :
    (l.foldl (fun x e => addTerm docIdx x e.1 e.2) x) =
      { x with
        vocab := (l.foldl (fun x e => addTerm docIdx x e.1 e.2) x).vocab
        postings := (l.foldl (fun x e => addTerm docIdx x e.1 e.2) x).postings } := by
  induction l generalizing x with
  | nil => rfl
  | cons e l ih =>
    rw [List.foldl_cons, ih]
    have hstep : addTerm docIdx x e.1 e.2 =
        { x with vocab := (addTerm docIdx x e.1 e.2).vocab, postings := (addTerm docIdx x e.1 e.2).postings } := by
      unfold addTerm
      cases x.vocab[e.1]? <;> rfl
    rw [hstep]

theorem holds_new (k1 b : F) : Holds k1 b [] (new k1 b) where
  k1 := rfl
  b := rfl
  ids := rfl
  docLen := rfl
  totalLen := rfl
  indexed :=
    { vocab := fun t => by simp [new, occurs]
      inj := fun t t' i h => by simp [new] at h
      postings := fun t i h => by simp [new] at h
      absent := fun t _ => rfl }

theorem Holds.add {k1 b : F} {docs : List (UInt64 × Str)} {x : Bm25Index F} (h : Holds k1 b docs x) (d : UInt64 × Str) :
    Holds k1 b (docs ++ [d]) (x.add d.1 d.2) := by
  have hterms := h.indexed.foldl_addTerm x.ids.length (termFrequencies (bm25Tokenize d.2)).toList
  have hfields := addTerm_fields x.ids.length (termFrequencies (bm25Tokenize d.2)).toList x
  have hlen : x.ids.length = docs.length := by rw [h.ids, List.length_map]
  have hhas : ∀ t, (∃ e ∈ (termFrequencies (bm25Tokenize d.2)).toList, e.1 = t) ↔ t ∈ bm25Tokenize d.2 := by
    intro t
    constructor
    · rintro ⟨e, he, rfl⟩
      have hget := ExtTreeMap.mem_toList_iff_getElem?_eq_some.mp he
      rw [getElem?_termFrequencies] at hget
      by_contra hnot
      rw [if_neg hnot] at hget
      cases hget
    · intro ht
      exact ⟨(t, frequency t d.2),
        ExtTreeMap.mem_toList_iff_getElem?_eq_some.mpr (by rw [getElem?_termFrequencies, if_pos ht]), rfl⟩
  rw [Bm25Index.add, hfields]
  constructor
  · exact h.k1
  · exact h.b
  · simp [h.ids]
  · simp [h.docLen]
  · simp [h.totalLen]
  · have hposting : ∀ t, (postingsOf docs t ++ ((termFrequencies (bm25Tokenize d.2)).toList.filter
        fun e => e.1 = t).map fun e => (x.ids.length, e.2)) = postingsOf (docs ++ [d]) t := by
      intro t
      rw [filter_toList, getElem?_termFrequencies, postingsOf_concat, hlen]
      by_cases ht : t ∈ bm25Tokenize d.2 <;> simp [ht]
    have hoccurs : ∀ t, (occurs docs t ∨ ∃ e ∈ (termFrequencies (bm25Tokenize d.2)).toList, e.1 = t) ↔
        occurs (docs ++ [d]) t := by
      intro t
      rw [hhas]
      simp [occurs, or_and_right, exists_or]
    exact
      { vocab := fun t => (hterms.vocab t).trans (hoccurs t)
        inj := hterms.inj
        postings := fun t i hi => by rw [← hposting]; exact hterms.postings t i hi
        absent := fun t ht => by rw [← hposting]; exact hterms.absent t fun hh => ht ((hoccurs t).mp hh) }

theorem holds_addAll (k1 b : F) (docs : List (UInt64 × Str)) : Holds k1 b docs ((new k1 b).addAll docs) := by
  induction docs using List.reverseRecOn with
  | nil => exact holds_new k1 b
  | append_singleton docs d ih =>
    rw [addAll, List.foldl_append]
    exact ih.add d

end

/-! ### Queries -/

section

variable {F : Type} [UnicodeText]

/-- The distinct terms of a list that occur, as they are first seen. -/
def firstSeen (docs : List (UInt64 × Str)) (tokens : List Str) : List Str :=
  tokens.foldl (fun seen t => if occurs docs t ∧ t ∉ seen then seen ++ [t] else seen) []

theorem queryTerms_eq {k1 b : F} {docs : List (UInt64 × Str)} {x : Bm25Index F} (h : Holds k1 b docs x) (query : Str) :
    x.queryTerms query = (firstSeen docs (bm25Tokenize query)).filterMap fun t => x.vocab[t]? := by
  have hrun : ∀ (tokens : List Str) (s : List Nat × BTreeMap Nat Unit) (seen : List Str),
      s.1 = seen.filterMap (fun t => x.vocab[t]?) → (∀ tid, tid ∈ s.2 ↔ ∃ t ∈ seen, x.vocab[t]? = some tid) →
      (tokens.foldl x.seeTerm s).1 =
        (tokens.foldl (fun seen t => if occurs docs t ∧ t ∉ seen then seen ++ [t] else seen) seen).filterMap
          fun t => x.vocab[t]? := by
    intro tokens
    induction tokens with
    | nil => exact fun s seen hs _ => hs
    | cons tok tokens ih =>
      intro s seen hs hseen
      rw [List.foldl_cons, List.foldl_cons, seeTerm]
      cases htok : x.vocab[tok]? with
      | none =>
        have hnot : ¬ occurs docs tok := fun hocc => by
          obtain ⟨i, hi⟩ := (h.indexed.vocab tok).mpr hocc
          cases htok.symm.trans hi
        rw [if_neg fun hboth => hnot hboth.1]
        exact ih s seen hs hseen
      | some tid =>
        have hocc : occurs docs tok := (h.indexed.vocab tok).mp ⟨tid, htok⟩
        -- The number was seen exactly when its only term was.
        have hold : tid ∈ s.2 ↔ tok ∈ seen := by
          rw [hseen]
          constructor
          · rintro ⟨t, ht, htid⟩
            rwa [h.indexed.inj tok t tid htok htid]
          · exact fun ht => ⟨tok, ht, htok⟩
        by_cases ht : tok ∈ seen
        · rw [if_neg fun hboth => hboth.2 ht]
          refine ih _ seen ?_ fun i => ?_
          · dsimp only
            rw [if_pos (ExtTreeMap.contains_iff_mem.mpr (hold.mpr ht))]
            exact hs
          · rw [ExtTreeMap.mem_insert, LawfulEqOrd.compare_eq_iff_eq, hseen]
            exact or_iff_right_of_imp (by rintro rfl; exact ⟨tok, ht, htok⟩)
        · rw [if_pos ⟨hocc, ht⟩]
          refine ih _ (seen ++ [tok]) ?_ fun i => ?_
          · dsimp only
            rw [if_neg fun hc => ht (hold.mp (ExtTreeMap.contains_iff_mem.mp hc))]
            simp [hs, htok]
          · rw [ExtTreeMap.mem_insert, LawfulEqOrd.compare_eq_iff_eq, hseen]
            simp only [List.mem_append, List.mem_singleton, or_and_right, exists_or, exists_eq_left]
            rw [htok, Option.some.injEq, or_comm]
  exact hrun (bm25Tokenize query) ([], ∅) [] rfl (by simp)

end

/-! ### Scores -/

section

variable {F : Type} [Scalar F] [UnicodeText]

def scoreStep (x : Bm25Index F) (docs : List (UInt64 × Str)) (text : Str) (score : Option F) (t : Str) : Option F :=
  if t ∈ bm25Tokenize text then
    some (score.getD (Scalar.lit 0) +
      x.weight (postingsOf docs t).length (frequency t text) (UInt32.ofNat (bm25Tokenize text).length))
  else score

/-- The score of a document with this text, if it has one of the terms. -/
def docScore (x : Bm25Index F) (docs : List (UInt64 × Str)) (terms : List Str) (text : Str) : Option F :=
  terms.foldl (x.scoreStep docs text) none

omit [Scalar F] in
theorem mem_postingsOf {docs : List (UInt64 × Str)} {t : Str} {p : Nat × UInt32} :
    p ∈ postingsOf docs t ↔ ∃ d, docs[p.1]? = some d ∧ t ∈ bm25Tokenize d.2 ∧ p.2 = frequency t d.2 := by
  simp only [postingsOf, List.mem_map, List.mem_filter, decide_eq_true_eq]
  constructor
  · rintro ⟨⟨d, i⟩, ⟨he, ht⟩, rfl⟩
    exact ⟨d, List.mem_zipIdx_iff_getElem?.mp he, ht, rfl⟩
  · rintro ⟨d, hd, ht, hp⟩
    exact ⟨(d, p.1), ⟨List.mem_zipIdx_iff_getElem?.mpr hd, ht⟩, Prod.ext rfl hp.symm⟩

theorem pairwise_postingsOf (docs : List (UInt64 × Str)) (t : Str) :
    (postingsOf docs t).Pairwise fun p q => p.1 ≠ q.1 := by
  rw [postingsOf, List.pairwise_map]
  refine List.Pairwise.filter _ ?_
  have hrange : (docs.zipIdx.map (·.2)).Nodup := by
    rw [List.zipIdx_map_snd]
    exact List.nodup_range'
  exact List.pairwise_map.mp hrange

omit [UnicodeText] in
theorem getElem?_foldl_insert (g : Nat × UInt32 → F) {l : List (Nat × UInt32)} (h : l.Pairwise fun p q => p.1 ≠ q.1)
    (acc : BTreeMap Nat F) (i : Nat) :
    (∀ p ∈ l, p.1 = i → (l.foldl (fun (acc : BTreeMap Nat F) p =>
      acc.insert p.1 ((acc[p.1]?).getD (Scalar.lit 0) + g p)) acc)[i]? =
        some ((acc[i]?).getD (Scalar.lit 0) + g p)) ∧
    ((∀ p ∈ l, p.1 ≠ i) → (l.foldl (fun (acc : BTreeMap Nat F) p =>
      acc.insert p.1 ((acc[p.1]?).getD (Scalar.lit 0) + g p)) acc)[i]? = acc[i]?) := by
  induction l generalizing acc with
  | nil => exact ⟨nofun, fun _ => rfl⟩
  | cons q l ih =>
    obtain ⟨hq, hl⟩ := List.pairwise_cons.mp h
    have hne : ∀ {j}, q.1 ≠ j → (acc.insert q.1 ((acc[q.1]?).getD (Scalar.lit 0) + g q))[j]? = acc[j]? := by
      intro j hj
      rw [ExtTreeMap.getElem?_insert, if_neg (by rwa [LawfulEqOrd.compare_eq_iff_eq])]
    rw [List.foldl_cons]
    refine ⟨fun p hp hpi => ?_, fun hfree => ?_⟩
    · rcases List.mem_cons.mp hp with rfl | hp
      · subst hpi
        rw [(ih hl _).2 fun p' hp' heq => hq p' hp' heq.symm, ExtTreeMap.getElem?_insert_self]
      · rw [(ih hl _).1 p hp hpi, hne (by rw [← hpi]; exact hq p hp)]
    · rw [(ih hl _).2 fun p hp => hfree p (List.mem_cons_of_mem q hp), hne (hfree q List.mem_cons_self)]

theorem getElem?_scoreTerm {k1 b : F} {docs : List (UInt64 × Str)} {x : Bm25Index F} (h : Holds k1 b docs x) {t : Str}
    {tid : Nat} (ht : x.vocab[t]? = some tid) (acc : BTreeMap Nat F) (i : Nat) :
    (x.scoreTerm acc tid)[i]? = (docs[i]?).elim acc[i]? fun d => x.scoreStep docs d.2 acc[i]? t := by
  let g : Nat × UInt32 → F := fun p => x.weight (postingsOf docs t).length p.2 ((x.docLen[p.1]?).getD 0)
  have hfold := getElem?_foldl_insert g (pairwise_postingsOf docs t) acc i
  rw [scoreTerm, h.indexed.postings t tid ht, Option.getD_some]
  cases hd : docs[i]? with
  | none =>
    refine hfold.2 fun p hp heq => ?_
    obtain ⟨d, hget, -⟩ := mem_postingsOf.mp hp
    rw [heq, hd] at hget
    cases hget
  | some d =>
    rw [Option.elim_some, scoreStep]
    by_cases hmem : t ∈ bm25Tokenize d.2
    · have hp : (i, frequency t d.2) ∈ postingsOf docs t := mem_postingsOf.mpr ⟨d, hd, hmem, rfl⟩
      have hlen : (x.docLen[i]?).getD 0 = UInt32.ofNat (bm25Tokenize d.2).length := by
        rw [h.docLen, List.getElem?_map, hd]
        rfl
      rw [hfold.1 _ hp rfl, if_pos hmem, ← hlen]
    · rw [if_neg hmem]
      refine hfold.2 fun p hp heq => ?_
      obtain ⟨d', hget, ht', -⟩ := mem_postingsOf.mp hp
      rw [heq, hd] at hget
      cases hget
      exact hmem ht'

theorem getElem?_foldl_scoreTerm {k1 b : F} {docs : List (UInt64 × Str)} {x : Bm25Index F} (h : Holds k1 b docs x)
    {terms : List Str} (hterms : ∀ t ∈ terms, occurs docs t) (acc : BTreeMap Nat F) (i : Nat) :
    ((terms.filterMap fun t => x.vocab[t]?).foldl x.scoreTerm acc)[i]? =
      (docs[i]?).elim acc[i]? fun d => terms.foldl (x.scoreStep docs d.2) acc[i]? := by
  induction terms generalizing acc with
  | nil => cases docs[i]? <;> rfl
  | cons t terms ih =>
    obtain ⟨tid, htid⟩ := (h.indexed.vocab t).mpr (hterms t List.mem_cons_self)
    rw [List.filterMap_cons_some htid, List.foldl_cons, ih fun t ht => hterms t (List.mem_cons_of_mem _ ht),
      getElem?_scoreTerm h htid]
    cases docs[i]? <;> rfl

omit [Scalar F] in
theorem occurs_of_mem_firstSeen {docs : List (UInt64 × Str)} {tokens : List Str} {t : Str}
    (h : t ∈ firstSeen docs tokens) : occurs docs t := by
  have hrun : ∀ (tokens seen : List Str), (∀ t ∈ seen, occurs docs t) →
      ∀ t ∈ tokens.foldl (fun seen t => if occurs docs t ∧ t ∉ seen then seen ++ [t] else seen) seen,
        occurs docs t := by
    intro tokens
    induction tokens with
    | nil => exact fun seen h => h
    | cons tok tokens ih =>
      intro seen hseen
      rw [List.foldl_cons]
      refine ih _ ?_
      split_ifs with htok
      · rw [List.forall_mem_append]
        exact ⟨hseen, List.forall_mem_singleton.mpr htok.1⟩
      · exact hseen
  exact hrun tokens [] (List.forall_mem_nil _) t h

def scored (x : Bm25Index F) (docs : List (UInt64 × Str)) (terms : List Str) (d : UInt64 × Str) : Option (Scored F) :=
  (x.docScore docs terms d.2).map fun score => ⟨d.1, score⟩

/-- What an index scores is its documents. -/
theorem perm_scores {k1 b : F} {docs : List (UInt64 × Str)} {x : Bm25Index F} (h : Holds k1 b docs x) (query : Str) :
    (x.scores query).Perm (docs.filterMap (x.scored docs (firstSeen docs (bm25Tokenize query)))) := by
  let terms := firstSeen docs (bm25Tokenize query)
  let acc : BTreeMap Nat F := (x.queryTerms query).foldl x.scoreTerm ∅
  let entry : (UInt64 × Str) × Nat → Option (Nat × F) := fun e =>
    (x.docScore docs terms e.1.2).map fun score => (e.2, score)
  have hterms : ∀ t ∈ terms, occurs docs t := fun t ht => occurs_of_mem_firstSeen ht
  have hget : ∀ i : Nat, acc[i]? = (docs[i]?).bind fun d : UInt64 × Str => x.docScore docs terms d.2 := by
    intro i
    have hfold := getElem?_foldl_scoreTerm h hterms ∅ i
    rw [← queryTerms_eq h] at hfold
    refine hfold.trans ?_
    cases docs[i]? <;> simp [docScore, terms]
  have hmem : ∀ e, e ∈ acc.toList ↔ e ∈ docs.zipIdx.filterMap entry := by
    intro e
    obtain ⟨i, score⟩ := e
    rw [ExtTreeMap.mem_toList_iff_getElem?_eq_some, hget, Option.bind_eq_some_iff, List.mem_filterMap]
    constructor
    · rintro ⟨d, hd, hscore⟩
      exact ⟨(d, i), List.mem_zipIdx_iff_getElem?.mpr hd, Option.map_eq_some_iff.mpr ⟨score, hscore, rfl⟩⟩
    · rintro ⟨⟨d, j⟩, hd, hentry⟩
      obtain ⟨score', hscore, heq⟩ := Option.map_eq_some_iff.mp hentry
      cases heq
      exact ⟨d, List.mem_zipIdx_iff_getElem?.mp hd, hscore⟩
  have hnodup : acc.toList.Nodup :=
    ExtTreeMap.distinct_keys_toList.imp fun hne heq => hne (by rw [heq]; exact ReflCmp.compare_self)
  have hnodup' : (docs.zipIdx.filterMap entry).Nodup := by
    have hzip : docs.zipIdx.Pairwise fun e e' => e.2 ≠ e'.2 := by
      refine List.pairwise_map.mp ?_
      rw [List.zipIdx_map_snd]
      exact List.nodup_range'
    refine hzip.filterMap entry fun e e' hne p hp p' hp' heq => hne ?_
    obtain ⟨_, _, rfl⟩ := Option.map_eq_some_iff.mp hp
    obtain ⟨_, _, rfl⟩ := Option.map_eq_some_iff.mp hp'
    exact congrArg Prod.fst heq
  have hids : (docs.zipIdx.filterMap entry).map (fun e => (⟨(x.ids[e.1]?).getD 0, e.2⟩ : Scored F)) =
      docs.filterMap (x.scored docs terms) := by
    rw [List.map_filterMap]
    have hzip : docs.filterMap (x.scored docs terms) = (docs.zipIdx.map (·.1)).filterMap (x.scored docs terms) := by
      rw [List.zipIdx_map_fst]
    rw [hzip, List.filterMap_map]
    refine List.filterMap_congr fun e he => ?_
    have hid : (x.ids[e.2]?).getD 0 = e.1.1 := by
      rw [h.ids, List.getElem?_map, List.mem_zipIdx_iff_getElem?.mp he]
      rfl
    simp [entry, scored, hid, Function.comp_def]
  rw [scores, ← hids]
  exact ((List.perm_ext_iff_of_nodup hnodup hnodup').mpr hmem).map _

end

end Bm25Index

end Ccos.Retrieval
