import Mathlib.Tactic.Linarith
import Mathlib.Data.List.Basic
import Mathlib.Tactic.Tauto
import Mathlib.Data.Finset.Card
import Mathlib.Data.Finset.Dedup

/-!
# Indexes kept beside a store

Each answers from what it keeps while that still agrees with the store.
-/

/-!
## A cache validated by a key

A cache holds one value and the key it was computed under. A reader compares the key with the
current one and recomputes on a mismatch, so the cache is right as long as equal keys mean equal
values. Readers look at a value through a view, and only views have to agree.
-/

namespace KeyedCache

variable {K V W : Type}

abbrev Cache (K V : Type) := Option (K × V)

/-- A read under `key` shows what the fresh value shows. -/
def Coherent (view : V → W) (cache : Cache K V) (key : K) (fresh : V) : Prop :=
  ∀ v, cache = some (key, v) → view v = view fresh

@[simp] theorem coherent_none (view : V → W) (key : K) (fresh : V) : Coherent view none key fresh := by
  intro v h
  cases h

theorem coherent_of_key_ne {view : V → W} {k key : K} {v fresh : V} (h : k ≠ key) :
    Coherent view (some (k, v)) key fresh := by
  intro w hw
  cases hw
  exact absurd rfl h

variable [DecidableEq K]

/-- What a reader gets under `key` when `fresh` is the value computed now. -/
def read (cache : Cache K V) (key : K) (fresh : V) : V :=
  match cache with
  | some (k, v) => if k = key then v else fresh
  | none => fresh

/-- The cache a reader leaves behind. -/
def fill (cache : Cache K V) (key : K) (fresh : V) : Cache K V := some (key, read cache key fresh)

theorem view_read_iff_coherent (view : V → W) (cache : Cache K V) (key : K) (fresh : V) :
    view (read cache key fresh) = view fresh ↔ Coherent view cache key fresh := by
  cases cache with
  | none => simp [read]
  | some kv =>
    obtain ⟨k, v⟩ := kv
    by_cases hk : k = key
    · subst hk
      simp [read, Coherent]
    · simp [read, hk, coherent_of_key_ne hk]

theorem coherent_fill {view : V → W} {cache : Cache K V} {key : K} {fresh : V}
    (h : Coherent view cache key fresh) : Coherent view (fill cache key fresh) key fresh := by
  intro v hv
  simp only [fill, Option.some.injEq, Prod.mk.injEq, true_and] at hv
  subst hv
  exact (view_read_iff_coherent view cache key fresh).mpr h

/-- A fill keeps the cache of the current key, and recomputes any other. -/
theorem fill_cases (cache : Cache K V) (key : K) (fresh : V) :
    fill cache key fresh = cache ∨ fill cache key fresh = some (key, fresh) := by
  cases cache with
  | none => exact Or.inr rfl
  | some kv =>
    obtain ⟨k, v⟩ := kv
    by_cases hk : k = key
    · subst hk
      exact Or.inl (by simp [fill, read])
    · exact Or.inr (by simp [fill, read, hk])

end KeyedCache

/-!
## A symmetric index over one-sided rows

A link between two points is filed in the row of one of them. The index lists every link from both
sides, so that the neighbours of a point are read without a visit to the rows of the others. Rows come
and go whole, and each takes its own links in and out of the index. That is right as long as no link
is filed twice. Links of a point with itself are left out of account.
-/

namespace MirrorIndex

variable {α : Type}

/-- The index lists the filed links, from both sides. -/
def Mirrors (index filed : α → α → Prop) : Prop := ∀ a b, a ≠ b → (index a b ↔ filed a b ∨ filed b a)

/-- No link is in the rows of both its ends. -/
def FiledOnce (filed : α → α → Prop) : Prop := ∀ a b, a ≠ b → filed a b → ¬ filed b a

/-- The same links. -/
def Same (p q : α → α → Prop) : Prop := ∀ a b, a ≠ b → (p a b ↔ q a b)

def fileRow (filed : α → α → Prop) (x : α) (row : List α) : α → α → Prop :=
  fun a b => filed a b ∨ (a = x ∧ b ∈ row)

def dropRow (filed : α → α → Prop) (x : α) : α → α → Prop := fun a b => filed a b ∧ a ≠ x

def link (index : α → α → Prop) (x : α) (row : List α) : α → α → Prop :=
  fun a b => index a b ∨ (a = x ∧ b ∈ row) ∨ (b = x ∧ a ∈ row)

def unlink (index : α → α → Prop) (x : α) (row : List α) : α → α → Prop :=
  fun a b => index a b ∧ ¬(a = x ∧ b ∈ row) ∧ ¬(b = x ∧ a ∈ row)

theorem mirrors_empty : Mirrors (fun _ _ : α => False) fun _ _ => False := by simp [Mirrors]

theorem filedOnce_empty : FiledOnce fun _ _ : α => False := fun _ _ _ h => h.elim

theorem Mirrors.congr {index index' filed filed' : α → α → Prop} (h : Mirrors index filed)
    (hindex : Same index' index) (hfiled : Same filed' filed) : Mirrors index' filed' := by
  intro a b hne
  rw [hindex a b hne, hfiled a b hne, hfiled b a hne.symm]
  exact h a b hne

theorem FiledOnce.congr {filed filed' : α → α → Prop} (h : FiledOnce filed) (hfiled : Same filed' filed) :
    FiledOnce filed' := by
  intro a b hne
  rw [hfiled a b hne, hfiled b a hne.symm]
  exact h a b hne

/-! ## A row is filed -/

theorem Mirrors.fileRow {index filed : α → α → Prop} (h : Mirrors index filed) (x : α) (row : List α) :
    Mirrors (link index x row) (fileRow filed x row) := by
  intro a b hne
  unfold link MirrorIndex.fileRow
  rw [h a b hne]
  tauto

/-- A row may be filed when none of the points it links to files the link already. -/
theorem FiledOnce.fileRow {filed : α → α → Prop} (h : FiledOnce filed) {x : α} {row : List α}
    (hfree : ∀ b ∈ row, b ≠ x → ¬ filed b x) : FiledOnce (fileRow filed x row) := by
  rintro a b hne (hab | ⟨rfl, hb⟩) (hba | ⟨rfl, ha⟩)
  · exact h a b hne hab hba
  · exact hfree a ha hne hab
  · exact hfree b hb hne.symm hba
  · exact hne rfl

theorem foldl_fileRow_iff (rows : List (α × List α)) (filed : α → α → Prop) (a b : α) :
    rows.foldl (fun filed row => MirrorIndex.fileRow filed row.1 row.2) filed a b ↔
      filed a b ∨ ∃ row ∈ rows, a = row.1 ∧ b ∈ row.2 := by
  induction rows generalizing filed with
  | nil => simp
  | cons row rows ih =>
    rw [List.foldl_cons, ih, MirrorIndex.fileRow]
    simp only [List.mem_cons, exists_eq_or_imp, or_assoc]

/-! ## A row is dropped -/

/-- Its links leave the index from both sides, which no other row answers for. -/
theorem Mirrors.dropRow {index filed : α → α → Prop} (h : Mirrors index filed) (honce : FiledOnce filed)
    {x : α} {row : List α} (hrow : ∀ b, b ≠ x → (b ∈ row ↔ filed x b)) :
    Mirrors (unlink index x row) (dropRow filed x) := by
  intro a b hne
  unfold unlink MirrorIndex.dropRow
  rw [h a b hne]
  by_cases ha : a = x
  · subst ha
    have hb := hrow b hne.symm
    have := honce a b hne
    tauto
  · by_cases hb : b = x
    · subst hb
      have ha := hrow a hne
      have := honce b a hne.symm
      tauto
    · tauto

theorem FiledOnce.dropRow {filed : α → α → Prop} (h : FiledOnce filed) (x : α) :
    FiledOnce (dropRow filed x) :=
  fun a b hne hab hba => h a b hne hab.1 hba.1

end MirrorIndex

/-!
## A membership index validated by its size

A set mirrors the elements of a list so that membership takes constant time. The set is taken as it
is when it has as many elements as the list, and rebuilt otherwise. The size test is sound as long
as equal sizes mean equal contents.
-/

namespace CountedIndex

variable {α : Type} [DecidableEq α]

/-- What the size test relies on. -/
def Sound (s : Finset α) (l : List α) : Prop := s.card = l.length → s = l.toFinset

/-- The index a reader uses. -/
def synced (s : Finset α) (l : List α) : Finset α := if s.card ≠ l.length then l.toFinset else s

theorem synced_of_card_eq {s : Finset α} {l : List α} (h : s.card = l.length) : synced s l = s := by
  simp [synced, h]

theorem synced_of_card_ne {s : Finset α} {l : List α} (h : s.card ≠ l.length) :
    synced s l = l.toFinset := by
  simp [synced, h]

theorem Sound.synced_eq {s : Finset α} {l : List α} (h : Sound s l) : synced s l = l.toFinset := by
  by_cases hc : s.card = l.length
  · rw [synced_of_card_eq hc, h hc]
  · exact synced_of_card_ne hc

theorem synced_synced (s : Finset α) (l : List α) : synced (synced s l) l = synced s l := by
  by_cases hc : s.card = l.length
  · rw [synced_of_card_eq hc, synced_of_card_eq hc]
  · rw [synced_of_card_ne hc]
    unfold synced
    split <;> rfl

/-- Whatever the index was, a push leaves it with the new element and nothing else. -/
theorem synced_push {s : Finset α} {l : List α} {a : α} (ha : a ∉ synced s l) :
    synced (insert a (synced s l)) (l ++ [a]) = insert a (synced s l) := by
  by_cases hc : (insert a (synced s l)).card = (l ++ [a]).length
  · exact synced_of_card_eq hc
  · rw [synced_of_card_ne hc]
    rw [Finset.card_insert_of_notMem ha, List.length_append, List.length_singleton] at hc
    have hrebuilt : s.card ≠ l.length := by
      intro heq
      rw [synced_of_card_eq heq] at hc
      omega
    rw [synced_of_card_ne hrebuilt, List.toFinset_append, Finset.union_comm]
    rfl

/-! ## When the test is sound -/

theorem sound_empty (l : List α) : Sound ∅ l := by
  intro h
  rw [Finset.card_empty, eq_comm, List.length_eq_zero_iff] at h
  rw [h]
  rfl

theorem sound_toFinset (l : List α) : Sound l.toFinset l := fun _ => rfl

/-- An index that lists every element, and perhaps more, cannot be caught out. -/
theorem sound_of_subset {s : Finset α} {l : List α} (hsub : ∀ a ∈ l, a ∈ s) (hnd : l.Nodup) :
    Sound s l := by
  intro hc
  refine (Finset.eq_of_subset_of_card_le (fun a ha => hsub a (List.mem_toFinset.mp ha)) ?_).symm
  rw [List.toFinset_card_of_nodup hnd, hc]

/-- An index that answers yes on every element passes the size test rightly. -/
theorem sound_of_synced {s : Finset α} {l : List α} (hmem : ∀ a ∈ l, a ∈ synced s l) (hnd : l.Nodup) :
    Sound s l := by
  intro hc
  rw [synced_of_card_eq hc] at hmem
  exact sound_of_subset hmem hnd hc

theorem sound_synced {s : Finset α} {l : List α} (h : Sound s l) : Sound (synced s l) l := by
  rw [h.synced_eq]
  exact sound_toFinset l

/-! ## Pushing an element -/

/-- A sound index stays sound over the push of an element it does not list. -/
theorem sound_push {s : Finset α} {l : List α} {a : α} (h : Sound s l) :
    Sound (insert a (synced s l)) (l ++ [a]) := by
  intro _
  rw [h.synced_eq, List.toFinset_append, Finset.insert_eq, Finset.union_comm]
  rfl

theorem nodup_push {s : Finset α} {l : List α} {a : α} (h : Sound s l) (hnd : l.Nodup)
    (ha : a ∉ synced s l) : (l ++ [a]).Nodup := by
  rw [h.synced_eq, List.mem_toFinset] at ha
  rw [List.nodup_append]
  refine ⟨hnd, List.nodup_singleton a, ?_⟩
  intro b hb c hc
  rw [List.mem_singleton] at hc
  rintro rfl
  exact ha (hc ▸ hb)

/-- Pushes do not repair an index that has the right size and the wrong contents. -/
theorem not_sound_push {s : Finset α} {l : List α} {a : α} (h : ¬ Sound s l) (ha : a ∉ synced s l) :
    ¬ Sound (insert a (synced s l)) (l ++ [a]) := by
  unfold Sound at h
  rw [Classical.not_imp] at h
  obtain ⟨hc, hne⟩ := h
  rw [synced_of_card_eq hc] at ha ⊢
  have hcard : (insert a s).card = (l ++ [a]).length := by
    rw [Finset.card_insert_of_notMem ha, hc, List.length_append, List.length_singleton]
  intro hpush
  have heq := hpush hcard
  have hlist : (l ++ [a]).toFinset = insert a l.toFinset := by
    rw [List.toFinset_append, Finset.insert_eq, Finset.union_comm]
    rfl
  rw [hlist] at heq
  by_cases hal : a ∈ l
  · -- The element is there twice, so the list has fewer distinct elements than the index.
    rw [Finset.insert_eq_of_mem (List.mem_toFinset.mpr hal)] at heq
    have hle := List.toFinset_card_le l
    rw [← heq, Finset.card_insert_of_notMem ha] at hle
    omega
  · refine hne ?_
    have ha' : a ∉ l.toFinset := fun hm => hal (List.mem_toFinset.mp hm)
    rw [← Finset.erase_insert ha, heq, Finset.erase_insert ha']

end CountedIndex
