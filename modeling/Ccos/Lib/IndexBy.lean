import Ccos.Text

/-!
# Indexes that keep the last entry of a key

An index filled by plain insertion answers with the last entry of a key, whether there were others or not. Its
answers name the entry of a key only when no two entries share one.
-/

open Std

namespace Ccos

variable {α γ : Type} [Ord α] [TransOrd α]

def indexBy (key : γ → Option α) (l : List γ) : BTreeMap α γ :=
  l.foldl
    (fun m e =>
      match key e with
      | some k => m.insert k e
      | none => m)
    ∅

/-- No two entries of one key. -/
def KeysDistinct (key : γ → Option α) (l : List γ) : Prop :=
  ∀ k, ∀ e ∈ l, ∀ e' ∈ l, key e = some k → key e' = some k → e = e'

theorem indexBy_snoc (key : γ → Option α) (l : List γ) (e : γ) : indexBy key (l ++ [e]) =
    match key e with
    | some k => (indexBy key l).insert k e
    | none => indexBy key l := by
  unfold indexBy
  rw [List.foldl_append]
  rfl

variable [LawfulEqOrd α]

theorem mem_of_indexBy {key : γ → Option α} {l : List γ} {k : α} {e : γ} (h : (indexBy key l)[k]? = some e) :
    e ∈ l ∧ key e = some k := by
  induction l using List.reverseRecOn with
  | nil => exact absurd h (by simp [indexBy])
  | append_singleton l last ih =>
    rw [indexBy_snoc] at h
    cases hlast : key last with
    | none =>
      rw [hlast] at h
      exact ⟨List.mem_append_left _ (ih h).1, (ih h).2⟩
    | some k' =>
      simp only [hlast] at h
      rw [ExtTreeMap.getElem?_insert] at h
      split at h
      · rename_i hk
        cases h
        exact ⟨List.mem_append_right _ List.mem_cons_self, by rw [hlast, LawfulEqOrd.compare_eq_iff_eq.mp hk]⟩
      · exact ⟨List.mem_append_left _ (ih h).1, (ih h).2⟩

/-- The answer of a key that has entries is one of them. -/
theorem indexBy_total {key : γ → Option α} {l : List γ} {k : α} {e : γ} (he : e ∈ l) (hk : key e = some k) :
    ∃ e', (indexBy key l)[k]? = some e' := by
  induction l using List.reverseRecOn with
  | nil => exact absurd he List.not_mem_nil
  | append_singleton l last ih =>
    rw [indexBy_snoc]
    cases hlast : key last with
    | none =>
      rcases List.mem_append.mp he with he | he
      · exact ih he
      · rw [List.mem_singleton.mp he, hlast] at hk
        exact absurd hk (by simp)
    | some k' =>
      simp only
      rw [ExtTreeMap.getElem?_insert]
      split
      · exact ⟨last, rfl⟩
      · rename_i hne
        rcases List.mem_append.mp he with he | he
        · exact ih he
        · rw [List.mem_singleton.mp he, hlast] at hk
          cases hk
          exact absurd ReflOrd.compare_self hne

theorem indexBy_exact {key : γ → Option α} {l : List γ} (hd : KeysDistinct key l) {k : α} {e : γ} (he : e ∈ l)
    (hk : key e = some k) : (indexBy key l)[k]? = some e := by
  obtain ⟨e', h⟩ := indexBy_total he hk
  obtain ⟨he', hk'⟩ := mem_of_indexBy h
  rw [h, hd k e' he' e he hk' hk]

end Ccos
