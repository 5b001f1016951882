import Mathlib.Data.List.Basic

/-!
# Literals and back-references

A text is cut into tokens: a literal is one item, and a reference copies items of what came before. A copy
may overlap what it writes. Any cut whose references were compared with the text expands to the text, so a
round trip does not depend on how the references were found.
-/

namespace SlidingWindow

variable {α : Type}

inductive Token (α : Type) where
  | literal (a : α)
  | backRef (off len : Nat)
  deriving DecidableEq

/-- Appends the items from `start` on, one by one. -/
def copyFrom : Nat → Nat → List α → List α
  | _, 0, out => out
  | start, n + 1, out => copyFrom (start + 1) n (out ++ (out[start]?).toList)

/-- `none` when a reference points before the start. -/
def expand : List α → List (Token α) → Option (List α)
  | out, [] => some out
  | out, .literal a :: ts => expand (out ++ [a]) ts
  | out, .backRef off len :: ts =>
    if out.length < off then none else expand (copyFrom (out.length - off) len out) ts

theorem expand_append (out : List α) (ts us : List (Token α)) :
    expand out (ts ++ us) = (expand out ts).bind fun out => expand out us := by
  induction ts generalizing out with
  | nil => rfl
  | cons t ts ih =>
    cases t with
    | literal a => exact ih _
    | backRef off len =>
      rw [List.cons_append, expand, expand]
      split
      · rfl
      · exact ih _

/-- The text from `pos` repeats what is `off` before it. -/
structure Repeats (data : List α) (pos off len : Nat) : Prop where
  off_pos : 1 ≤ off
  off_le : off ≤ pos
  inside : pos + len ≤ data.length
  same : ∀ k < len, data[pos - off + k]? = data[pos + k]?

/-- The tokens say what the text has between two positions. -/
inductive Covers (data : List α) : Nat → List (Token α) → Nat → Prop where
  | nil (pos : Nat) : Covers data pos [] pos
  | literal {pos stop : Nat} {a : α} {ts : List (Token α)} (found : data[pos]? = some a)
      (rest : Covers data (pos + 1) ts stop) : Covers data pos (.literal a :: ts) stop
  | backRef {pos stop off len : Nat} {ts : List (Token α)} (found : Repeats data pos off len)
      (rest : Covers data (pos + len) ts stop) : Covers data pos (.backRef off len :: ts) stop

theorem Covers.append {data : List α} {i j k : Nat} {ts us : List (Token α)} (h : Covers data i ts j)
    (h' : Covers data j us k) : Covers data i (ts ++ us) k := by
  induction h with
  | nil => exact h'
  | literal found _ ih => exact .literal found (ih h')
  | backRef found _ ih => exact .backRef found (ih h')

theorem take_succ_of_getElem? {data : List α} {pos : Nat} {a : α} (h : data[pos]? = some a) :
    data.take pos ++ [a] = data.take (pos + 1) := by
  rw [List.take_add_one, h]
  rfl

theorem copyFrom_take {data : List α} {pos start n : Nat} (hlt : start < pos) (hinside : pos + n ≤ data.length)
    (hsame : ∀ k < n, data[start + k]? = data[pos + k]?) :
    copyFrom start n (data.take pos) = data.take (pos + n) := by
  induction n generalizing pos start with
  | zero => rfl
  | succ n ih =>
    have hfirst : (data.take pos)[start]? = data[pos]? := by
      rw [List.getElem?_take_of_lt hlt]
      exact hsame 0 (Nat.succ_pos n)
    have hbound : pos < data.length := by omega
    rw [copyFrom, hfirst, List.getElem?_eq_getElem hbound]
    have hgrown := take_succ_of_getElem? (List.getElem?_eq_getElem hbound)
    rw [Option.toList_some, hgrown, ih (by omega) (by omega)]
    · rw [Nat.add_assoc, Nat.add_comm 1 n]
    · intro k hk
      rw [Nat.add_right_comm start, Nat.add_right_comm pos]
      exact hsame (k + 1) (Nat.succ_lt_succ hk)

/-- What the tokens cover is what they expand to. -/
theorem expand_of_covers {data : List α} {i j : Nat} {ts : List (Token α)} (h : Covers data i ts j) :
    expand (data.take i) ts = some (data.take j) := by
  induction h with
  | nil pos => rfl
  | literal found _ ih => rw [expand, take_succ_of_getElem? found, ih]
  | @backRef pos stop off len ts found rest ih =>
    have := found.off_pos
    have := found.off_le
    have := found.inside
    have hlen : (data.take pos).length = pos := List.length_take_of_le (by omega)
    rw [expand, hlen, if_neg (by omega), copyFrom_take (by omega) found.inside found.same, ih]

theorem expand_of_covers_all {data : List α} {ts : List (Token α)} (h : Covers data 0 ts data.length) :
    expand [] ts = some data := by
  have hall := expand_of_covers h
  rwa [List.take_zero, List.take_length] at hall

end SlidingWindow
