import Ccos.Lib.ByteCodec

/-!
# Reading a file back

A file is read from its front, and every read says what it takes. What a writer wrote reads back as the value it was
given, and a file that was cut anywhere before its end does not read.
-/

namespace FileFormat

open ByteCodec

variable {E A B : Type}

/-- A read from the front of what is left of a file. -/
abbrev Reader (E A : Type) := StateT Bytes (Except E) A

/-- Exactly `n` bytes. -/
def takeBytes (eof : E) (n : Nat) : Reader E Bytes := fun bytes =>
  match takeExact n bytes with
  | some taken => .ok taken
  | none => .error eof

def natLe (eof : E) (width : Nat) : Reader E Nat := leTo <$> takeBytes eof width

/-- A check of how many bytes are left, which reads none of them. -/
def checkLeft (check : Nat → Except E Unit) : Reader E Unit := fun bytes =>
  (check bytes.length).map fun _ => ((), bytes)

/-- A check or a conversion of what was read. -/
def settle (result : Except E A) : Reader E A := fun bytes => result.map fun a => (a, bytes)

/-- The same record `n` times. -/
def times (r : Reader E A) : Nat → Reader E (List A)
  | 0 => pure []
  | n + 1 => do
    let a ← r
    let rest ← times r n
    pure (a :: rest)

/-- `w` reads back as `a` whatever comes after it, and what is cut before its end does not read. -/
structure Encodes (r : Reader E A) (w : Bytes) (a : A) : Prop where
  whole : ∀ rest, r (w ++ rest) = .ok (a, rest)
  torn : ∀ part, part <+: w → part ≠ w → ∃ e, r part = .error e

namespace Encodes

theorem pure (a : A) : Encodes (Pure.pure a : Reader E A) [] a where
  whole _ := rfl
  torn _ hpart hne := absurd (List.prefix_nil.mp hpart) hne

theorem settle {result : Except E A} {a : A} (h : result = .ok a) : Encodes (FileFormat.settle result) [] a := by
  rw [h]
  exact pure a

theorem takeBytes (eof : E) (b : Bytes) : Encodes (FileFormat.takeBytes eof b.length) b b where
  whole rest := by
    unfold FileFormat.takeBytes
    rw [takeExact_append]
  torn part hpart hne := by
    have hlt : part.length < b.length :=
      lt_of_le_of_ne hpart.length_le fun heq => hne (hpart.eq_of_length heq)
    refine ⟨eof, ?_⟩
    unfold FileFormat.takeBytes takeExact
    rw [if_neg (Nat.not_le.mpr hlt)]

variable {r : Reader E A} {f : A → Reader E B} {w w' : Bytes} {a : A} {b : B}

theorem bind (h : Encodes r w a) (h' : Encodes (f a) w' b) : Encodes (r >>= f) (w ++ w') b where
  whole rest := by
    show (r (w ++ w' ++ rest) >>= fun x => f x.1 x.2) = _
    rw [List.append_assoc, h.whole]
    exact h'.whole rest
  torn part hpart hne := by
    show ∃ e, (r part >>= fun x => f x.1 x.2) = .error e
    rcases List.prefix_or_prefix_of_prefix hpart (List.prefix_append w w') with hcut | ⟨more, rfl⟩
    · by_cases heq : part = w
      · subst heq
        have hread := h.whole []
        rw [List.append_nil] at hread
        rw [hread]
        refine h'.torn [] (List.nil_prefix) fun hnil => hne ?_
        rw [← hnil, List.append_nil]
      · obtain ⟨e, he⟩ := h.torn part hcut heq
        exact ⟨e, by rw [he]; rfl⟩
    · rw [h.whole]
      exact h'.torn more ((List.prefix_append_right_inj w).mp hpart) fun heq => hne (by rw [heq])

/-- A check that passed reads nothing. -/
theorem settled {result : Except E A} (hresult : result = .ok a) (h : Encodes (f a) w b) :
    Encodes (FileFormat.settle result >>= f) w b := (settle hresult).bind h

/-- The last read. -/
theorem bind_nil (h : Encodes r w a) (h' : Encodes (f a) [] b) : Encodes (r >>= f) w b := by
  have hbind := h.bind h'
  rwa [List.append_nil] at hbind

theorem bind_pure (h : Encodes r w a) (g : A → B) : Encodes (r >>= fun a => Pure.pure (g a)) w (g a) :=
  h.bind_nil (pure (g a))

/-- What fails after a value fails after its bytes. -/
theorem bind_error (h : Encodes r w a) {rest : Bytes} (hf : ∃ e, f a rest = .error e) :
    ∃ e, (r >>= f) (w ++ rest) = .error e := by
  show ∃ e, (r (w ++ rest) >>= fun x => f x.1 x.2) = .error e
  rw [h.whole]
  exact hf

theorem settled_error {result : Except E A} (hresult : result = .ok a) {rest : Bytes} (hf : ∃ e, f a rest = .error e) :
    ∃ e, (FileFormat.settle result >>= f) rest = .error e := (settle hresult).bind_error hf

theorem map (h : Encodes r w a) (g : A → B) : Encodes (g <$> r) w (g a) where
  whole rest := by
    show (fun x => (g x.1, x.2)) <$> r (w ++ rest) = _
    rw [h.whole]
    rfl
  torn part hpart hne := by
    obtain ⟨e, he⟩ := h.torn part hpart hne
    refine ⟨e, ?_⟩
    show (fun x => (g x.1, x.2)) <$> r part = _
    rw [he]
    rfl

/-- A number that is too large for its field reads back without its high bytes. -/
theorem natLe_mod (eof : E) (width n : Nat) :
    Encodes (FileFormat.natLe eof width) (leOf width n) (n % 256 ^ width) := by
  have h := (takeBytes eof (leOf width n)).map leTo
  rwa [length_leOf, leTo_leOf] at h

theorem natLe (eof : E) {width n : Nat} (hn : n < 256 ^ width) :
    Encodes (FileFormat.natLe eof width) (leOf width n) n := by
  have h := natLe_mod eof width n
  rwa [Nat.mod_eq_of_lt hn] at h

/-- A check that passes as long as what it guards is there. -/
theorem checkLeft {check : Nat → Except E Unit} (hcheck : ∀ n, w.length ≤ n → check n = .ok ()) (h : Encodes r w a) :
    Encodes (do FileFormat.checkLeft check; r) w a where
  whole rest := by
    show ((check (w ++ rest).length).map (fun _ => ((), w ++ rest)) >>= fun x => r x.2) = _
    rw [hcheck _ (by rw [List.length_append]; exact Nat.le_add_right _ _)]
    exact h.whole rest
  torn part hpart hne := by
    obtain ⟨e, he⟩ := h.torn part hpart hne
    show ∃ e, ((check part.length).map (fun _ => ((), part)) >>= fun x => r x.2) = .error e
    cases check part.length with
    | error e' => exact ⟨e', rfl⟩
    | ok _ => exact ⟨e, he⟩

theorem times {put : A → Bytes} {l : List A} (h : ∀ a ∈ l, Encodes r (put a) a) :
    Encodes (times r l.length) (l.flatMap put) l := by
  induction l with
  | nil => exact pure []
  | cons a l ih =>
    obtain ⟨ha, hl⟩ := List.forall_mem_cons.mp h
    rw [List.flatMap_cons, List.length_cons, FileFormat.times]
    refine ha.bind ?_
    rw [← List.append_nil (l.flatMap put)]
    exact (ih hl).bind (pure (a :: l))

end Encodes

end FileFormat
