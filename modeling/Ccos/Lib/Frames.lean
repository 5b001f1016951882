import Ccos.Lib.ByteCodec

/-!
# Frames on a connection

A frame is a payload after its length, big-endian in four bytes. Its bytes reach the other side in any number of pieces,
and what a reader makes of those that have arrived depends on nothing else.
-/

namespace Frames

open ByteCodec

def lengthPrefix (n : Nat) : Bytes := (leOf 4 n).reverse

def frame (payload : Bytes) : Bytes := lengthPrefix payload.length ++ payload

/-- What a reader makes of the bytes it has: it reads on, this many bytes at most, refuses the length, or has the
payload. -/
inductive Progress
  | wants (n : Nat)
  | tooLong (len : Nat)
  | complete (payload : Bytes)
  deriving DecidableEq

def progress (limit : Nat) (got : Bytes) : Progress :=
  if got.length < 4 then .wants (4 - got.length)
  else
    let len := leTo (got.take 4).reverse
    if limit < len then .tooLong len
    else if got.length < 4 + len then .wants (4 + len - got.length)
    else .complete ((got.drop 4).take len)

@[simp] theorem length_lengthPrefix (n : Nat) : (lengthPrefix n).length = 4 := by
  rw [lengthPrefix, List.length_reverse, length_leOf]

theorem length_frame (payload : Bytes) : (frame payload).length = 4 + payload.length := by
  rw [frame, List.length_append, length_lengthPrefix]

theorem frame_ne_nil (payload : Bytes) : frame payload ≠ [] :=
  List.ne_nil_of_length_pos (by rw [length_frame]; omega)

section

variable {limit : Nat} {payload : Bytes}

theorem leTo_lengthPrefix {n : Nat} (hlimit : limit < 2 ^ 32) (hle : n ≤ limit) :
    leTo (lengthPrefix n).reverse = n := by
  rw [lengthPrefix, List.reverse_reverse]
  exact leTo_leOf_of_lt (hle.trans_lt hlimit)

theorem progress_frame (hlimit : limit < 2 ^ 32) (hle : payload.length ≤ limit) :
    progress limit (frame payload) = .complete payload := by
  have htake : (frame payload).take 4 = lengthPrefix payload.length := List.take_left' (length_lengthPrefix _)
  have hdrop : (frame payload).drop 4 = payload := List.drop_left' (length_lengthPrefix _)
  have hlength := length_frame payload
  simp only [progress, htake, hdrop, leTo_lengthPrefix hlimit hle]
  rw [if_neg (by omega), if_neg (by omega), if_neg (by omega), List.take_length]

/-- As long as a part of the frame is missing, the reader wants no more than that part. -/
theorem progress_part {got rest : Bytes} (hlimit : limit < 2 ^ 32) (hle : payload.length ≤ limit)
    (hparts : got ++ rest = frame payload) (hrest : rest ≠ []) :
    ∃ n, progress limit got = .wants n ∧ 0 < n ∧ n ≤ rest.length := by
  have hlength := congrArg List.length hparts
  rw [List.length_append, length_frame] at hlength
  have hpos : 0 < rest.length := List.length_pos_iff.mpr hrest
  by_cases hshort : got.length < 4
  · exact ⟨_, by rw [progress, if_pos hshort], by omega, by omega⟩
  · have htake : got.take 4 = lengthPrefix payload.length := by
      rw [← List.take_append_of_le_length (Nat.le_of_not_lt hshort), hparts]
      exact List.take_left' (length_lengthPrefix _)
    refine ⟨4 + payload.length - got.length, ?_, by omega, by omega⟩
    simp only [progress, htake, leTo_lengthPrefix hlimit hle]
    rw [if_neg hshort, if_neg (by omega), if_pos (by omega)]

/-- A reader that has only bytes of the frame wants more of it or has the payload. -/
theorem progress_cases {got rest : Bytes} (hlimit : limit < 2 ^ 32) (hle : payload.length ≤ limit)
    (hparts : got ++ rest = frame payload) :
    progress limit got = .complete payload ∧ rest = [] ∨ ∃ n, progress limit got = .wants n ∧ 0 < n ∧ rest ≠ [] := by
  by_cases hrest : rest = []
  · rw [hrest, List.append_nil] at hparts
    exact .inl ⟨hparts ▸ progress_frame hlimit hle, hrest⟩
  · obtain ⟨n, hn, hpos, -⟩ := progress_part hlimit hle hparts hrest
    exact .inr ⟨n, hn, hpos, hrest⟩

end

/-! ## One direction of a connection -/

/-- The bytes that the sender has still to write, those on their way, and those that the receiver has read. -/
structure Pipe where
  unsent : Bytes
  inFlight : Bytes
  received : Bytes
  deriving DecidableEq

namespace Pipe

def start (bytes : Bytes) : Pipe := ⟨bytes, [], []⟩

/-- One write takes `n` bytes at most. -/
def send (n : Nat) (p : Pipe) : Pipe := ⟨p.unsent.drop n, p.inFlight ++ p.unsent.take n, p.received⟩

/-- One read returns `n` bytes at most. -/
def receive (n : Nat) (p : Pipe) : Pipe := ⟨p.unsent, p.inFlight.drop n, p.received ++ p.inFlight.take n⟩

def whole (p : Pipe) : Bytes := p.received ++ (p.inFlight ++ p.unsent)

/-- How often the bytes have still to move. -/
def load (p : Pipe) : Nat := 2 * p.unsent.length + p.inFlight.length

variable {p : Pipe}

@[simp] theorem whole_start (bytes : Bytes) : (start bytes).whole = bytes := rfl

@[simp] theorem whole_send (n : Nat) (p : Pipe) : (p.send n).whole = p.whole := by
  rw [whole, whole, send, List.append_assoc, List.take_append_drop]

@[simp] theorem whole_receive (n : Nat) (p : Pipe) : (p.receive n).whole = p.whole := by
  rw [whole, whole, receive, List.append_assoc, ← List.append_assoc (List.take n _), List.take_append_drop]

theorem load_start (bytes : Bytes) : (start bytes).load = 2 * bytes.length := rfl

/-- A write that takes a byte lightens the load. -/
theorem load_send {n : Nat} (h : p.send n ≠ p) : (p.send n).load < p.load := by
  have hne : p.unsent ≠ [] ∧ n ≠ 0 := by
    refine ⟨fun hnil => h ?_, fun hzero => h ?_⟩
    · simp only [send, hnil, List.drop_nil, List.take_nil, List.append_nil]
      rw [← hnil]
    · simp only [send, hzero, List.drop_zero, List.take_zero, List.append_nil]
  have hpos : 0 < p.unsent.length := List.length_pos_iff.mpr hne.1
  simp only [load, send, List.length_drop, List.length_append, List.length_take]
  omega

theorem load_receive {n : Nat} (h : p.receive n ≠ p) : (p.receive n).load < p.load := by
  have hne : p.inFlight ≠ [] ∧ n ≠ 0 := by
    refine ⟨fun hnil => h ?_, fun hzero => h ?_⟩
    · simp only [receive, hnil, List.drop_nil, List.take_nil, List.append_nil]
      rw [← hnil]
    · simp only [receive, hzero, List.drop_zero, List.take_zero, List.append_nil]
  have hpos : 0 < p.inFlight.length := List.length_pos_iff.mpr hne.1
  simp only [load, receive, List.length_drop]
  omega

theorem send_ne {n : Nat} (h : p.unsent ≠ []) (hn : 0 < n) : p.send n ≠ p := by
  have hpos : 0 < p.unsent.length := List.length_pos_iff.mpr h
  intro heq
  have hlength := congrArg (fun q => q.unsent.length) heq
  simp only [send, List.length_drop] at hlength
  omega

theorem receive_ne {n : Nat} (h : p.inFlight ≠ []) (hn : 0 < n) : p.receive n ≠ p := by
  have hpos : 0 < p.inFlight.length := List.length_pos_iff.mpr h
  intro heq
  have hlength := congrArg (fun q => q.inFlight.length) heq
  simp only [receive, List.length_drop] at hlength
  omega

end Pipe

end Frames
