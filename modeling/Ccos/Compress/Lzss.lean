import Ccos.Lib.ByteCodec
import Ccos.Lib.SlidingWindow

/-!
# The codec of spilled text

A blob is a header byte and a payload: the bytes as they are, or blocks of up to eight tokens behind a byte
of flags. The encoder finds what repeats with chains of positions that hash alike. A wrong entry in a chain
can only cost a match, since the bytes are compared.
-/

open ByteCodec SlidingWindow

namespace Ccos.Lzss

def window : Nat := 4096

def minMatch : Nat := 3

def maxMatch : Nat := 18

def maxChain : Nat := 64

def hashSize : Nat := 8192

/-! ## Finding a match -/

/-- `pos as i32`. -/
def asI32 (pos : Nat) : Int := (pos : Int).bmod 0x100000000

def byteAt (data : Bytes) (pos : Nat) : Nat := ((data[pos]?).map UInt8.toNat).getD 0

def hash3 (data : Bytes) (pos : Nat) : Nat :=
  ((byteAt data pos <<< 10) ^^^ (byteAt data (pos + 1) <<< 5) ^^^ byteAt data (pos + 2)) &&& (hashSize - 1)

/-- The latest position of each hash, and for each position the one before it. -/
structure Chains where
  head : List Int
  prev : List Int

def Chains.empty (n : Nat) : Chains where
  head := List.replicate hashSize (-1)
  prev := List.replicate n (-1)

def insert (data : Bytes) (chains : Chains) (pos : Nat) : Chains :=
  if pos + minMatch ≤ data.length then
    let h := hash3 data pos
    { prev := chains.prev.set pos (chains.head.getD h (-1)), head := chains.head.set h (asI32 pos) }
  else chains

/-- How far two positions agree, at most `left` bytes further than `l`. -/
def matchLen (data : Bytes) (c pos : Nat) : Nat → Nat → Nat
  | 0, l => l
  | left + 1, l => if data[c + l]? = data[pos + l]? then matchLen data c pos left (l + 1) else l

/-- Walks a chain for the longest match, as its length and offset. -/
def search (data : Bytes) (prev : List Int) (pos maxLen winStart : Nat) : Nat → Int → Nat × Nat → Nat × Nat
  | 0, _, best => best
  | chain + 1, cand, best =>
    if 0 ≤ cand ∧ winStart ≤ cand.toNat then
      let c := cand.toNat
      let l := matchLen data c pos maxLen 0
      if best.1 < l then
        if l = maxLen then (l, pos - c)
        else search data prev pos maxLen winStart chain (prev.getD c (-1)) (l, pos - c)
      else search data prev pos maxLen winStart chain (prev.getD c (-1)) best
    else best

def longestMatch (data : Bytes) (chains : Chains) (pos : Nat) : Nat × Nat :=
  let maxLen := min (data.length - pos) maxMatch
  if minMatch ≤ maxLen then
    search data chains.prev pos maxLen (pos - window) maxChain (chains.head.getD (hash3 data pos) (-1)) (0, 0)
  else (0, 0)

/-! ## Writing -/

/-- One token, and where the next one starts. -/
def nextToken (data : Bytes) (chains : Chains) (pos : Nat) : Token UInt8 × Chains × Nat :=
  let best := longestMatch data chains pos
  let chains := insert data chains pos
  if minMatch ≤ best.1 then
    (.backRef best.2 best.1, (List.range' (pos + 1) (best.1 - 1)).foldl (insert data) chains, pos + best.1)
  else (.literal (UInt8.ofNat (byteAt data pos)), chains, pos + 1)

def takeTokens (data : Bytes) : Nat → Chains → Nat → List (Token UInt8) × Chains × Nat
  | 0, chains, pos => ([], chains, pos)
  | left + 1, chains, pos =>
    if data.length ≤ pos then ([], chains, pos)
    else
      let (t, chains, pos) := nextToken data chains pos
      let (ts, chains, pos) := takeTokens data left chains pos
      (t :: ts, chains, pos)

/-- The tokens of a text, in the blocks they are written in. `fuel` bounds the blocks. -/
def tokenBlocks (data : Bytes) : Nat → Chains → Nat → List (List (Token UInt8))
  | 0, _, _ => []
  | fuel + 1, chains, pos =>
    if data.length ≤ pos then []
    else
      let (ts, chains, pos) := takeTokens data 8 chains pos
      ts :: tokenBlocks data fuel chains pos

/-- The 16-bit code of a reference. -/
def refCode (off len : Nat) : Nat := (((off - 1) % 2 ^ 16) <<< 4) % 2 ^ 16 ||| (len - minMatch) % 2 ^ 16

def tokenBytes : Token UInt8 → Bytes
  | .literal b => [b]
  | .backRef off len => [UInt8.ofNat (refCode off len >>> 8), UInt8.ofNat (refCode off len &&& 0xFF)]

/-- Bit `i` says whether token `i` is a reference. -/
def flagOf (bit : Nat) : List (Token UInt8) → Nat
  | [] => 0
  | .literal _ :: ts => flagOf (bit + 1) ts
  | .backRef _ _ :: ts => 1 <<< bit ||| flagOf (bit + 1) ts

def blockBytes (ts : List (Token UInt8)) : Bytes := UInt8.ofNat (flagOf 0 ts) :: ts.flatMap tokenBytes

def lzssCompress (data : Bytes) : Bytes :=
  (tokenBlocks data data.length (Chains.empty data.length) 0).flatMap blockBytes

def compress (data : Bytes) : Bytes :=
  let packed := lzssCompress data
  if packed.length < data.length then 1 :: packed else 0 :: data

/-! ## Reading -/

/-- The tokens of a block from `bit` on: what is left, and the output. -/
def readTokens (flag : Nat) : Nat → Nat → Bytes → Bytes → Option (Bytes × Bytes)
  | 0, _, rest, out => some (rest, out)
  | _ + 1, _, [], out => some ([], out)
  | left + 1, bit, b :: rest, out =>
    if flag &&& 1 <<< bit ≠ 0 then
      match rest with
      | [] => none
      | lo :: rest =>
        let code := (b.toNat <<< 8) % 2 ^ 16 ||| lo.toNat
        let off := (code >>> 4) + 1
        let len := (code &&& 0xF) + minMatch
        if out.length < off then none
        else readTokens flag left (bit + 1) rest (copyFrom (out.length - off) len out)
    else readTokens flag left (bit + 1) rest (out ++ [b])

/-- `fuel` bounds the blocks. -/
def readBlocks : Nat → Bytes → Bytes → Option Bytes
  | 0, _, out => some out
  | _ + 1, [], out => some out
  | fuel + 1, flag :: rest, out => (readTokens flag.toNat 8 0 rest out).bind fun (rest, out) => readBlocks fuel rest out

def lzssDecompress (blob : Bytes) : Option Bytes := readBlocks blob.length blob []

def decompress : Bytes → Option Bytes
  | 0 :: rest => some rest
  | 1 :: rest => lzssDecompress rest
  | _ => none

/-- A reference cut short, and one that points before the output. -/
example : decompress [1, 1, 0] = none ∧ decompress [1, 1, 0, 0] = none := by decide

/-! ## The code of a reference -/

/-- What fits the 12 bits of the offset and the 4 bits of the length. -/
def InRange : Token UInt8 → Prop
  | .literal _ => True
  | .backRef off len => (1 ≤ off ∧ off ≤ window) ∧ minMatch ≤ len ∧ len ≤ maxMatch

theorem refCode_eq {off len : Nat} (h : InRange (.backRef off len)) : refCode off len = 16 * (off - 1) + (len - 3) := by
  obtain ⟨⟨hoff, hwindow⟩, hlen, hmax⟩ := h
  unfold window at hwindow
  unfold minMatch at hlen
  unfold maxMatch at hmax
  have hhigh : (off - 1) <<< 4 = 16 * (off - 1) := by
    rw [Nat.shiftLeft_eq]
    omega
  unfold refCode minMatch
  rw [Nat.mod_eq_of_lt (show off - 1 < 2 ^ 16 by omega), Nat.mod_eq_of_lt (show len - 3 < 2 ^ 16 by omega),
    Nat.mod_eq_of_lt (by omega), ← Nat.shiftLeft_add_eq_or_of_lt (show len - 3 < 2 ^ 4 by omega), hhigh]

theorem off_of_refCode {off len : Nat} (h : InRange (.backRef off len)) : (refCode off len >>> 4) + 1 = off := by
  rw [refCode_eq h, Nat.shiftRight_eq_div_pow]
  obtain ⟨⟨hoff, -⟩, hlen, hmax⟩ := h
  unfold maxMatch at hmax
  omega

theorem len_of_refCode {off len : Nat} (h : InRange (.backRef off len)) :
    (refCode off len &&& 0xF) + minMatch = len := by
  rw [refCode_eq h, show 0xF = 2 ^ 4 - 1 from rfl, Nat.and_two_pow_sub_one_eq_mod]
  obtain ⟨-, hlen, hmax⟩ := h
  unfold minMatch at hlen ⊢
  unfold maxMatch at hmax
  omega

theorem refCode_lt {off len : Nat} (h : InRange (.backRef off len)) : refCode off len < 2 ^ 16 := by
  rw [refCode_eq h]
  obtain ⟨⟨hoff, hwindow⟩, hlen, hmax⟩ := h
  unfold window at hwindow
  unfold maxMatch at hmax
  omega

theorem code_of_bytes {code : Nat} (h : code < 2 ^ 16) :
    ((UInt8.ofNat (code >>> 8)).toNat <<< 8) % 2 ^ 16 ||| (UInt8.ofNat (code &&& 0xFF)).toNat = code := by
  have hhigh : (UInt8.ofNat (code >>> 8)).toNat = code / 256 := by
    rw [UInt8.toNat_ofNat', Nat.shiftRight_eq_div_pow, Nat.mod_eq_of_lt (by omega)]
  have hlow : (UInt8.ofNat (code &&& 0xFF)).toNat = code % 256 := by
    rw [UInt8.toNat_ofNat', show 0xFF = 2 ^ 8 - 1 from rfl, Nat.and_two_pow_sub_one_eq_mod]
    omega
  have hshift : (code / 256) <<< 8 = 256 * (code / 256) := by
    rw [Nat.shiftLeft_eq]
    omega
  rw [hhigh, hlow, Nat.mod_eq_of_lt (by rw [hshift]; omega),
    ← Nat.shiftLeft_add_eq_or_of_lt (show code % 256 < 2 ^ 8 by omega), hshift]
  omega

/-! ## The flags of a block -/

def isRef : Token UInt8 → Bool
  | .literal _ => false
  | .backRef _ _ => true

theorem and_bit (flag bit : Nat) : flag &&& 1 <<< bit ≠ 0 ↔ flag.testBit bit = true := by
  rw [Nat.one_shiftLeft]
  constructor
  · intro h
    by_contra hoff
    rw [Bool.not_eq_true] at hoff
    apply h
    apply Nat.eq_of_testBit_eq
    intro i
    rw [Nat.testBit_and, Nat.testBit_two_pow, Nat.zero_testBit]
    by_cases hi : bit = i
    · rw [← hi, hoff, Bool.false_and]
    · rw [decide_eq_false hi, Bool.and_false]
  · intro h hzero
    have hbit : (flag &&& 2 ^ bit).testBit bit = (0 : Nat).testBit bit := by rw [hzero]
    rw [Nat.testBit_and, Nat.testBit_two_pow_self, h, Nat.zero_testBit] at hbit
    cases hbit

theorem testBit_flagOf_cons (bit : Nat) (t : Token UInt8) (ts : List (Token UInt8)) (j : Nat) :
    (flagOf bit (t :: ts)).testBit j = (decide (bit = j) && isRef t || (flagOf (bit + 1) ts).testBit j) := by
  cases t with
  | literal b => rw [isRef, Bool.and_false, Bool.false_or, flagOf]
  | backRef off len => rw [isRef, Bool.and_true, flagOf, Nat.testBit_or, Nat.one_shiftLeft, Nat.testBit_two_pow]

theorem testBit_flagOf (bit : Nat) (ts : List (Token UInt8)) (j : Nat) :
    (flagOf bit ts).testBit j = (decide (bit ≤ j) && ((ts[j - bit]?).map isRef).getD false) := by
  induction ts generalizing bit with
  | nil => simp [flagOf]
  | cons t ts ih =>
    rw [testBit_flagOf_cons, ih]
    rcases Nat.lt_trichotomy j bit with hlt | rfl | hlt
    · rw [decide_eq_false (by omega), decide_eq_false (by omega), decide_eq_false (by omega)]
      rfl
    · simp
    · rw [decide_eq_false (by omega), decide_eq_true (Nat.succ_le_of_lt hlt), decide_eq_true hlt.le,
        show j - bit = j - (bit + 1) + 1 by omega, List.getElem?_cons_succ, Bool.false_and, Bool.false_or]

theorem flagOf_lt (bit : Nat) (ts : List (Token UInt8)) : flagOf bit ts < 2 ^ (bit + ts.length) := by
  apply Nat.lt_pow_two_of_testBit
  intro j hj
  rw [testBit_flagOf, List.getElem?_eq_none (by omega)]
  simp

/-! ## Reading what was written -/

theorem readTokens_literal {flag bit : Nat} (hoff : ¬ flag &&& 1 <<< bit ≠ 0) (left : Nat) (b : UInt8) (rest out : Bytes) :
    readTokens flag (left + 1) bit (b :: rest) out = readTokens flag left (bit + 1) rest (out ++ [b]) := by
  cases rest with
  | nil => rw [readTokens, if_neg hoff]
  | cons lo rest => rw [readTokens, if_neg hoff]

/-- A block of tokens is read back as long as it is full or the last one. -/
theorem readTokens_flatMap {flag left bit : Nat} {ts : List (Token UInt8)} {tail : Bytes} (out : Bytes)
    (hflag : ∀ i t, ts[i]? = some t → flag.testBit (bit + i) = isRef t) (hrange : ∀ t ∈ ts, InRange t)
    (hle : ts.length ≤ left) (hfull : ts.length = left ∨ tail = []) :
    readTokens flag left bit (ts.flatMap tokenBytes ++ tail) out = (expand out ts).map fun out => (tail, out) := by
  induction ts generalizing left bit out with
  | nil =>
    cases left with
    | zero => rfl
    | succ left =>
      obtain rfl : tail = [] := hfull.resolve_left (by simp)
      rfl
  | cons t ts ih =>
    cases left with
    | zero => cases hle
    | succ left =>
      -- The flag bit at `bit` is for the token at the front; the later ones move up by one.
      have hbit := hflag 0 t rfl
      rw [Nat.add_zero] at hbit
      have hnext : ∀ i t, ts[i]? = some t → flag.testBit (bit + 1 + i) = isRef t := by
        intro i t h
        rw [show bit + 1 + i = bit + (i + 1) by omega]
        exact hflag (i + 1) t h
      have hlater : ts.length = left ∨ tail = [] := hfull.imp_left fun h => Nat.succ.inj h
      have ih := fun out => ih out hnext (fun t h => hrange t (List.mem_cons_of_mem _ h))
        (Nat.le_of_succ_le_succ hle) hlater
      cases t with
      | literal b =>
        have hoff : ¬ flag &&& 1 <<< bit ≠ 0 := by simp [and_bit, hbit, isRef]
        rw [List.flatMap_cons, tokenBytes, List.singleton_append, List.cons_append, readTokens_literal hoff, ih]
        rfl
      | backRef off len =>
        have hin := hrange _ List.mem_cons_self
        have hon : flag &&& 1 <<< bit ≠ 0 := by rw [and_bit, hbit, isRef]
        simp only [List.flatMap_cons, tokenBytes, List.cons_append, List.nil_append]
        rw [readTokens, if_pos hon]
        dsimp only
        rw [code_of_bytes (refCode_lt hin), off_of_refCode hin, len_of_refCode hin, expand]
        split
        · rfl
        · exact ih _

/-- Every block but the last is full. -/
def Full : List (List (Token UInt8)) → Prop
  | [] => True
  | ts :: blocks => ts.length ≤ 8 ∧ (ts.length = 8 ∨ blocks = []) ∧ Full blocks

theorem readTokens_blockBytes {ts : List (Token UInt8)} {tail : Bytes} (out : Bytes)
    (hrange : ∀ t ∈ ts, InRange t) (hle : ts.length ≤ 8) (hfull : ts.length = 8 ∨ tail = []) :
    readTokens (UInt8.ofNat (flagOf 0 ts)).toNat 8 0 (ts.flatMap tokenBytes ++ tail) out =
      (expand out ts).map fun out => (tail, out) := by
  have hbyte : (UInt8.ofNat (flagOf 0 ts)).toNat = flagOf 0 ts := by
    rw [UInt8.toNat_ofNat', Nat.mod_eq_of_lt]
    refine Nat.lt_of_lt_of_le (flagOf_lt 0 ts) (Nat.pow_le_pow_right (by norm_num) ?_)
    rwa [Nat.zero_add]
  rw [hbyte]
  refine readTokens_flatMap out ?_ hrange hle hfull
  intro i t h
  rw [testBit_flagOf, Nat.zero_add, decide_eq_true (Nat.zero_le i), Nat.sub_zero, h]
  rfl

theorem readBlocks_flatMap {blocks : List (List (Token UInt8))} (hfull : Full blocks)
    (hrange : ∀ t ∈ blocks.flatten, InRange t) {fuel : Nat} (hfuel : blocks.length ≤ fuel) (out : Bytes) :
    readBlocks fuel (blocks.flatMap blockBytes) out = expand out blocks.flatten := by
  induction blocks generalizing fuel out with
  | nil => cases fuel <;> rfl
  | cons ts blocks ih =>
    cases fuel with
    | zero => cases hfuel
    | succ fuel =>
      obtain ⟨hle, hlast, hfull⟩ := hfull
      have hts : ∀ t ∈ ts, InRange t := fun t h => hrange t (by simp [h])
      have hrest : ∀ t ∈ blocks.flatten, InRange t := fun t h => hrange t (by
        rw [List.flatten_cons]
        exact List.mem_append_right _ h)
      have htail : ts.length = 8 ∨ blocks.flatMap blockBytes = [] := hlast.imp_right fun h => by rw [h]; rfl
      rw [List.flatMap_cons, blockBytes, List.cons_append, readBlocks, readTokens_blockBytes out hts hle htail,
        List.flatten_cons, expand_append, Option.bind_map]
      refine congrArg _ (funext fun out => ?_)
      exact ih hfull hrest (Nat.le_of_succ_le_succ hfuel) out

theorem length_le_flatMap (blocks : List (List (Token UInt8))) : blocks.length ≤ (blocks.flatMap blockBytes).length := by
  induction blocks with
  | nil => exact Nat.le_refl _
  | cons ts blocks ih =>
    rw [List.flatMap_cons, List.length_append, List.length_cons, blockBytes, List.length_cons]
    omega

theorem lzssDecompress_flatMap {blocks : List (List (Token UInt8))} (hfull : Full blocks)
    (hrange : ∀ t ∈ blocks.flatten, InRange t) :
    lzssDecompress (blocks.flatMap blockBytes) = expand [] blocks.flatten :=
  readBlocks_flatMap hfull hrange (length_le_flatMap blocks) []

/-! ## The chains -/

/-- Every entry is before `pos`, so a position that a search follows is inside the text. -/
structure Chains.Below (chains : Chains) (pos : Nat) : Prop where
  head : ∀ v ∈ chains.head, v < (pos : Int)
  prev : ∀ v ∈ chains.prev, v < (pos : Int)

theorem asI32_le (pos : Nat) : asI32 pos ≤ pos := by
  unfold asI32
  have hwrap := Int.bmod_def pos 0x100000000
  omega

theorem getD_lt {l : List Int} {pos : Nat} (h : ∀ v ∈ l, v < (pos : Int)) (i : Nat) : l.getD i (-1) < pos := by
  rw [List.getD_eq_getElem?_getD]
  cases hv : l[i]? with
  | none => simp; omega
  | some v => exact h v (List.mem_of_getElem? hv)

theorem Chains.below_empty (n : Nat) : (Chains.empty n).Below 0 where
  head := by
    intro v hv
    rw [List.eq_of_mem_replicate hv]
    decide
  prev := by
    intro v hv
    rw [List.eq_of_mem_replicate hv]
    decide

theorem Chains.Below.mono {chains : Chains} {pos pos' : Nat} (h : chains.Below pos) (hle : pos ≤ pos') :
    chains.Below pos' where
  head := fun v hv => Int.lt_of_lt_of_le (h.head v hv) (by omega)
  prev := fun v hv => Int.lt_of_lt_of_le (h.prev v hv) (by omega)

theorem Chains.Below.insert {chains : Chains} {pos : Nat} (h : chains.Below pos) (data : Bytes) :
    (insert data chains pos).Below (pos + 1) := by
  unfold Lzss.insert
  split
  · refine ⟨fun v hv => ?_, fun v hv => ?_⟩
    · rcases List.mem_or_eq_of_mem_set hv with hv | hv
      · have := h.head v hv
        omega
      · have := asI32_le pos
        omega
    · rcases List.mem_or_eq_of_mem_set hv with hv | hv
      · have := h.prev v hv
        omega
      · have := getD_lt h.head (hash3 data pos)
        omega
  · exact h.mono (Nat.le_succ pos)

theorem Chains.Below.foldl {chains : Chains} {pos : Nat} (h : chains.Below pos) (data : Bytes) (n : Nat) :
    ((List.range' pos n).foldl (Lzss.insert data) chains).Below (pos + n) := by
  induction n generalizing chains pos with
  | zero => exact h
  | succ n ih =>
    rw [List.range'_succ, List.foldl_cons, ← Nat.add_assoc, Nat.add_right_comm]
    exact ih (h.insert data)

/-! ## What a search finds -/

theorem matchLen_spec (data : Bytes) (c pos left l : Nat) (hsame : ∀ k < l, data[c + k]? = data[pos + k]?) :
    matchLen data c pos left l ≤ l + left ∧
      ∀ k < matchLen data c pos left l, data[c + k]? = data[pos + k]? := by
  induction left generalizing l with
  | zero => exact ⟨Nat.le_refl _, hsame⟩
  | succ left ih =>
    rw [matchLen]
    split
    · rename_i hnext
      have hgrown : ∀ k < l + 1, data[c + k]? = data[pos + k]? := by
        intro k hk
        rcases Nat.lt_or_eq_of_le (Nat.le_of_lt_succ hk) with hk | rfl
        · exact hsame k hk
        · exact hnext
      obtain ⟨hle, hall⟩ := ih (l + 1) hgrown
      exact ⟨by omega, hall⟩
    · exact ⟨Nat.le_add_right _ _, hsame⟩

/-- A match that is worth nothing, or a repetition inside the window. -/
def Sound (data : Bytes) (pos maxLen : Nat) (best : Nat × Nat) : Prop :=
  best.1 ≤ maxLen ∧ (0 < best.1 → Repeats data pos best.2 best.1 ∧ best.2 ≤ window)

theorem sound_of_candidate {data : Bytes} {pos maxLen c : Nat} (hinside : pos + maxLen ≤ data.length) (hlt : c < pos)
    (hstart : pos - window ≤ c) : Sound data pos maxLen (matchLen data c pos maxLen 0, pos - c) := by
  obtain ⟨hle, hall⟩ := matchLen_spec data c pos maxLen 0 fun k hk => absurd hk (Nat.not_lt_zero k)
  rw [Nat.zero_add] at hle
  refine ⟨hle, fun _ => ⟨⟨by omega, Nat.sub_le _ _, by omega, fun k hk => ?_⟩, by omega⟩⟩
  rw [Nat.sub_sub_self hlt.le]
  exact hall k hk

theorem sound_search {data : Bytes} {prev : List Int} {pos maxLen : Nat} (hprev : ∀ v ∈ prev, v < (pos : Int))
    (hinside : pos + maxLen ≤ data.length) {chain : Nat} {cand : Int} {best : Nat × Nat} (hcand : cand < pos)
    (hbest : Sound data pos maxLen best) :
    Sound data pos maxLen (search data prev pos maxLen (pos - window) chain cand best) := by
  induction chain generalizing cand best with
  | zero => exact hbest
  | succ chain ih =>
    rw [search]
    split
    · rename_i hcandidate
      have hfound : Sound data pos maxLen (matchLen data cand.toNat pos maxLen 0, pos - cand.toNat) :=
        sound_of_candidate hinside (by omega) hcandidate.2
      have hnext := getD_lt hprev cand.toNat
      dsimp only
      split
      · split
        · exact hfound
        · exact ih hnext hfound
      · exact ih hnext hbest
    · exact hbest

theorem sound_longestMatch {data : Bytes} {chains : Chains} {pos : Nat} (h : chains.Below pos)
    (hpos : pos < data.length) : Sound data pos maxMatch (longestMatch data chains pos) := by
  have hnothing : ∀ maxLen, Sound data pos maxLen (0, 0) := fun maxLen =>
    ⟨Nat.zero_le _, fun hlt => absurd hlt (Nat.lt_irrefl 0)⟩
  unfold longestMatch
  dsimp only
  split
  · have hinside : pos + min (data.length - pos) maxMatch ≤ data.length := by omega
    have hfound : Sound data pos (min (data.length - pos) maxMatch) (search data chains.prev pos _ (pos - window)
        maxChain (chains.head.getD (hash3 data pos) (-1)) (0, 0)) :=
      sound_search h.prev hinside (getD_lt h.head _) (hnothing _)
    exact ⟨Nat.le_trans hfound.1 (Nat.min_le_right _ _), hfound.2⟩
  · exact hnothing _

/-! ## What is written -/

/-- A token says what the text has, fits its code, and moves on. -/
theorem nextToken_spec {data : Bytes} {chains : Chains} {pos : Nat} (h : chains.Below pos) (hpos : pos < data.length) :
    Covers data pos [(nextToken data chains pos).1] (nextToken data chains pos).2.2 ∧
      InRange (nextToken data chains pos).1 ∧
      (nextToken data chains pos).2.1.Below (nextToken data chains pos).2.2 ∧
      pos < (nextToken data chains pos).2.2 ∧ (nextToken data chains pos).2.2 ≤ data.length := by
  obtain ⟨hle, hsound⟩ := sound_longestMatch h hpos
  unfold nextToken
  dsimp only
  split
  · rename_i hmin
    have hlen : 0 < (longestMatch data chains pos).1 := by
      unfold minMatch at hmin
      omega
    obtain ⟨hrepeats, hwindow⟩ := hsound hlen
    have hbelow := (h.insert data).foldl data ((longestMatch data chains pos).1 - 1)
    rw [show pos + 1 + ((longestMatch data chains pos).1 - 1) = pos + (longestMatch data chains pos).1 by omega] at hbelow
    refine ⟨.backRef hrepeats (.nil _), ⟨⟨hrepeats.off_pos, hwindow⟩, hmin, hle⟩, hbelow, ?_, hrepeats.inside⟩
    exact Nat.lt_add_of_pos_right hlen
  · have hbyte : data[pos]? = some (UInt8.ofNat (byteAt data pos)) := by
      rw [byteAt, List.getElem?_eq_getElem hpos, Option.map_some, Option.getD_some, UInt8.ofNat_toNat]
    exact ⟨.literal hbyte (.nil _), trivial, h.insert data, Nat.lt_succ_self pos, hpos⟩

theorem takeTokens_spec {data : Bytes} {chains : Chains} {pos : Nat} (h : chains.Below pos) (hpos : pos ≤ data.length)
    (left : Nat) :
    Covers data pos (takeTokens data left chains pos).1 (takeTokens data left chains pos).2.2 ∧
      (∀ t ∈ (takeTokens data left chains pos).1, InRange t) ∧
      (takeTokens data left chains pos).2.1.Below (takeTokens data left chains pos).2.2 ∧
      pos + (takeTokens data left chains pos).1.length ≤ (takeTokens data left chains pos).2.2 ∧
      (takeTokens data left chains pos).2.2 ≤ data.length ∧ (takeTokens data left chains pos).1.length ≤ left ∧
      ((takeTokens data left chains pos).1.length = left ∨ (takeTokens data left chains pos).2.2 = data.length) := by
  induction left generalizing chains pos with
  | zero => exact ⟨.nil pos, by simp [takeTokens], h, Nat.le_refl _, hpos, Nat.le_refl _, .inl rfl⟩
  | succ left ih =>
    rw [takeTokens]
    split
    · rename_i hend
      exact ⟨.nil pos, by simp, h, Nat.le_refl _, hpos, Nat.zero_le _, .inr (Nat.le_antisymm hpos hend)⟩
    · rename_i hmore
      obtain ⟨hcovers, hin, hbelow, hlt, hinside⟩ := nextToken_spec h (Nat.lt_of_not_le hmore)
      obtain ⟨hcovers', hin', hbelow', hlen, hinside', hle, hfull⟩ := ih hbelow hinside
      refine ⟨hcovers.append hcovers', ?_, hbelow', ?_, hinside', Nat.succ_le_succ hle, ?_⟩
      · intro t ht
        rcases List.mem_cons.mp ht with rfl | ht
        · exact hin
        · exact hin' t ht
      · rw [List.length_cons, Nat.add_comm _ 1, ← Nat.add_assoc]
        exact Nat.le_trans (Nat.add_le_add_right hlt _) hlen
      · exact hfull.imp_left fun h => congrArg (· + 1) h

theorem tokenBlocks_at_end {data : Bytes} {fuel : Nat} {chains : Chains} {pos : Nat} (h : data.length ≤ pos) :
    tokenBlocks data fuel chains pos = [] := by
  cases fuel with
  | zero => rfl
  | succ fuel => rw [tokenBlocks, if_pos h]

theorem tokenBlocks_spec {data : Bytes} {chains : Chains} {pos : Nat} (h : chains.Below pos) (hpos : pos ≤ data.length)
    {fuel : Nat} (hfuel : data.length ≤ pos + fuel) :
    Covers data pos (tokenBlocks data fuel chains pos).flatten data.length ∧
      (∀ t ∈ (tokenBlocks data fuel chains pos).flatten, InRange t) ∧ Full (tokenBlocks data fuel chains pos) := by
  induction fuel generalizing chains pos with
  | zero =>
    obtain rfl : pos = data.length := Nat.le_antisymm hpos hfuel
    exact ⟨.nil _, by simp [tokenBlocks], trivial⟩
  | succ fuel ih =>
    rw [tokenBlocks]
    split
    · rename_i hend
      obtain rfl : pos = data.length := Nat.le_antisymm hpos hend
      exact ⟨.nil _, by simp, trivial⟩
    · rename_i hmore
      obtain ⟨hcovers, hin, hbelow, hlen, hinside, hle, hfull⟩ := takeTokens_spec h hpos 8
      have hprogress : pos + 1 ≤ (takeTokens data 8 chains pos).2.2 := by
        rcases hfull with hfull | hfull <;> omega
      obtain ⟨hcovers', hin', hfull'⟩ := ih hbelow hinside (by omega)
      refine ⟨hcovers.append hcovers', ?_, hle, ?_, hfull'⟩
      · intro t ht
        rcases List.mem_append.mp ht with ht | ht
        · exact hin t ht
        · exact hin' t ht
      · exact hfull.imp_right fun hend => tokenBlocks_at_end hend.ge

def tokensOf (data : Bytes) : List (Token UInt8) :=
  (tokenBlocks data data.length (Chains.empty data.length) 0).flatten

theorem tokensOf_spec (data : Bytes) : Covers data 0 (tokensOf data) data.length ∧ (∀ t ∈ tokensOf data, InRange t) ∧
    Full (tokenBlocks data data.length (Chains.empty data.length) 0) :=
  tokenBlocks_spec (Chains.below_empty data.length) (Nat.zero_le _) (Nat.le_add_left _ _)

theorem lzssDecompress_lzssCompress (data : Bytes) : lzssDecompress (lzssCompress data) = some data := by
  obtain ⟨hcovers, hrange, hfull⟩ := tokensOf_spec data
  rw [lzssCompress, lzssDecompress_flatMap hfull hrange]
  exact expand_of_covers_all hcovers

/-- The codec is lossless, never inflates, and no reference loses bits of its code. -/
theorem decompress_compress (data : Bytes) :
    decompress (compress data) = some data ∧ (compress data).length ≤ data.length + 1 ∧
      ∀ off len, Token.backRef off len ∈ tokensOf data →
        (1 ≤ off ∧ off ≤ 4096) ∧ (3 ≤ len ∧ len ≤ 18) ∧ refCode off len = 16 * (off - 1) + (len - 3) ∧
          refCode off len < 2 ^ 16 ∧ (refCode off len >>> 4) + 1 = off ∧ (refCode off len &&& 0xF) + minMatch = len := by
  refine ⟨?_, ?_, ?_⟩
  · unfold compress
    dsimp only
    split
    · exact lzssDecompress_lzssCompress data
    · rfl
  · unfold compress
    dsimp only
    split
    · rw [List.length_cons]
      omega
    · rw [List.length_cons]
  · intro off len hmem
    have hin := (tokensOf_spec data).2.1 _ hmem
    exact ⟨hin.1, hin.2, refCode_eq hin, refCode_lt hin, off_of_refCode hin, len_of_refCode hin⟩

end Ccos.Lzss
