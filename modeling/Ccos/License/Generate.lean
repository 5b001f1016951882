import Ccos.License.Codes
import Mathlib.Data.List.GetD
import Mathlib.Data.Nat.Digits.Lemmas

/-!
# Codes from entropy

The first hundred bits of the entropy, five for a symbol.
-/

namespace Ccos.License

/-- What the loop carries: the bits not yet used are the low ones of `acc`. -/
structure Packer where
  acc : UInt32
  bits : Nat
  symbols : List UInt8

def symbolAt (i : Nat) : UInt8 := alphabet.getD i 0

/-- The inner loop. -/
def drain (p : Packer) : Packer :=
  if 5 ≤ p.bits ∧ p.symbols.length < 20 then
    drain { p with
      bits := p.bits - 5
      symbols := p.symbols ++ [symbolAt ((p.acc >>> UInt32.ofNat (p.bits - 5)).toNat &&& 31)] }
  else p
termination_by p.bits

def refill (p : Packer) (b : UInt8) : Packer :=
  drain { p with acc := p.acc <<< 8 ||| b.toUInt32, bits := p.bits + 8 }

def pack : Packer → List UInt8 → Packer
  | p, [] => p
  | p, b :: rest =>
    let q := refill p b
    if q.symbols.length = 20 then q else pack q rest

/-- `none` is a panic. -/
def codeFromEntropy (entropy : Vector UInt8 16) : Option Str := do
  let s ← decodeUtf8 (pack ⟨0, 0, []⟩ entropy.toList).symbols
  let a ← slice s 0 5
  let b ← slice s 5 10
  let c ← slice s 10 15
  let d ← slice s 15 20
  return formatCode a b c d

/-! ## The bits as a number -/

def pushByte (n : Nat) (b : UInt8) : Nat := n * 256 + b.toNat

/-- The entropy as a number, its first byte on top. -/
def entropyNumber (bytes : List UInt8) : Nat := bytes.foldl pushByte 0

def firstHundredBits (entropy : Vector UInt8 16) : Nat := entropyNumber entropy.toList / 2 ^ 28

theorem foldl_pushByte_div (n : Nat) (bytes : List UInt8) : bytes.foldl pushByte n / 2 ^ (8 * bytes.length) = n := by
  induction bytes generalizing n with
  | nil => simp
  | cons b bytes ih =>
    have hb : b.toNat < 256 := UInt8.toNat_lt b
    rw [List.foldl_cons, List.length_cons, Nat.mul_succ, Nat.pow_add, ← Nat.div_div_eq_div_mul, ih, pushByte]
    omega

/-- The digits of a number in fives of bits, the first on top. -/
def symbolValue (ds : List Nat) : Nat := Nat.ofDigits 32 ds.reverse

theorem symbolValue_concat (ds : List Nat) (d : Nat) : symbolValue (ds ++ [d]) = d + 32 * symbolValue ds := by
  rw [symbolValue, List.reverse_concat, Nat.ofDigits_cons]
  rfl

/-- Of the bits of `n` the packer has used all but the low ones. -/
structure Packed (n : Nat) (p : Packer) (ds : List Nat) : Prop where
  acc : p.acc.toNat = n % 2 ^ 32
  symbols : p.symbols = ds.map symbolAt
  digits : ∀ d ∈ ds, d < 32
  value : symbolValue ds = n / 2 ^ p.bits

theorem symbol_bits {acc : UInt32} {n k : Nat} (hacc : acc.toNat = n % 2 ^ 32) (hk : k ≤ 27) :
    (acc >>> UInt32.ofNat k).toNat &&& 31 = n / 2 ^ k % 32 := by
  have hsmall : (UInt32.ofNat k).toNat % 32 = k := by
    rw [UInt32.toNat_ofNat']
    omega
  have hsplit : 2 ^ 32 = 2 ^ k * 2 ^ (32 - k) := by
    rw [← Nat.pow_add]
    congr 1
    omega
  have hdvd : 32 ∣ 2 ^ (32 - k) := Nat.pow_dvd_pow 2 (show 5 ≤ 32 - k by omega)
  have hmask : ∀ m : Nat, m &&& 31 = m % 32 := fun m => Nat.and_two_pow_sub_one_eq_mod m 5
  rw [hmask, UInt32.toNat_shiftRight, hsmall, Nat.shiftRight_eq_div_pow, hacc, hsplit, Nat.mod_mul_right_div_self,
    Nat.mod_mod_of_dvd _ hdvd]

theorem Packed.symbol {n : Nat} {p : Packer} {ds : List Nat} (h : Packed n p ds) (hlow : 5 ≤ p.bits)
    (hhigh : p.bits ≤ 32) :
    Packed n { p with
        bits := p.bits - 5
        symbols := p.symbols ++ [symbolAt ((p.acc >>> UInt32.ofNat (p.bits - 5)).toNat &&& 31)] }
      (ds ++ [n / 2 ^ (p.bits - 5) % 32]) where
  acc := h.acc
  symbols := by rw [symbol_bits h.acc (by omega), h.symbols, List.map_append, List.map_singleton]
  digits := List.forall_mem_append.mpr
    ⟨h.digits, List.forall_mem_singleton.mpr (Nat.mod_lt _ (by decide))⟩
  value := by
    have hbits : 2 ^ p.bits = 2 ^ (p.bits - 5) * 32 := by
      rw [show 32 = 2 ^ 5 from rfl, ← Nat.pow_add, Nat.sub_add_cancel hlow]
    rw [symbolValue_concat, h.value, hbits, ← Nat.div_div_eq_div_mul, Nat.mod_add_div]

/-- What is left after a symbol is too little for one, or there are twenty. -/
theorem Packed.drain {n : Nat} {p : Packer} {ds : List Nat} (h : Packed n p ds) (hhigh : p.bits ≤ 32)
    (hlen : ds.length ≤ 20) :
    ∃ ds', Packed n (drain p) ds' ∧ 5 * ds'.length + (drain p).bits = 5 * ds.length + p.bits ∧ ds'.length ≤ 20 ∧
      ((drain p).bits < 5 ∨ ds'.length = 20) := by
  induction p using drain.induct generalizing ds with
  | case1 p hmore ih =>
    have hlt : ds.length < 20 := by rw [← List.length_map (f := symbolAt), ← h.symbols]; exact hmore.2
    have hsymbol := h.symbol hmore.1 hhigh
    have hsucc : (ds ++ [n / 2 ^ (p.bits - 5) % 32]).length ≤ 20 := by rw [List.length_append]; exact hlt
    obtain ⟨ds', hpacked, hcount, hle, hrest⟩ := ih hsymbol (by dsimp only; omega) hsucc
    rw [License.drain, if_pos hmore]
    refine ⟨ds', hpacked, hcount.trans ?_, hle, hrest⟩
    rw [List.length_append, List.length_singleton]
    dsimp only
    have := hmore.1
    omega
  | case2 p hdone =>
    rw [License.drain, if_neg hdone]
    refine ⟨ds, h, rfl, hlen, ?_⟩
    rw [not_and_or, h.symbols, List.length_map] at hdone
    omega

theorem Packed.refill {n : Nat} {p : Packer} {ds : List Nat} (h : Packed n p ds) (hbits : p.bits < 5)
    (hlen : ds.length ≤ 20) (b : UInt8) :
    ∃ ds', Packed (pushByte n b) (refill p b) ds' ∧ 5 * ds'.length + (refill p b).bits = 5 * ds.length + p.bits + 8 ∧
      ds'.length ≤ 20 ∧ ((refill p b).bits < 5 ∨ ds'.length = 20) := by
  have hb : b.toNat < 2 ^ 8 := UInt8.toNat_lt b
  have hpacked : Packed (pushByte n b) { p with acc := p.acc <<< 8 ||| b.toUInt32, bits := p.bits + 8 } ds :=
    { acc := by
        dsimp only
        have hshift : (n % 2 ^ 32) <<< ((8 : UInt32).toNat % 32) % 2 ^ 32 = (n % 2 ^ 24) <<< 8 := by
          rw [show (8 : UInt32).toNat % 32 = 8 from rfl, Nat.shiftLeft_eq, Nat.shiftLeft_eq]
          omega
        rw [UInt32.toNat_or, UInt32.toNat_shiftLeft, UInt8.toNat_toUInt32, h.acc, hshift,
          ← Nat.shiftLeft_add_eq_or_of_lt hb, Nat.shiftLeft_eq, pushByte]
        omega
      symbols := h.symbols
      digits := h.digits
      value := by
        dsimp only
        rw [Nat.add_comm p.bits, Nat.pow_add, ← Nat.div_div_eq_div_mul, h.value, pushByte]
        congr 1
        omega }
  obtain ⟨ds', hdrained, hcount, hrest⟩ := hpacked.drain (by dsimp only; omega) hlen
  exact ⟨ds', hdrained, hcount.trans (Nat.add_assoc _ _ _).symm, hrest⟩

theorem Packed.pack {n : Nat} {p : Packer} {ds : List Nat} (h : Packed n p ds) (hbits : p.bits < 5)
    (hlen : ds.length < 20) (rest : List UInt8) (henough : 100 ≤ 5 * ds.length + p.bits + 8 * rest.length) :
    ∃ ds', (License.pack p rest).symbols = ds'.map symbolAt ∧ ds'.length = 20 ∧ (∀ d ∈ ds', d < 32) ∧
      symbolValue ds' = rest.foldl pushByte n / 2 ^ (5 * ds.length + p.bits + 8 * rest.length - 100) := by
  induction rest generalizing n p ds with
  | nil =>
    rw [List.length_nil] at henough
    omega
  | cons b rest ih =>
    obtain ⟨ds', hpacked, hcount, hle, hrest⟩ := h.refill hbits hlen.le b
    rw [List.length_cons] at henough ⊢
    rw [License.pack, List.foldl_cons]
    rw [hpacked.symbols, List.length_map]
    by_cases hdone : ds'.length = 20
    · rw [if_pos hdone]
      refine ⟨ds', hpacked.symbols, hdone, hpacked.digits, ?_⟩
      have hsplit : 5 * ds.length + p.bits + 8 * (rest.length + 1) - 100 =
          8 * rest.length + (License.refill p b).bits := by omega
      rw [hpacked.value, hsplit, Nat.pow_add, ← Nat.div_div_eq_div_mul, foldl_pushByte_div]
    · rw [if_neg hdone]
      have hlow := hrest.resolve_right hdone
      have hexp : 5 * ds.length + p.bits + 8 * (rest.length + 1) =
          5 * ds'.length + (License.refill p b).bits + 8 * rest.length := by omega
      rw [hexp] at henough ⊢
      exact ih hpacked hlow (by omega) henough

theorem pack_spec (entropy : Vector UInt8 16) :
    ∃ ds, (pack ⟨0, 0, []⟩ entropy.toList).symbols = ds.map symbolAt ∧ ds.length = 20 ∧ (∀ d ∈ ds, d < 32) ∧
      symbolValue ds = firstHundredBits entropy := by
  have hstart : Packed 0 ⟨0, 0, []⟩ [] := ⟨rfl, rfl, List.forall_mem_nil _, rfl⟩
  have hlen : entropy.toList.length = 16 := entropy.length_toList
  have hpack := hstart.pack (by decide) (by decide) entropy.toList (by rw [hlen]; decide)
  rw [hlen] at hpack
  exact hpack

/-! ## The code -/

def symbolChar (i : Nat) : Char := crockford.getD i '0'

theorem symbolAt_eq (i : Fin 32) : symbolAt i = UInt8.ofNat (symbolChar i).toNat := by
  revert i
  decide

theorem symbolChar_mem {i : Nat} (h : i < 32) : symbolChar i ∈ crockford := by
  have hlen : i < crockford.length := h
  rw [symbolChar, List.getD_eq_getElem _ _ hlen]
  exact List.getElem_mem hlen

theorem symbolChar_injective {i j : Nat} (hi : i < 32) (hj : j < 32) (h : symbolChar i = symbolChar j) : i = j := by
  have hnodup : crockford.Nodup := by decide
  rw [symbolChar, symbolChar, List.getD_eq_getElem _ _ hi, List.getD_eq_getElem _ _ hj] at h
  exact (hnodup.getElem_inj_iff).mp h

theorem decodeUtf8_symbols {ds : List Nat} (h : ∀ d ∈ ds, d < 32) :
    decodeUtf8 (ds.map symbolAt) = some (ds.map symbolChar) := by
  have hascii : IsAscii (ds.map symbolChar) := by
    refine List.forall_mem_map.mpr fun d hd => ?_
    exact (mem_crockford_iff.mp (symbolChar_mem (h d hd))).1
  have hbytes : utf8 (ds.map symbolChar) = ds.map symbolAt := by
    rw [utf8_of_ascii hascii, List.map_map]
    exact List.map_congr_left fun d hd => (symbolAt_eq ⟨d, h d hd⟩).symm
  rw [← hbytes, decodeUtf8_utf8]

/-- The code of the entropy is the one of its first hundred bits. -/
theorem codeFromEntropy_spec (entropy : Vector UInt8 16) :
    ∃ ds w x y z, codeFromEntropy entropy = some (formatCode w x y z) ∧ Groups (ds.map symbolChar) w x y z ∧
      ds.length = 20 ∧ (∀ d ∈ ds, d < 32) ∧ symbolValue ds = firstHundredBits entropy := by
  obtain ⟨ds, hsymbols, hlen, hdigits, hvalue⟩ := pack_spec entropy
  have hall : ∀ c ∈ ds.map symbolChar, c ∈ crockford :=
    List.forall_mem_map.mpr fun d hd => symbolChar_mem (hdigits d hd)
  obtain ⟨w, x, y, z, hbody, hgroups⟩ := exists_groups (by rw [List.length_map, hlen]) hall
  have hgroup : Groups (ds.map symbolChar) w x y z := hbody ▸ groups_of_crockford hgroups
  obtain ⟨hw, hx, hy, hz⟩ := hgroup.slices
  refine ⟨ds, w, x, y, z, ?_, hgroup, hlen, hdigits, hvalue⟩
  rw [codeFromEntropy, hsymbols, decodeUtf8_symbols hdigits]
  simp only [Option.bind_eq_bind, Option.bind_some, Option.pure_def, hw, hx, hy, hz]

theorem symbolValue_injective {ds ds' : List Nat} (hlen : ds.length = ds'.length) (hdigits : ∀ d ∈ ds, d < 32)
    (hdigits' : ∀ d ∈ ds', d < 32) (h : symbolValue ds = symbolValue ds') : ds = ds' := by
  refine List.reverse_injective (Nat.ofDigits_inj_of_len_eq (by decide : 1 < 32) ?_ ?_ ?_ h)
  · rw [List.length_reverse, List.length_reverse, hlen]
  · exact fun d hd => hdigits d (List.mem_reverse.mp hd)
  · exact fun d hd => hdigits' d (List.mem_reverse.mp hd)

theorem codeFromEntropy_eq_iff (entropy entropy' : Vector UInt8 16) :
    codeFromEntropy entropy = codeFromEntropy entropy' ↔ firstHundredBits entropy = firstHundredBits entropy' := by
  obtain ⟨ds, w, x, y, z, hcode, hgroups, hlen, hdigits, hvalue⟩ := codeFromEntropy_spec entropy
  obtain ⟨ds', w', x', y', z', hcode', hgroups', hlen', hdigits', hvalue'⟩ := codeFromEntropy_spec entropy'
  have hsteady : ∀ {l : List Nat}, (∀ d ∈ l, d < 32) → ∀ c ∈ l.map symbolChar, Steady c := fun hl =>
    List.forall_mem_map.mpr fun d hd => (crockford_steady (symbolChar_mem (hl d hd))).1
  rw [hcode, hcode', Option.some.injEq, ← hvalue, ← hvalue']
  constructor
  · intro h
    have hkept := congrArg kept h
    rw [kept_formatCode (hgroups.1 ▸ hsteady hdigits), kept_formatCode (hgroups'.1 ▸ hsteady hdigits'),
      List.append_cancel_left_eq, ← hgroups.1, ← hgroups'.1] at hkept
    have heq : ds = ds' := by
      refine List.ext_getElem (hlen.trans hlen'.symm) fun i hi hi' => ?_
      have hget : symbolChar ds[i] = symbolChar ds'[i] := by
        have hat := congrArg (fun l : List Char => l[i]?) hkept
        simpa only [List.getElem?_map, List.getElem?_eq_getElem hi, List.getElem?_eq_getElem hi', Option.map_some,
          Option.some.injEq] using hat
      exact symbolChar_injective (hdigits _ (List.getElem_mem hi)) (hdigits' _ (List.getElem_mem hi')) hget
    rw [heq]
  · intro h
    obtain rfl := symbolValue_injective (hlen.trans hlen'.symm) hdigits hdigits' h
    obtain ⟨hw, hx, hy, hz⟩ := hgroups.slices
    obtain ⟨hw', hx', hy', hz'⟩ := hgroups'.slices
    rw [Option.some.inj (hw.symm.trans hw'), Option.some.inj (hx.symm.trans hx'),
      Option.some.inj (hy.symm.trans hy'), Option.some.inj (hz.symm.trans hz')]

/-- A text is read exactly unless it only looks like a code, or is a bare code that begins like the prefix. What is read
is read back, spellings that are read exactly are read alike, and a generated code is read as itself. -/
theorem codes_read_back (s : Str) :
    (ReadExactly s ↔ ¬ LooksLikeCode s ∧ ¬ BareWithPrefix s) ∧
    (∀ c, canonicalCode s = some (some c) → canonicalCode c = some (some c)) ∧
    (∀ t c, ReadExactly s → ReadExactly t → Spells s c → Spells t c → canonicalCode s = canonicalCode t) ∧
    (∀ entropy, ∃ c, codeFromEntropy entropy = some c ∧ canonicalCode c = some (some c)) ∧
    ∀ entropy entropy',
      codeFromEntropy entropy = codeFromEntropy entropy' ↔ firstHundredBits entropy = firstHundredBits entropy' := by
  refine ⟨readExactly_iff s, fun c => canonicalCode_idempotent, fun t c hs ht hsc htc => ?_, fun entropy => ?_,
    codeFromEntropy_eq_iff⟩
  · rw [(hs.2 c).mpr hsc, (ht.2 c).mpr htc]
  · obtain ⟨ds, w, x, y, z, hcode, hgroups, -, hdigits, -⟩ := codeFromEntropy_spec entropy
    refine ⟨_, hcode, canonicalCode_formatCode hgroups ?_⟩
    exact List.forall_mem_map.mpr fun d hd => (crockford_steady (symbolChar_mem (hdigits d hd))).1

/-! ## A text of dotless letters -/

/-- Ten times U+0131, whose low byte is that of `1`. -/
def dotless : Str := List.replicate 10 (Char.ofNat 0x131)

/-- The reader panics inside the third letter. -/
theorem dotless_misread : ¬ ReadExactly dotless := fun h => h.1 (by decide)

end Ccos.License
