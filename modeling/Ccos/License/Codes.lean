import Ccos.License.CodeAgreement
import Ccos.Lib.CharBoundary

/-!
# Which texts are claim codes

A claim code is twenty symbols of the alphabet, in whatever case and with whatever separators, after an optional `CCOS`.
-/

namespace Ccos.License

def crockford : Str := "0123456789ABCDEFGHJKMNPQRSTVWXYZ".toList

/-- The text is a spelling of the code `c`. -/
def Spells (s c : Str) : Prop :=
  ∃ w x y z : Str, (∀ g ∈ [w, x, y, z], g.length = 5 ∧ ∀ ch ∈ g, ch ∈ crockford) ∧
    (kept s = w ++ x ++ y ++ z ∨ kept s = codePrefix ++ (w ++ x ++ y ++ z)) ∧ c = formatCode w x y z

/-- The reader returns, and the code it returns is the one that the text spells. -/
def ReadExactly (s : Str) : Prop := canonicalCode s ≠ none ∧ ∀ c, canonicalCode s = some (some c) ↔ Spells s c

/-- A code without the prefix whose own symbols begin like it. -/
def BareWithPrefix (s : Str) : Prop := (kept s).length = 20 ∧ (∀ c ∈ kept s, c ∈ crockford) ∧ codePrefix <+: kept s

/-! ## Symbols -/

/-- What the loop leaves as it is and the alphabet has, by its low byte. -/
def Steady (c : Char) : Prop := isSeparator c = false ∧ foldSymbol c = c ∧ inAlphabet c = true

theorem crockford_steady {c : Char} (h : c ∈ crockford) : Steady c ∧ c.toNat < 128 := by
  have hall : crockford.all fun c =>
      !isSeparator c && decide (foldSymbol c = c) && inAlphabet c && decide (c.toNat < 128) := by decide
  have hc := List.all_eq_true.mp hall c h
  simp only [Bool.and_eq_true, Bool.not_eq_true', decide_eq_true_eq] at hc
  exact ⟨⟨hc.1.1.1, hc.1.1.2, hc.1.2⟩, hc.2⟩

example : inAlphabet 'U' = false := by decide +kernel

theorem ascii_mem_crockford (n : Fin 128) (h : inAlphabet (Char.ofNat n) = true) : Char.ofNat n ∈ crockford := by
  revert n
  decide +kernel

theorem mem_crockford_iff {c : Char} : c ∈ crockford ↔ c.toNat < 128 ∧ inAlphabet c = true := by
  constructor
  · intro h
    obtain ⟨⟨-, -, hin⟩, hlt⟩ := crockford_steady h
    exact ⟨hlt, hin⟩
  · rintro ⟨hlt, hin⟩
    have hmem := ascii_mem_crockford ⟨c.toNat, hlt⟩
    rw [Char.ofNat_toNat] at hmem
    exact hmem hin

theorem codePrefix_crockford : ∀ c ∈ codePrefix, c ∈ crockford := by
  have hall : codePrefix.all fun c => decide (c ∈ crockford) := by decide
  exact fun c hc => of_decide_eq_true (List.all_eq_true.mp hall c hc)

theorem ascii_fold (n : Fin 128) (h : inAlphabet (foldSymbol (Char.ofNat n)) = true) :
    isSeparator (foldSymbol (Char.ofNat n)) = false ∧
      foldSymbol (foldSymbol (Char.ofNat n)) = foldSymbol (Char.ofNat n) := by
  revert n
  decide +kernel

theorem steady_foldSymbol {c : Char} (h : inAlphabet (foldSymbol c) = true) : Steady (foldSymbol c) := by
  by_cases hc : c.toNat < 128
  · have hfold := ascii_fold ⟨c.toNat, hc⟩
    rw [Char.ofNat_toNat] at hfold
    exact ⟨(hfold h).1, (hfold h).2, h⟩
  · obtain ⟨hsep, hfold⟩ := rust_of_high (Nat.le_of_not_lt hc)
    rw [hfold] at h ⊢
    exact ⟨hsep, hfold, h⟩

theorem steady_of_mem_kept {s : Str} (hin : AllInAlphabet (kept s)) {c : Char} (h : c ∈ kept s) : Steady c := by
  have hc := hin c h
  obtain ⟨d, -, rfl⟩ := List.mem_map.mp h
  exact steady_foldSymbol hc

theorem kept_append (s t : Str) : kept (s ++ t) = kept s ++ kept t := by
  rw [kept, List.filter_append, List.map_append]
  rfl

theorem kept_of_steady {s : Str} (h : ∀ c ∈ s, Steady c) : kept s = s := by
  rw [kept, List.filter_eq_self.mpr fun c hc => by rw [(h c hc).1]; rfl]
  exact (List.map_congr_left fun c hc => (h c hc).2.1).trans (List.map_id s)

theorem kept_formatCode {w x y z : Str} (h : ∀ c ∈ w ++ x ++ y ++ z, Steady c) :
    kept (formatCode w x y z) = codePrefix ++ (w ++ x ++ y ++ z) := by
  have hsep : isSeparator '-' = true := rfl
  have hdash : ∀ s : Str, kept ('-' :: s) = kept s := fun s => kept_cons_separator hsep s
  have htag : kept "CCOS-".toList = codePrefix := by decide
  simp only [List.forall_mem_append] at h
  obtain ⟨⟨⟨hw, hx⟩, hy⟩, hz⟩ := h
  unfold formatCode
  rw [kept_append, kept_append, kept_append, kept_append, htag, hdash, hdash, hdash, kept_of_steady hw,
    kept_of_steady hx, kept_of_steady hy, kept_of_steady hz]
  simp only [List.append_assoc]

/-! ## The reader -/

/-- Four groups of five bytes. -/
def Groups (body w x y z : Str) : Prop :=
  body = w ++ x ++ y ++ z ∧ byteLen w = 5 ∧ byteLen x = 5 ∧ byteLen y = 5 ∧ byteLen z = 5

theorem Groups.slices {body w x y z : Str} (h : Groups body w x y z) :
    slice body 0 5 = some w ∧ slice body 5 10 = some x ∧ slice body 10 15 = some y ∧ slice body 15 20 = some z := by
  obtain ⟨rfl, hw, hx, hy, hz⟩ := h
  refine ⟨slice_eq_some_iff.mpr ⟨[], x ++ y ++ z, ?_, rfl, hw⟩, slice_eq_some_iff.mpr ⟨w, y ++ z, ?_, hw, hx⟩,
    slice_eq_some_iff.mpr ⟨w ++ x, z, ?_, ?_, hy⟩, slice_eq_some_iff.mpr ⟨w ++ x ++ y, [], ?_, ?_, hz⟩⟩
  all_goals simp [hw, hx, hy]

theorem groups_of_slices {body w x y z : Str} (hlen : byteLen body = 20) (hw : slice body 0 5 = some w)
    (hx : slice body 5 10 = some x) (hy : slice body 10 15 = some y) (hz : slice body 15 20 = some z) :
    Groups body w x y z := by
  obtain ⟨a, b, hbody, ha, hw⟩ := slice_eq_some_iff.mp hw
  obtain ⟨a', b', hbody', ha', hx⟩ := slice_eq_some_iff.mp hx
  obtain ⟨a'', b'', hbody'', ha'', hy⟩ := slice_eq_some_iff.mp hy
  obtain ⟨c, d, hlast, hc, hz⟩ := slice_eq_some_iff.mp hz
  obtain rfl := byteLen_eq_zero ha
  rw [List.nil_append] at hbody
  obtain ⟨rfl, rfl⟩ := append_inj_of_byteLen (hbody'.symm.trans hbody) (ha'.trans hw.symm)
  have hthird : a'' ++ (y ++ b'') = (a' ++ x) ++ b' := by rw [List.append_assoc, ← hbody', hbody'']
  obtain ⟨rfl, rfl⟩ := append_inj_of_byteLen hthird (by rw [byteLen_append, ha', hx, ha''])
  have hfourth : c ++ (z ++ d) = (a' ++ x ++ y) ++ b'' := by
    rw [List.append_assoc, ← hbody'', hlast]
  obtain ⟨rfl, rfl⟩ := append_inj_of_byteLen hfourth (by rw [byteLen_append, ha'', hy, hc])
  have hd : byteLen d = 0 := by
    rw [hlast] at hlen
    simp only [byteLen_append, ha', hx, hy, hz] at hlen
    omega
  obtain rfl := byteLen_eq_zero hd
  exact ⟨by rw [hlast, List.append_nil], hw, hx, hy, hz⟩

theorem canonicalCode_eq_some {s c : Str} : canonicalCode s = some (some c) ↔
    AllInAlphabet (kept s) ∧ ∃ w x y z, Groups (codeBody (kept s)) w x y z ∧ c = formatCode w x y z := by
  rw [canonicalCode, symbolsOf_eq]
  by_cases hin : AllInAlphabet (kept s)
  swap
  · rw [if_neg hin]
    exact iff_of_false nofun fun h => hin h.1
  rw [if_pos hin, and_iff_right hin]
  dsimp only
  by_cases hlen : byteLen (codeBody (kept s)) = 20
  swap
  · rw [if_pos hlen]
    refine iff_of_false nofun ?_
    rintro ⟨w, x, y, z, ⟨hbody, hw, hx, hy, hz⟩, -⟩
    rw [hbody] at hlen
    simp [hw, hx, hy, hz] at hlen
  rw [if_neg (not_not_intro hlen)]
  simp only [Option.bind_eq_bind, Option.bind_eq_some_iff, Option.pure_def, Option.some.injEq]
  constructor
  · rintro ⟨w, hw, x, hx, y, hy, z, hz, rfl⟩
    exact ⟨w, x, y, z, groups_of_slices hlen hw hx hy hz, rfl⟩
  · rintro ⟨w, x, y, z, hgroups, rfl⟩
    obtain ⟨hw, hx, hy, hz⟩ := hgroups.slices
    exact ⟨w, hw, x, hx, y, hy, z, hz, rfl⟩

theorem canonicalCode_formatCode {body w x y z : Str} (hbody : Groups body w x y z) (h : ∀ c ∈ body, Steady c) :
    canonicalCode (formatCode w x y z) = some (some (formatCode w x y z)) := by
  have heq := hbody.1
  rw [heq] at h
  have hkept := kept_formatCode h
  refine canonicalCode_eq_some.mpr ⟨?_, w, x, y, z, ?_, rfl⟩
  · rw [hkept]
    exact List.forall_mem_append.mpr
      ⟨fun c hc => (mem_crockford_iff.mp (codePrefix_crockford c hc)).2, fun c hc => (h c hc).2.2⟩
  · rw [hkept, codeBody_eq, if_pos (List.isPrefixOf_iff_prefix.mpr (List.prefix_append _ _))]
    exact heq ▸ hbody

theorem mem_codeBody {s : Str} {c : Char} (h : c ∈ codeBody s) : c ∈ s := by
  rw [codeBody_eq] at h
  split at h
  · exact List.mem_of_mem_drop h
  · exact h

/-- A code that was read is read back. -/
theorem canonicalCode_idempotent {s c : Str} (h : canonicalCode s = some (some c)) :
    canonicalCode c = some (some c) := by
  obtain ⟨hin, w, x, y, z, hgroups, rfl⟩ := canonicalCode_eq_some.mp h
  exact canonicalCode_formatCode hgroups fun c hc => steady_of_mem_kept hin (mem_codeBody hc)

/-! ## Texts that are read exactly -/

theorem crockford_iff {s : Str} : (∀ c ∈ s, c ∈ crockford) ↔ IsAscii s ∧ AllInAlphabet s := by
  simp only [mem_crockford_iff, forall_and]
  rfl

theorem Spells.kept_crockford {s c : Str} (h : Spells s c) : ∀ ch ∈ kept s, ch ∈ crockford := by
  obtain ⟨w, x, y, z, hgroups, hkept, -⟩ := h
  simp only [List.forall_mem_cons, List.not_mem_nil, false_implies, implies_true, and_true] at hgroups
  have hbody : ∀ ch ∈ w ++ x ++ y ++ z, ch ∈ crockford := by
    simp only [List.forall_mem_append]
    exact ⟨⟨⟨hgroups.1.2, hgroups.2.1.2⟩, hgroups.2.2.1.2⟩, hgroups.2.2.2.2⟩
  rcases hkept with hkept | hkept
  · rwa [hkept]
  · rw [hkept, List.forall_mem_append]
    exact ⟨codePrefix_crockford, hbody⟩

theorem not_readExactly_of_looksLikeCode {s : Str} (h : LooksLikeCode s) : ¬ ReadExactly s := by
  obtain ⟨hascii, hin, hlen⟩ := h
  rintro ⟨hpanic, hread⟩
  rw [canonicalCode, symbolsOf_eq, if_pos hin] at hpanic
  dsimp only at hpanic
  rw [if_neg (not_not_intro hlen)] at hpanic
  obtain ⟨answer, hanswer⟩ := Option.ne_none_iff_exists'.mp hpanic
  simp only [Option.bind_eq_bind, Option.bind_eq_some_iff, Option.pure_def, Option.some.injEq] at hanswer
  obtain ⟨w, hw, x, hx, y, hy, z, hz, -⟩ := hanswer
  have hcode := canonicalCode_eq_some.mpr ⟨hin, w, x, y, z, groups_of_slices hlen hw hx hy hz, rfl⟩
  exact hascii (crockford_iff.mp ((hread _).mp hcode).kept_crockford).1

/-- Twenty symbols in fours of five. -/
theorem exists_groups {body : Str} (h : body.length = 20) (hall : ∀ c ∈ body, c ∈ crockford) :
    ∃ w x y z, body = w ++ x ++ y ++ z ∧ ∀ g ∈ [w, x, y, z], g.length = 5 ∧ ∀ ch ∈ g, ch ∈ crockford := by
  refine ⟨body.take 5, (body.drop 5).take 5, (body.drop 10).take 5, body.drop 15, ?_, ?_⟩
  · have hjoin : ∀ n, body.take n ++ (body.drop n).take 5 = body.take (n + 5) := fun n => (List.take_add ..).symm
    rw [hjoin 5, hjoin 10, List.take_append_drop]
  · have hsub : ∀ g : Str, g ⊆ body → ∀ ch ∈ g, ch ∈ crockford := fun g hg ch hch => hall ch (hg hch)
    simp only [List.forall_mem_cons, List.not_mem_nil, false_implies, implies_true, and_true, List.length_take,
      List.length_drop, h]
    exact ⟨⟨rfl, hsub _ fun ch hch => List.mem_of_mem_take hch⟩,
      ⟨rfl, hsub _ fun ch hch => List.mem_of_mem_drop (List.mem_of_mem_take hch)⟩,
      ⟨rfl, hsub _ fun ch hch => List.mem_of_mem_drop (List.mem_of_mem_take hch)⟩,
      ⟨trivial, hsub _ fun ch hch => List.mem_of_mem_drop hch⟩⟩

theorem groups_of_crockford {w x y z : Str} (h : ∀ g ∈ [w, x, y, z], g.length = 5 ∧ ∀ ch ∈ g, ch ∈ crockford) :
    Groups (w ++ x ++ y ++ z) w x y z := by
  have hlen : ∀ g ∈ [w, x, y, z], byteLen g = 5 := fun g hg => by
    obtain ⟨hg, hall⟩ := h g hg
    rw [byteLen_of_ascii (crockford_iff.mp hall).1, hg]
  exact ⟨rfl, hlen w (by simp), hlen x (by simp), hlen y (by simp), hlen z (by simp)⟩

theorem not_readExactly_of_bare {s : Str} (h : BareWithPrefix s) : ¬ ReadExactly s := by
  obtain ⟨hlen, hall, hprefix⟩ := h
  rintro ⟨-, hread⟩
  obtain ⟨w, x, y, z, hkept, hgroups⟩ := exists_groups hlen hall
  have hcode := (hread _).mpr ⟨w, x, y, z, hgroups, .inl hkept, rfl⟩
  obtain ⟨hin, w', x', y', z', ⟨hbody, hw, hx, hy, hz⟩, -⟩ := canonicalCode_eq_some.mp hcode
  have hascii := isAscii_codeBody (crockford_iff.mp hall).1
  have hbytes : byteLen (codeBody (kept s)) = 20 := by
    rw [hbody]
    simp only [byteLen_append, hw, hx, hy, hz]
  rw [byteLen_of_ascii hascii, codeBody_eq, if_pos (List.isPrefixOf_iff_prefix.mpr hprefix), List.length_drop,
    hlen] at hbytes
  cases hbytes

theorem readExactly_of_refused {s : Str} (h : canonicalCode s = some none) (hspells : ∀ c, ¬ Spells s c) :
    ReadExactly s := by
  refine ⟨by rw [h]; nofun, fun c => ?_⟩
  rw [h]
  exact iff_of_false nofun (hspells c)

theorem readExactly_of_crockford {s : Str} (hall : ∀ c ∈ kept s, c ∈ crockford) (hbare : ¬ BareWithPrefix s) :
    ReadExactly s := by
  obtain ⟨hascii, hin⟩ := crockford_iff.mp hall
  constructor
  · intro hpanic
    have hsame := canonicalCode_of_ascii hascii hin
    rw [SameCode, hpanic] at hsame
    cases hsame
  intro c
  rw [canonicalCode_eq_some, and_iff_right hin]
  have hbody : ∀ {w x y z : Str}, Groups (codeBody (kept s)) w x y z →
      ∀ g ∈ [w, x, y, z], g.length = 5 ∧ ∀ ch ∈ g, ch ∈ crockford := by
    rintro w x y z ⟨hbody, hw, hx, hy, hz⟩ g hg
    have hmem : ∀ ch ∈ g, ch ∈ crockford := fun ch hch => hall ch <| mem_codeBody <| by
      rw [hbody]
      simp only [List.mem_cons, List.not_mem_nil, or_false] at hg
      rcases hg with rfl | rfl | rfl | rfl <;> simp [hch]
    refine ⟨?_, hmem⟩
    rw [← byteLen_of_ascii (crockford_iff.mp hmem).1]
    simp only [List.mem_cons, List.not_mem_nil, or_false] at hg
    rcases hg with rfl | rfl | rfl | rfl <;> assumption
  constructor
  · rintro ⟨w, x, y, z, hgroups, rfl⟩
    refine ⟨w, x, y, z, hbody hgroups, ?_, rfl⟩
    by_cases hprefix : codePrefix <+: kept s
    · obtain ⟨rest, hrest⟩ := hprefix
      right
      rw [← hgroups.1, codeBody_eq, if_pos (List.isPrefixOf_iff_prefix.mpr ⟨rest, hrest⟩), ← hrest]
      rfl
    · left
      rw [← hgroups.1, codeBody_eq, if_neg fun h => hprefix (List.isPrefixOf_iff_prefix.mp h)]
  · rintro ⟨w, x, y, z, hgroups, hkept, rfl⟩
    refine ⟨w, x, y, z, ?_, rfl⟩
    have hgroup := groups_of_crockford hgroups
    rcases hkept with hkept | hkept
    · have hlen : (kept s).length = 20 := by
        rw [← byteLen_of_ascii hascii, hkept]
        obtain ⟨-, hw, hx, hy, hz⟩ := hgroup
        simp only [byteLen_append, hw, hx, hy, hz]
      rw [codeBody_eq, if_neg fun h => hbare ⟨hlen, hall, List.isPrefixOf_iff_prefix.mp h⟩, hkept]
      exact hgroup
    · rw [codeBody_eq, hkept, if_pos (List.isPrefixOf_iff_prefix.mpr (List.prefix_append _ _))]
      exact hgroup

theorem readExactly_iff (s : Str) : ReadExactly s ↔ ¬ LooksLikeCode s ∧ ¬ BareWithPrefix s := by
  constructor
  · exact fun h => ⟨fun hlook => not_readExactly_of_looksLikeCode hlook h,
      fun hbare => not_readExactly_of_bare hbare h⟩
  rintro ⟨hlook, hbare⟩
  by_cases hall : ∀ c ∈ kept s, c ∈ crockford
  · exact readExactly_of_crockford hall hbare
  refine readExactly_of_refused ?_ fun c hspells => hall hspells.kept_crockford
  rw [canonicalCode, symbolsOf_eq]
  by_cases hin : AllInAlphabet (kept s)
  · rw [if_pos hin]
    have hascii : ¬ IsAscii (kept s) := fun hascii => hall (crockford_iff.mpr ⟨hascii, hin⟩)
    exact if_pos fun hlen => hlook ⟨hascii, hin, hlen⟩
  · rw [if_neg hin]

end Ccos.License
