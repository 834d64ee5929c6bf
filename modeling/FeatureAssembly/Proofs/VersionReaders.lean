import FeatureAssembly.Version
import FeatureAssembly.Proofs.Cutting
import FeatureAssembly.Proofs.Outcome

/-! The two readers of versions. What the strict one takes is spelled by one to three numbers between
dots and, after three of them, a qualifier. The lenient one takes a qualifier apart at its first dash
and puts it together again, so that it reads the same version from such a text. The text that a version
is written as spells this version again. -/

namespace FeatureAssembly

namespace Text

/-! Numbers. -/

theorem isDigits_iff {cs : List Char} : isDigits cs ↔ cs ≠ [] ∧ ∀ c ∈ cs, c.isDigit = true := by
  simp [isDigits]

theorem readNat?_eq_some_iff {bound n : Nat} {cs : List Char} : readNat? bound cs = some n ↔
    isDigits cs ∧ Nat.ofDigitChars 10 cs 0 = n ∧ n < bound := by
  simp only [readNat?, Bool.and_eq_true, decide_eq_true_eq, Option.ite_none_right_eq_some,
    Option.some.injEq]
  constructor
  · rintro ⟨⟨hdigits, hlt⟩, rfl⟩
    exact ⟨hdigits, rfl, hlt⟩
  · rintro ⟨hdigits, rfl, hlt⟩
    exact ⟨⟨hdigits, hlt⟩, rfl⟩

theorem readNat?_repr {bound n : Nat} (h : n < bound) : readNat? bound n.repr.toList = some n := by
  rw [readNat?_eq_some_iff, isDigits_iff, Nat.toList_repr]
  exact ⟨⟨Nat.toDigits_ne_nil, fun c => Nat.isDigit_of_mem_toDigits (by decide) (by decide)⟩,
    Nat.ofDigitChars_ten_toDigits, h⟩

theorem isDigit_of_readNat? {bound n : Nat} {cs : List Char} (h : readNat? bound cs = some n) :
    ∀ c ∈ cs, c.isDigit = true :=
  (isDigits_iff.mp (readNat?_eq_some_iff.mp h).1).2

theorem isBlank_of_isAlphanum {c : Char} (h : c.isAlphanum = true) : isBlank c = false := by
  have hrange : ∀ {m n : UInt32}, c.val ≥ m → c.val ≤ n → m.toNat ≤ c.toNat ∧ c.toNat ≤ n.toNat :=
    fun hm hn => ⟨UInt32.le_iff_toNat_le.mp hm, UInt32.le_iff_toNat_le.mp hn⟩
  have hspan : 48 ≤ c.toNat ∧ c.toNat ≤ 57 ∨ 65 ≤ c.toNat ∧ c.toNat ≤ 90 ∨
      97 ≤ c.toNat ∧ c.toNat ≤ 122 := by
    rcases Bool.or_eq_true_iff.mp h with halpha | hdigit
    · rcases Bool.or_eq_true_iff.mp halpha with hupper | hlower
      · have hbounds := of_decide_eq_true hupper
        exact .inr (.inl (hrange hbounds.1 hbounds.2))
      · have hbounds := Bool.and_eq_true_iff.mp hlower
        exact .inr (.inr (hrange (of_decide_eq_true hbounds.1) (of_decide_eq_true hbounds.2)))
    · have hbounds := Bool.and_eq_true_iff.mp hdigit
      exact .inl (hrange (of_decide_eq_true hbounds.1) (of_decide_eq_true hbounds.2))
  simp only [isBlank, Bool.or_eq_false_iff, Bool.and_eq_false_iff, decide_eq_false_iff_not,
    beq_eq_false_iff_ne]
  omega

end Text

namespace Version
open Text

/-! Spelling. -/

theorem isQualifierChar_iff {c : Char} :
    isQualifierChar c ↔ c.isAlphanum = true ∨ c = '_' ∨ c = '-' := by
  simp [isQualifierChar, or_assoc]

theorem isQualifierChar_of_isDigit {c : Char} (h : c.isDigit = true) : isQualifierChar c = true :=
  isQualifierChar_iff.mpr (.inl (Bool.or_eq_true_iff.mpr (.inr h)))

theorem isBlank_of_isQualifierChar {c : Char} (h : isQualifierChar c = true) : isBlank c = false := by
  rcases isQualifierChar_iff.mp h with h | rfl | rfl
  · exact isBlank_of_isAlphanum h
  · decide
  · decide

/-- The version that is spelled by parts of a text: up to three numbers, and then a qualifier. -/
inductive Spells : List (List Char) → Version → Prop where
  | major {a m} (ha : readNat? bound a = some m) : Spells [a] ⟨m, 0, 0, ""⟩
  | minor {a b m n} (ha : readNat? bound a = some m) (hb : readNat? bound b = some n) :
      Spells [a, b] ⟨m, n, 0, ""⟩
  | micro {a b c m n k} (ha : readNat? bound a = some m) (hb : readNat? bound b = some n)
      (hc : readNat? bound c = some k) : Spells [a, b, c] ⟨m, n, k, ""⟩
  | qualifier {a b c q m n k} (ha : readNat? bound a = some m) (hb : readNat? bound b = some n)
      (hc : readNat? bound c = some k) (hq : ∀ x ∈ q, isQualifierChar x = true) :
      Spells [a, b, c, q] ⟨m, n, k, String.ofList q⟩

namespace Spells
variable {l : List (List Char)} {v : Version}

theorem length_le (h : Spells l v) : l.length ≤ 4 := by
  cases h with
  | major => exact Nat.le_add_left 1 3
  | minor => exact Nat.le_add_left 2 2
  | micro => exact Nat.le_add_left 3 1
  | qualifier => exact Nat.le_refl 4

theorem isQualifierChar (h : Spells l v) : ∀ p ∈ l, ∀ c ∈ p, isQualifierChar c = true := by
  have hnumber : ∀ {p n}, readNat? bound p = some n → ∀ c ∈ p, Version.isQualifierChar c = true :=
    fun hp c hc => isQualifierChar_of_isDigit (isDigit_of_readNat? hp c hc)
  cases h with
  | major ha => simpa using hnumber ha
  | minor ha hb => simpa using ⟨hnumber ha, hnumber hb⟩
  | micro ha hb hc => simpa using ⟨hnumber ha, hnumber hb, hnumber hc⟩
  | qualifier ha hb hc hq => simpa using ⟨hnumber ha, hnumber hb, hnumber hc, hq⟩

theorem dot_not_mem (h : Spells l v) : ∀ p ∈ l, '.' ∉ p :=
  fun p hp hdot => absurd (h.isQualifierChar p hp '.' hdot) (by decide)

end Spells

/-! The strict reader. -/

theorem readNumber_eq_ok_iff {input : String} {cs : List Char} {n : Nat} :
    readNumber input cs = .ok n ↔ readNat? bound cs = some n := by
  unfold readNumber
  cases readNat? bound cs with
  | none => simp
  | some m => simp

theorem segments_cases (cs : List Char) :
    (segments cs = piecesOf '.' cs ∧ (piecesOf '.' cs).length ≤ 4) ∨
      (∃ a b c q, segments cs = [a, b, c, q] ∧ '.' ∈ q) ∧ 4 < (piecesOf '.' cs).length := by
  rw [segments, piecesOf_eq_of_cut]
  rcases cutFirst? '.' cs with _ | ⟨a, r⟩
  · exact .inl ⟨rfl, by simp⟩
  · dsimp only
    rw [piecesOf_eq_of_cut]
    rcases cutFirst? '.' r with _ | ⟨b, r⟩
    · exact .inl ⟨rfl, by simp⟩
    · dsimp only
      rw [piecesOf_eq_of_cut]
      rcases cutFirst? '.' r with _ | ⟨c, q⟩
      · exact .inl ⟨rfl, by simp⟩
      · dsimp only
        rw [piecesOf_eq_of_cut]
        cases hq : cutFirst? '.' q with
        | none => exact .inl ⟨rfl, by simp⟩
        | some cut =>
          have hrest : (piecesOf '.' cut.2).length ≠ 0 := by
            rw [piecesOf_eq_splitOn, Ne, List.length_eq_zero_iff]
            exact List.splitOn_ne_nil _ _
          refine .inr ⟨⟨a, b, c, q, rfl, ?_⟩, ?_⟩
          · rw [eq_append_of_cutFirst? hq]
            simp
          · simp only [List.length_cons]
            omega

theorem length_segments_le (cs : List Char) : (segments cs).length ≤ 4 := by
  rcases segments_cases cs with ⟨hseg, hlen⟩ | ⟨⟨a, b, c, q, hseg, -⟩, -⟩
  · rwa [hseg]
  · rw [hseg]
    exact Nat.le_refl 4

theorem spells_segments_iff {cs : List Char} {v : Version} :
    Spells (segments cs) v ↔ Spells (piecesOf '.' cs) v := by
  rcases segments_cases cs with ⟨hseg, -⟩ | ⟨⟨a, b, c, q, hseg, hdot⟩, hlen⟩
  · rw [hseg]
  · rw [hseg]
    constructor
    · intro h
      exact absurd hdot (h.dot_not_mem q (by simp))
    · intro h
      exact absurd h.length_le (Nat.not_le.mpr hlen)

theorem spells_of_parse {s : String} {v : Version} (h : parse s = .ok v) :
    Spells (segments (trim s).toList) v := by
  rw [parse] at h
  dsimp only at h
  split at h
  · cases h
  · have hlen := length_segments_le (trim s).toList
    generalize segments (trim s).toList = l at h hlen
    match l with
    | [] => cases h
    | [a] =>
      simp only [bind_eq_ok_iff, readNumber_eq_ok_iff] at h
      obtain ⟨m, ha, ⟨⟩⟩ := h
      exact .major ha
    | [a, b] =>
      simp only [bind_eq_ok_iff, readNumber_eq_ok_iff] at h
      obtain ⟨m, ha, n, hb, ⟨⟩⟩ := h
      exact .minor ha hb
    | [a, b, c] =>
      simp only [bind_eq_ok_iff, readNumber_eq_ok_iff] at h
      obtain ⟨m, ha, n, hb, k, hc, ⟨⟩⟩ := h
      exact .micro ha hb hc
    | [a, b, c, q] =>
      simp only [bind_eq_ok_iff, readNumber_eq_ok_iff] at h
      obtain ⟨m, ha, n, hb, k, hc, h⟩ := h
      split at h
      · next hq =>
        obtain ⟨⟩ := h
        exact .qualifier ha hb hc (List.all_eq_true.mp hq)
      · cases h

theorem parse_of_spells {s : String} {v : Version} (h : Spells (segments (trim s).toList) v) :
    parse s = .ok v := by
  have hne : trim s ≠ "" := by
    intro hempty
    rw [hempty] at h
    cases h with
    | major ha => cases ha
  rw [parse]
  dsimp only
  rw [if_neg hne]
  generalize segments (trim s).toList = l at h
  cases h with
  | major ha => simp only [readNumber, ha]; rfl
  | minor ha hb => simp only [readNumber, ha, hb]; rfl
  | micro ha hb hc => simp only [readNumber, ha, hb, hc]; rfl
  | qualifier ha hb hc hq => simp only [readNumber, ha, hb, hc, List.all_eq_true.mpr hq]; rfl

theorem parse_eq_ok_iff {s : String} {v : Version} :
    parse s = .ok v ↔ Spells (piecesOf '.' (trim s).toList) v :=
  ⟨fun h => spells_segments_iff.mp (spells_of_parse h),
    fun h => parse_of_spells (spells_segments_iff.mpr h)⟩

/-! The lenient reader. -/

theorem ofText?_of_no_dash {s : String} (h : '-' ∉ s.toList) :
    ofText? s = (leading? (piecesOf '.' s.toList)).map fun (major, minor, micro, dotted) =>
      ⟨major, minor, micro, dotted.getD ""⟩ := by
  rw [ofText?, cutFirst?_eq_none_iff.mpr h]
  dsimp only
  rcases leading? (piecesOf '.' s.toList) with _ | ⟨major, minor, micro, _ | r⟩
  · rfl
  · rfl
  · rfl

theorem ofText?_of_dash {s : String} {p q : List Char} (h : cutFirst? '-' s.toList = some (p, q)) :
    ofText? s = (leading? (piecesOf '.' p)).map fun (major, minor, micro, dotted) =>
      ⟨major, minor, micro, (dotted.map (· ++ "-")).getD "" ++ String.ofList q⟩ := by
  rw [ofText?, h]
  dsimp only
  rcases leading? (piecesOf '.' p) with _ | ⟨major, minor, micro, _ | r⟩
  · rfl
  · simp
  · rfl

theorem dash_not_mem {cs : List Char} {n : Nat} (h : readNat? bound cs = some n) : '-' ∉ cs :=
  fun hdash => absurd (isDigit_of_readNat? h '-' hdash) (by decide)

theorem ofText?_of_spells_of_no_dash {s : String} {v : Version}
    (h : Spells (piecesOf '.' s.toList) v) (hdash : '-' ∉ s.toList) : ofText? s = some v := by
  rw [ofText?_of_no_dash hdash]
  generalize piecesOf '.' s.toList = l at h
  cases h with
  | major ha => simp [leading?, ha]
  | minor ha hb => simp [leading?, ha, hb]
  | micro ha hb hc => simp [leading?, ha, hb, hc]
  | qualifier ha hb hc hq => simp [leading?, ha, hb, hc]

theorem ofText?_of_dashed {s : String} {a b c q : List Char} {m n k : Nat}
    (hs : piecesOf '.' s.toList = [a, b, c, q]) (ha : readNat? bound a = some m)
    (hb : readNat? bound b = some n) (hc : readNat? bound c = some k)
    (hq : ∀ x ∈ q, isQualifierChar x = true) (hdash : '-' ∈ q) :
    ofText? s = some ⟨m, n, k, String.ofList q⟩ := by
  have hjoin : ∀ r, ['.'].intercalate [a, b, c, r] = ['.'].intercalate [a, b, c, []] ++ r := by
    simp [List.intercalate]
  have hnumbers : '-' ∉ ['.'].intercalate [a, b, c, []] := by
    simpa [List.intercalate] using ⟨dash_not_mem ha, dash_not_mem hb, dash_not_mem hc⟩
  have htext : s.toList = ['.'].intercalate [a, b, c, []] ++ q := by
    rw [← hjoin, ← hs, piecesOf_eq_splitOn, List.intercalate_splitOn]
  obtain ⟨⟨p, r⟩, hcut⟩ := Option.ne_none_iff_exists'.mp
    (mt cutFirst?_eq_none_iff.mp (not_not.mpr hdash))
  have hwhole := cutFirst?_append_left hnumbers q
  rw [← htext, hcut, Option.map_some] at hwhole
  dsimp only at hwhole
  rw [← hjoin] at hwhole
  have hqualifier : q = p ++ '-' :: r := eq_append_of_cutFirst? hcut
  have hshorter : Spells [a, b, c, p] ⟨m, n, k, String.ofList p⟩ := by
    refine .qualifier ha hb hc fun x hx => hq x ?_
    rw [hqualifier]
    exact List.mem_append_left _ hx
  have hpieces : piecesOf '.' (['.'].intercalate [a, b, c, p]) = [a, b, c, p] := by
    rw [piecesOf_eq_splitOn]
    exact List.splitOn_intercalate '.' hshorter.dot_not_mem (by simp)
  rw [ofText?_of_dash hwhole, hpieces, hqualifier]
  simp [leading?, ha, hb, hc, String.ofList_append, String.append_assoc]

theorem ofText?_of_spells {s : String} {v : Version} (h : Spells (piecesOf '.' s.toList) v) :
    ofText? s = some v := by
  by_cases hdash : '-' ∈ s.toList
  · have hpart : ∃ p ∈ piecesOf '.' s.toList, '-' ∈ p := by
      by_contra hnone
      have hdot : '.' ≠ '-' := by decide
      refine forall_mem_of_pieces (P := (· ≠ '-')) hdot (fun p hp c hc heq => hnone ?_) _ hdash rfl
      obtain ⟨q, hq, rfl⟩ := List.mem_map.mp hp
      rw [String.toList_ofList] at hc
      exact ⟨q, hq, heq ▸ hc⟩
    generalize hl : piecesOf '.' s.toList = l at h hpart
    cases h with
    | major ha => simp [dash_not_mem ha] at hpart
    | minor ha hb => simp [dash_not_mem ha, dash_not_mem hb] at hpart
    | micro ha hb hc => simp [dash_not_mem ha, dash_not_mem hb, dash_not_mem hc] at hpart
    | qualifier ha hb hc hq =>
      have hmem := by simpa [dash_not_mem ha, dash_not_mem hb, dash_not_mem hc] using hpart
      exact ofText?_of_dashed hl ha hb hc hq hmem
  · exact ofText?_of_spells_of_no_dash h hdash

theorem ofText?_append_zero {s : String} (hdash : '-' ∉ s.toList) (hlen : (pieces '.' s).length ≤ 2) :
    ofText? (s ++ ".0") = ofText? s := by
  have happend : (s ++ ".0").toList = s.toList ++ '.' :: ['0'] := String.toList_append
  have hpieces : piecesOf '.' (s ++ ".0").toList = piecesOf '.' s.toList ++ [['0']] := by
    rw [happend, piecesOf_eq_splitOn, List.splitOn_append_cons_self, piecesOf_eq_splitOn]
    rfl
  have hdash' : '-' ∉ (s ++ ".0").toList := by
    rw [happend]
    simpa using hdash
  rw [ofText?_of_no_dash hdash, ofText?_of_no_dash hdash', hpieces]
  rw [pieces, List.length_map] at hlen
  have hne : piecesOf '.' s.toList ≠ [] := by
    rw [piecesOf_eq_splitOn]
    exact List.splitOn_ne_nil _ _
  have hzero : readNat? bound ['0'] = some 0 := by decide
  generalize piecesOf '.' s.toList = l at hlen hne
  rcases l with _ | ⟨a, _ | ⟨b, _ | ⟨c, l⟩⟩⟩
  · exact absurd rfl hne
  · cases ha : readNat? bound a with
    | none => simp [leading?, ha]
    | some m => simp [leading?, ha, hzero]
  · cases ha : readNat? bound a with
    | none => simp [leading?, ha]
    | some m =>
      cases hb : readNat? bound b with
      | none => simp [leading?, ha, hb]
      | some n => simp [leading?, ha, hb, hzero]
  · simp at hlen

/-! Writing. -/

def spelling (v : Version) : List (List Char) :=
  [v.major.repr.toList, v.minor.repr.toList, v.micro.repr.toList] ++
    if v.qualifier = "" then [] else [v.qualifier.toList]

theorem toList_text (v : Version) : v.text.toList = ['.'].intercalate v.spelling := by
  rw [text, spelling]
  split
  · simp [List.intercalate]
  · simp [List.intercalate]

theorem Spells.bounds {l : List (List Char)} {v : Version} (h : Spells l v) :
    v.major < bound ∧ v.minor < bound ∧ v.micro < bound ∧
      ∀ c ∈ v.qualifier.toList, Version.isQualifierChar c = true := by
  have hlt : ∀ {p n}, readNat? bound p = some n → n < bound :=
    fun hp => (readNat?_eq_some_iff.mp hp).2.2
  have hzero : 0 < bound := by decide
  cases h with
  | major ha => exact ⟨hlt ha, hzero, hzero, by simp⟩
  | minor ha hb => exact ⟨hlt ha, hlt hb, hzero, by simp⟩
  | micro ha hb hc => exact ⟨hlt ha, hlt hb, hlt hc, by simp⟩
  | qualifier ha hb hc hq => exact ⟨hlt ha, hlt hb, hlt hc, by simpa using hq⟩

theorem Spells.spelling {l : List (List Char)} {v : Version} (h : Spells l v) :
    Spells v.spelling v := by
  obtain ⟨hmajor, hminor, hmicro, hqualifier⟩ := h.bounds
  obtain ⟨major, minor, micro, qualifier⟩ := v
  rw [Version.spelling]
  split
  · next hempty =>
    obtain rfl : qualifier = "" := hempty
    exact .micro (readNat?_repr hmajor) (readNat?_repr hminor) (readNat?_repr hmicro)
  · have hspells := Spells.qualifier (readNat?_repr hmajor) (readNat?_repr hminor)
      (readNat?_repr hmicro) hqualifier
    rwa [String.ofList_toList] at hspells

theorem Spells.text {l : List (List Char)} {v : Version} (h : Spells l v) :
    Spells (piecesOf '.' v.text.toList) v := by
  have hcut : piecesOf '.' v.text.toList = v.spelling := by
    rw [toList_text, piecesOf_eq_splitOn]
    exact List.splitOn_intercalate '.' h.spelling.dot_not_mem (by simp [Version.spelling])
  rw [hcut]
  exact h.spelling

theorem Spells.trim_eq {s : String} {v : Version} (h : Spells (piecesOf '.' s.toList) v) :
    trim s = s := by
  have hdot : isBlank '.' = false := by decide
  refine trim_of_no_blank (forall_mem_of_pieces hdot fun p hp c hc => ?_)
  obtain ⟨q, hq, rfl⟩ := List.mem_map.mp hp
  rw [String.toList_ofList] at hc
  exact isBlank_of_isQualifierChar (h.isQualifierChar q hq c hc)

/-- From a text without blanks around it that the strict reader takes, the lenient one reads the same
version, and both read it again from the text that it is written as. Such texts are therefore compared
as their versions are. Of digits between dots, two numbers or fewer are read alike with a zero after
them. -/
theorem readers_agree :
    (∀ s v, trim s = s → parse s = .ok v →
      ofText? s = some v ∧ parse v.text = .ok v ∧ ofText? v.text = some v) ∧
    (∀ s t v w, trim s = s → parse s = .ok v → trim t = t → parse t = .ok w →
      compareTexts s t = v.compare w) ∧
    ∀ s, (pieces '.' s).length ≤ 2 → (∀ p ∈ pieces '.' s, ∀ c ∈ p.toList, c.isDigit = true) →
      ofText? (s ++ ".0") = ofText? s := by
  have spells : ∀ {s v}, trim s = s → parse s = .ok v → Spells (piecesOf '.' s.toList) v := by
    intro s v htrim h
    rw [parse_eq_ok_iff, htrim] at h
    exact h
  refine ⟨fun s v htrim h => ?_, fun s t v w hs hv ht hw => ?_, fun s hlen hdigits => ?_⟩
  · have hread := spells htrim h
    refine ⟨ofText?_of_spells hread, parse_eq_ok_iff.mpr ?_, ofText?_of_spells hread.text⟩
    rw [hread.text.trim_eq]
    exact hread.text
  · rw [compareTexts, ofText?_of_spells (spells hs hv), ofText?_of_spells (spells ht hw)]
  · refine ofText?_append_zero (fun hdash => ?_) hlen
    have hdot : '.' ≠ '-' := by decide
    refine forall_mem_of_pieces (P := (· ≠ '-')) hdot (fun p hp c hc heq => ?_) _ hdash rfl
    exact absurd (hdigits p hp c hc) (heq ▸ (by decide))

theorem readers_agree_on_dashes :
    ofText? "01.2.3.-a--" = some ⟨1, 2, 3, "-a--"⟩ ∧
      ofText? "1.2.3.-a--" = some ⟨1, 2, 3, "-a--"⟩ ∧
      compareTexts "01.2.3.-a--" "1.2.18446744073709551615" = .lt ∧
      ofText? "1.18446744073709551615.0" = some ⟨1, 18446744073709551615, 0, ""⟩ := by
  obtain ⟨hread, hcompare, hzero⟩ := readers_agree
  have hqualified : parse "01.2.3.-a--" = .ok ⟨1, 2, 3, "-a--"⟩ := by decide
  have hgreatest : parse "1.2.18446744073709551615" = .ok ⟨1, 2, 18446744073709551615, ""⟩ := by decide
  have hall : ((pieces '.' "1.18446744073709551615").all fun p => p.toList.all Char.isDigit) = true := by
    decide
  have hdigits : ∀ p ∈ pieces '.' "1.18446744073709551615", ∀ c ∈ p.toList, c.isDigit = true := by
    simpa only [List.all_eq_true] using hall
  obtain ⟨hsame, -, htext⟩ := hread _ _ (by decide) hqualified
  refine ⟨hsame, htext, ?_, ?_⟩
  · rw [hcompare _ _ _ _ (by decide) hqualified (by decide) hgreatest]
    decide
  · exact (hzero "1.18446744073709551615" (by decide) hdigits).trans (by decide)

end Version
end FeatureAssembly
