import FeatureAssembly.Proofs.CopyIntoEmpty
import FeatureAssembly.Property.Substitution
import Mathlib.Data.List.Infix

/-! Placeholders within texts. A text is read once from left to right, placeholder by placeholder,
and so it can be substituted part by part: what stands before a placeholder, the value of its name
as it is, and what follows. -/

namespace FeatureAssembly.Substitution

def opening : List Char := ['$', '\x7b']

def closing : Char := '\x7d'

def HasPlaceholder (cs : List Char) : Prop :=
  ∃ before after, cs = before ++ opening ++ after ∧ closing ∈ after

/-- A text as it is read: its placeholders, each as what stands before it and its name, and what
remains when no further one is found. -/
inductive Scans : List Char → List (List Char × String) → List Char → Prop where
  | remains {cs} (none_left : ¬ HasPlaceholder cs) : Scans cs [] cs
  | placeholder {before : List Char} {name : String} {after found rest}
      (first : ¬ opening <:+: before) (ended : closing ∉ name.toList)
      (next : Scans after found rest) :
      Scans (before ++ opening ++ name.toList ++ closing :: after) ((before, name) :: found) rest

/-- Whether no opening is left outside the placeholders. What stands before a placeholder never has
one, as the first opening begins it. -/
def IsClosed (cs : List Char) : Prop := ∃ found rest, Scans cs found rest ∧ ¬ opening <:+: rest

variable {cs before after name rest : List Char} {found : List (List Char × String)}

theorem hasPlaceholder_iff :
    HasPlaceholder cs ↔ ∃ t ∈ cs.tails, opening <+: t ∧ closing ∈ t.drop opening.length := by
  constructor
  · rintro ⟨before, after, rfl, hafter⟩
    refine ⟨opening ++ after, ?_, List.prefix_append .., ?_⟩
    · rw [List.mem_tails, List.append_assoc]
      exact List.suffix_append ..
    · rwa [List.drop_left]
  · rintro ⟨t, ht, ⟨after, rfl⟩, hafter⟩
    obtain ⟨before, rfl⟩ := (List.mem_tails ..).mp ht
    rw [List.drop_left] at hafter
    exact ⟨before, after, (List.append_assoc ..).symm, hafter⟩

instance instDecidableHasPlaceholder : Decidable (HasPlaceholder cs) :=
  decidable_of_iff _ hasPlaceholder_iff.symm

/-! First openings. -/

theorem exists_first_opening (before after : List Char) : ∃ p q,
    before ++ opening ++ after = p ++ opening ++ q ∧ after <:+ q ∧ ¬ opening <:+: p := by
  induction hn : before.length using Nat.strong_induction_on generalizing before after with
  | _ n ih =>
    by_cases hfirst : opening <:+: before
    · obtain ⟨s, t, rfl⟩ := hfirst
      have hlt : s.length < n := by
        rw [← hn]
        simp [opening]
      obtain ⟨p, q, hpq, hsuffix, hp⟩ := ih s.length hlt s (t ++ opening ++ after) rfl
      refine ⟨p, q, ?_, (List.suffix_append (t ++ opening) after).trans hsuffix, hp⟩
      rw [← hpq]
      simp only [List.append_assoc]
    · exact ⟨before, after, rfl, List.suffix_refl after, hfirst⟩

theorem HasPlaceholder.exists_first (h : HasPlaceholder cs) :
    ∃ before, ∃ name : String, ∃ after, cs = before ++ opening ++ name.toList ++ closing :: after ∧
      ¬ opening <:+: before ∧ closing ∉ name.toList := by
  obtain ⟨p, q, rfl, hq⟩ := h
  obtain ⟨before, tail, hsplit, hsuffix, hfirst⟩ := exists_first_opening p q
  obtain ⟨name, after, rfl, hname⟩ := List.eq_append_cons_of_mem (hsuffix.subset hq)
  refine ⟨before, String.ofList name, after, ?_, hfirst, by rwa [String.toList_ofList]⟩
  rw [hsplit, String.toList_ofList]
  simp only [List.append_assoc]

theorem exists_scans (cs : List Char) : ∃ found rest, Scans cs found rest := by
  induction hn : cs.length using Nat.strong_induction_on generalizing cs with
  | _ n ih =>
    by_cases h : HasPlaceholder cs
    · obtain ⟨before, name, after, rfl, hfirst, hname⟩ := h.exists_first
      have hlt : after.length < n := by
        rw [← hn]
        simp
        omega
      obtain ⟨found, rest, hscans⟩ := ih after.length hlt after rfl
      exact ⟨_, _, .placeholder hfirst hname hscans⟩
    · exact ⟨_, _, .remains h⟩

/-! Pieces. -/

theorem scan_literal {c : Char} (h : ¬ opening <+: c :: cs) :
    scan none (c :: cs) = .literal c :: scan none cs := by
  rw [scan]
  rintro tail rfl rfl
  exact h ⟨tail, rfl⟩

theorem not_opens_before {c : Char} (h : ¬ opening <+: c :: before) (after : List Char) :
    ¬ opening <+: c :: (before ++ opening ++ after) := by
  rintro ⟨tail, htail⟩
  cases before with
  | nil => simp [opening] at htail
  | cons d before =>
    obtain ⟨rfl, rfl, -⟩ : '$' = c ∧ '\x7b' = d ∧ tail = before ++ opening ++ after := by
      simpa [opening] using htail
    exact h ⟨before, rfl⟩

theorem scan_before (h : ¬ opening <:+: before) (after : List Char) :
    scan none (before ++ opening ++ after) = before.map .literal ++ scan (some []) after := by
  induction before with
  | nil => rfl
  | cons c before ih =>
    rw [List.infix_cons_iff, not_or] at h
    rw [List.cons_append, List.cons_append, scan_literal (not_opens_before h.1 after), ih h.2]
    rfl

theorem scan_of_no_opening (h : ¬ opening <:+: cs) : scan none cs = cs.map .literal := by
  induction cs with
  | nil => rfl
  | cons c cs ih =>
    rw [List.infix_cons_iff, not_or] at h
    rw [scan_literal h.1, ih h.2]
    rfl

theorem scan_name (h : closing ∉ name) (read after : List Char) :
    scan (some read) (name ++ closing :: after) =
      .placeholder (String.ofList (read.reverse ++ name)) :: scan none after := by
  induction name generalizing read with
  | nil => simp [closing, scan]
  | cons c name ih =>
    rw [List.mem_cons, not_or] at h
    have hc : c ≠ '\x7d' := Ne.symm h.1
    rw [List.cons_append, scan, ih h.2]
    · simp
    · exact hc

theorem scan_unended (h : closing ∉ cs) (read : List Char) :
    scan (some read) cs = (opening ++ read.reverse ++ cs).map .literal := by
  induction cs generalizing read with
  | nil => simp [scan, opening]
  | cons c cs ih =>
    rw [List.mem_cons, not_or] at h
    have hc : c ≠ '\x7d' := Ne.symm h.1
    rw [scan, ih h.2]
    · simp
    · exact hc

theorem scan_of_no_placeholder (h : ¬ HasPlaceholder cs) : scan none cs = cs.map .literal := by
  by_cases hopening : opening <:+: cs
  · obtain ⟨s, t, rfl⟩ := hopening
    obtain ⟨before, after, hsplit, -, hfirst⟩ := exists_first_opening s t
    have hafter : closing ∉ after := fun hmem => h ⟨before, after, hsplit, hmem⟩
    rw [hsplit, scan_before hfirst, scan_unended hafter]
    simp
  · exact scan_of_no_opening hopening

def reading (found : List (List Char × String)) (rest : List Char) : List Piece :=
  (found.flatMap fun p => p.1.map .literal ++ [.placeholder p.2]) ++ rest.map .literal

theorem reading_cons (before : List Char) (name : String) (found : List (List Char × String))
    (rest : List Char) : reading ((before, name) :: found) rest =
      before.map .literal ++ .placeholder name :: reading found rest := by
  simp [reading]

namespace Scans

theorem scan_eq (h : Scans cs found rest) : scan none cs = reading found rest := by
  induction h with
  | remains h => exact scan_of_no_placeholder h
  | @placeholder before name after _ _ hfirst hname _ ih =>
    rw [List.append_assoc _ _ (closing :: _), scan_before hfirst, scan_name hname, ih, reading_cons]
    simp

theorem scan_append_opening (h : Scans cs found rest) (hrest : ¬ opening <:+: rest)
    (after : List Char) :
    scan none (cs ++ opening ++ after) = scan none cs ++ scan (some []) after := by
  induction h with
  | remains _ => rw [scan_before hrest, scan_of_no_opening hrest]
  | @placeholder before name tail _ _ hfirst hname _ ih =>
    have hwhole : before ++ opening ++ name.toList ++ closing :: tail ++ opening ++ after =
        before ++ opening ++ (name.toList ++ closing :: (tail ++ opening ++ after)) := by simp
    have hpart : before ++ opening ++ name.toList ++ closing :: tail =
        before ++ opening ++ (name.toList ++ closing :: tail) := by simp
    rw [hwhole, hpart, scan_before hfirst, scan_before hfirst, scan_name hname, scan_name hname,
      ih hrest]
    simp

end Scans

def withPlaceholder (u name v : String) : String := u ++ "$\x7b" ++ name ++ "\x7d" ++ v

theorem pieces_withPlaceholder {u name v : String} (hu : IsClosed u.toList)
    (hname : closing ∉ name.toList) :
    pieces (withPlaceholder u name v) = pieces u ++ .placeholder name :: pieces v := by
  obtain ⟨found, rest, hscans, hrest⟩ := hu
  have hwhole : (withPlaceholder u name v).toList =
      u.toList ++ opening ++ (name.toList ++ closing :: v.toList) := by
    simp [withPlaceholder, opening, closing]
  rw [pieces, hwhole, hscans.scan_append_opening hrest, scan_name hname]
  simp [pieces]

/-! Filling in. -/

section
variable {value? : String → Option String} {ps qs : List Piece}

theorem fill_literals (value? : String → Option String) (cs : List Char) (ps : List Piece) :
    fill value? (cs.map .literal ++ ps) = (fill value? ps).map (cs ++ ·) := by
  induction cs with
  | nil => exact (congrFun Except.map_id _).symm
  | cons c cs ih =>
    rw [List.map_cons, List.cons_append, fill, ih]
    cases fill value? ps <;> rfl

theorem fill_append (value? : String → Option String) (ps qs : List Piece) :
    fill value? (ps ++ qs) = (fill value? ps).bind fun a => (fill value? qs).map (a ++ ·) := by
  induction ps with
  | nil => exact (congrFun Except.map_id _).symm
  | cons p ps ih =>
    cases p with
    | literal c =>
      rw [List.cons_append, fill, fill, ih]
      cases fill value? ps <;> cases fill value? qs <;> rfl
    | placeholder name =>
      rw [List.cons_append, fill, fill, ih]
      cases value? name with
      | none => rfl
      | some v => cases fill value? ps <;> cases fill value? qs <;> simp [Except.map, Except.bind]

theorem fill_reading_cons (value? : String → Option String) (before : List Char) (name : String)
    (found : List (List Char × String)) (rest : List Char) :
    fill value? (reading ((before, name) :: found) rest) =
      match value? name with
      | none => .error name
      | some v => (fill value? (reading found rest)).map (before ++ v.toList ++ ·) := by
  rw [reading_cons, fill_literals, fill]
  cases value? name with
  | none => rfl
  | some v => cases fill value? (reading found rest) <;> simp [Except.map]

theorem fill_reading_of_defined (h : ∀ name ∈ found.map Prod.snd, (value? name).isSome) :
    fill value? (reading found rest) =
      .ok ((found.flatMap fun p => p.1 ++ ((value? p.2).getD "").toList) ++ rest) := by
  induction found with
  | nil =>
    have hrest := fill_literals value? rest []
    rw [List.append_nil] at hrest
    exact hrest.trans (congrArg Except.ok (List.append_nil rest))
  | cons p found ih =>
    rw [List.map_cons, List.forall_mem_cons] at h
    obtain ⟨v, hv⟩ := Option.isSome_iff_exists.mp h.1
    rw [fill_reading_cons, hv, ih h.2, List.flatMap_cons, hv, List.append_assoc]
    rfl

theorem fill_reading_of_undefined {earlier later : List String} {name : String}
    (hnames : found.map Prod.snd = earlier ++ name :: later) (hname : value? name = none)
    (hearlier : ∀ x ∈ earlier, (value? x).isSome) :
    fill value? (reading found rest) = .error name := by
  induction found generalizing earlier with
  | nil => simp at hnames
  | cons p found ih =>
    rw [fill_reading_cons]
    cases earlier with
    | nil =>
      obtain ⟨rfl, -⟩ := List.cons.inj hnames
      rw [hname]
    | cons x earlier =>
      obtain ⟨rfl, hrest⟩ := List.cons.inj hnames
      rw [List.forall_mem_cons] at hearlier
      obtain ⟨v, hv⟩ := Option.isSome_iff_exists.mp hearlier.1
      rw [hv, ih hrest hearlier.2]
      rfl

end

/-! Values of names. -/

section
variable {overrides : Table String} {vars : Table Property} {s u v : String}

def valueOf? (overrides : Table String) (vars : Table Property) (name : String) : Option String :=
  (Table.get? overrides name).or (Properties.value? vars name)

theorem lookup?_eq (overrides : Table String) (vars : Table Property) :
    lookup? overrides vars = valueOf? overrides vars := by
  funext name
  unfold lookup? valueOf?
  cases Table.get? overrides name <;> rfl

def IsKnown (overrides : Table String) (vars : Table Property) (name : String) : Prop :=
  name ∈ Roster.keys overrides ∨ name ∈ Roster.keys vars

theorem isSome_valueOf? {name : String} :
    (valueOf? overrides vars name).isSome ↔ IsKnown overrides vars name := by
  simp [valueOf?, IsKnown, Table.get?, Properties.value?, Roster.find?_isSome_iff]

theorem valueOf?_eq_none_iff {name : String} :
    valueOf? overrides vars name = none ↔ ¬ IsKnown overrides vars name := by
  rw [← isSome_valueOf?, Option.not_isSome_iff_eq_none]

theorem substitute_of_fill {cs : List Char}
    (h : fill (valueOf? overrides vars) (pieces s) = .ok cs) :
    substitute overrides vars s = .ok (String.ofList cs) := by
  rw [substitute, lookup?_eq, h]

theorem substitute_of_undefined {name : String}
    (h : fill (valueOf? overrides vars) (pieces s) = .error name) :
    substitute overrides vars s = .error (.undefinedVariable name s) := by
  rw [substitute, lookup?_eq, h]

theorem fill_of_substitute {r : String} (h : substitute overrides vars s = .ok r) :
    fill (valueOf? overrides vars) (pieces s) = .ok r.toList := by
  rw [substitute, lookup?_eq] at h
  split at h
  · next cs hcs => rw [hcs, ← Except.ok.inj h, String.toList_ofList]
  · cases h

theorem exists_of_substitute_eq_error {e : MergeError}
    (h : substitute overrides vars s = .error e) : ∃ name, e = .undefinedVariable name s ∧
      fill (valueOf? overrides vars) (pieces s) = .error name := by
  rw [substitute, lookup?_eq] at h
  split at h
  · cases h
  · next name hname => exact ⟨name, (Except.error.inj h).symm, hname⟩

/-- What becomes of a text that is read so: each name gives way to its value, or the first one that
is not known is reported with the whole text. -/
structure IsSubstituted (overrides : Table String) (vars : Table Property) (s : String)
    (found : List (List Char × String)) (rest : List Char) : Prop where
  known : (∀ name ∈ found.map Prod.snd, IsKnown overrides vars name) →
    substitute overrides vars s = .ok (String.ofList
      ((found.flatMap fun p => p.1 ++ ((valueOf? overrides vars p.2).getD "").toList) ++ rest))
  unknown : ∀ earlier name later, found.map Prod.snd = earlier ++ name :: later →
    (∀ x ∈ earlier, IsKnown overrides vars x) → ¬ IsKnown overrides vars name →
      substitute overrides vars s = .error (.undefinedVariable name s)

theorem Scans.isSubstituted (h : Scans s.toList found rest) :
    IsSubstituted overrides vars s found rest where
  known hknown := by
    apply substitute_of_fill
    rw [pieces, h.scan_eq]
    exact fill_reading_of_defined fun name hname => isSome_valueOf?.mpr (hknown name hname)
  unknown earlier name later hnames hearlier hname := by
    apply substitute_of_undefined
    rw [pieces, h.scan_eq]
    exact fill_reading_of_undefined hnames (valueOf?_eq_none_iff.mpr hname)
      fun x hx => isSome_valueOf?.mpr (hearlier x hx)

structure IsComposed (overrides : Table String) (vars : Table Property) (u name v : String) :
    Prop where
  filled : ∀ a w b, substitute overrides vars u = .ok a → valueOf? overrides vars name = some w →
    substitute overrides vars v = .ok b →
      substitute overrides vars (withPlaceholder u name v) = .ok (a ++ w ++ b)
  fails_before : ∀ e, substitute overrides vars u = .error e → ∃ m, e = .undefinedVariable m u ∧
    substitute overrides vars (withPlaceholder u name v) =
      .error (.undefinedVariable m (withPlaceholder u name v))
  fails_at : ∀ a, substitute overrides vars u = .ok a → valueOf? overrides vars name = none →
    substitute overrides vars (withPlaceholder u name v) =
      .error (.undefinedVariable name (withPlaceholder u name v))
  fails_after : ∀ a w e, substitute overrides vars u = .ok a →
    valueOf? overrides vars name = some w → substitute overrides vars v = .error e →
      ∃ m, e = .undefinedVariable m v ∧ substitute overrides vars (withPlaceholder u name v) =
        .error (.undefinedVariable m (withPlaceholder u name v))

theorem isComposed_of_closed {name : String} (hu : IsClosed u.toList)
    (hname : closing ∉ name.toList) : IsComposed overrides vars u name v := by
  have hpieces := pieces_withPlaceholder (v := v) hu hname
  refine ⟨fun a w b ha hw hb => ?_, fun e he => ?_, fun a ha hw => ?_, fun a w e ha hw he => ?_⟩
  · have hfill : fill (valueOf? overrides vars) (pieces (withPlaceholder u name v)) =
        .ok (a.toList ++ (w.toList ++ b.toList)) := by
      rw [hpieces, fill_append, fill_of_substitute ha, fill, hw, fill_of_substitute hb]
      rfl
    rw [substitute_of_fill hfill]
    simp [String.append_assoc]
  · obtain ⟨m, rfl, hm⟩ := exists_of_substitute_eq_error he
    refine ⟨m, rfl, substitute_of_undefined ?_⟩
    rw [hpieces, fill_append, hm]
    rfl
  · apply substitute_of_undefined
    rw [hpieces, fill_append, fill_of_substitute ha, fill, hw]
    rfl
  · obtain ⟨m, rfl, hm⟩ := exists_of_substitute_eq_error he
    refine ⟨m, rfl, substitute_of_undefined ?_⟩
    rw [hpieces, fill_append, fill_of_substitute ha, fill, hw, hm]
    rfl

theorem substitute_of_no_placeholder (h : ¬ HasPlaceholder s.toList) :
    substitute overrides vars s = .ok s := by
  have hsame : IsSubstituted overrides vars s [] s.toList := (Scans.remains h).isSubstituted
  simpa using hsame.known

end

/-- A text without placeholders stays as it is; a placeholder behind a closed text gives way to the
value of its name, whatever stands around it; and every text can be read to its end, after which
each of its names has given way to its value or the first that is not known has been reported. -/
theorem substitute_composes (overrides : Table String) (vars : Table Property) :
    (∀ s : String, ¬ HasPlaceholder s.toList → substitute overrides vars s = .ok s) ∧
    (∀ u name v : String, IsClosed u.toList → closing ∉ name.toList →
      IsComposed overrides vars u name v) ∧
    ∀ s : String, ∃ found rest, Scans s.toList found rest ∧
      IsSubstituted overrides vars s found rest := by
  refine ⟨fun s => substitute_of_no_placeholder, fun u name v => isComposed_of_closed, fun s => ?_⟩
  obtain ⟨found, rest, hscans⟩ := exists_scans s.toList
  exact ⟨found, rest, hscans, hscans.isSubstituted⟩

end FeatureAssembly.Substitution

namespace FeatureAssembly
open Substitution

/-- A run of dollar signs opens one placeholder, a value that looks like a placeholder stays, an
unterminated one is copied, and the first unknown name is reported. -/
theorem Substitution.substitute_dollars_composes :
    ¬ HasPlaceholder "b\x7d $\x7bopen".toList ∧
    substitute [] [] "b\x7d $\x7bopen" = .ok "b\x7d $\x7bopen" ∧
    IsClosed "$$\x7ba\x7d-".toList ∧ closing ∉ "b".toList ∧
    substitute [("a", "$\x7bb\x7d")] [("b", .ofValue "x")]
      (withPlaceholder "$$\x7ba\x7d-" "b" "$\x7bopen") = .ok "$$\x7bb\x7d-x$\x7bopen" ∧
    substitute [("a", "")] [] (withPlaceholder "$$\x7ba\x7d-" "b" "$\x7bc\x7d") =
      .error (.undefinedVariable "b" "$$\x7ba\x7d-$\x7bb\x7d$\x7bc\x7d") := by
  have hplain : ¬ HasPlaceholder "b\x7d $\x7bopen".toList := by decide
  have hclosed : IsClosed "$$\x7ba\x7d-".toList := by
    have hscans : Scans (['$'] ++ opening ++ "a".toList ++ closing :: ['-']) [(['$'], "a")] ['-'] :=
      .placeholder (by decide) (by decide) (.remains (by decide))
    exact ⟨_, _, hscans, by decide⟩
  obtain ⟨hfixed, -, -⟩ := substitute_composes [] []
  obtain ⟨-, hcomposed, -⟩ := substitute_composes [("a", "$\x7bb\x7d")] [("b", .ofValue "x")]
  obtain ⟨-, hunknown, -⟩ := substitute_composes [("a", "")] []
  refine ⟨hplain, hfixed _ hplain, hclosed, by decide, ?_, ?_⟩
  · exact (hcomposed _ "b" "$\x7bopen" hclosed (by decide)).filled "$$\x7bb\x7d-" "x" "$\x7bopen"
      rfl rfl rfl
  · exact (hunknown _ "b" "$\x7bc\x7d" hclosed (by decide)).fails_at "$-" rfl rfl

end FeatureAssembly
