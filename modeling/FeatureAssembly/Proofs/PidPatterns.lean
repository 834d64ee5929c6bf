import FeatureAssembly.Configuration.Policy
import FeatureAssembly.Proofs.Cutting

/-! Which pids a pattern matches. Pattern and pid are made of the same pieces, with stars between them
in the pattern and with runs of characters within a line in the pid. They are also those in which the
expression of the pattern is found: the quoted pieces from the beginning of a text to its end, with
any characters of the line repeated in between. -/

namespace FeatureAssembly

/-- The pieces in order, each followed by the run of its place, if there is one. -/
def Text.interlace : List (List Char) → List (List Char) → List Char
  | [], _ => []
  | p :: ps, [] => p ++ interlace ps []
  | p :: ps, r :: rs => p ++ (r ++ interlace ps rs)

namespace Pattern
open Text

def star : Char := '*'

def lineEnd : Char := '\n'

/-- The runs for which the stars of a pattern stand in a text, and the pieces around them. -/
structure Reads (pattern text : List Char) (parts runs : List (List Char)) : Prop where
  length : runs.length + 1 = parts.length
  literal : ∀ p ∈ parts, star ∉ p
  ofLine : ∀ r ∈ runs, lineEnd ∉ r
  pattern_eq : pattern = interlace parts (runs.map fun _ => [star])
  text_eq : text = interlace parts runs

def IsGlobOf (pattern text : List Char) : Prop := ∃ parts runs, Reads pattern text parts runs

section
variable {pattern text p q run : List Char} {c : Char} {parts runs : List (List Char)}

theorem interlace_append_head (p q : List Char) (parts runs : List (List Char)) :
    interlace ((p ++ q) :: parts) runs = p ++ interlace (q :: parts) runs := by
  cases runs with
  | nil => exact List.append_assoc ..
  | cons r runs => exact List.append_assoc ..

theorem interlace_stars (hlength : runs.length + 1 = parts.length) :
    interlace parts (runs.map fun _ => [star]) = [star].intercalate parts := by
  induction runs generalizing parts with
  | nil =>
    obtain ⟨p, rfl⟩ := List.length_eq_one_iff.mp hlength.symm
    simp [interlace]
  | cons r runs ih =>
    obtain ⟨p, parts, rfl⟩ := List.exists_cons_of_length_eq_add_one hlength.symm
    obtain ⟨q, parts, rfl⟩ := List.exists_cons_of_length_eq_add_one (Nat.succ.inj hlength).symm
    rw [List.map_cons, interlace, ih (Nat.succ.inj hlength)]
    simp

theorem Reads.ne_nil (h : Reads pattern text parts runs) : parts ≠ [] := by
  rintro rfl
  cases h.length

theorem isGlobOf_nil : IsGlobOf [] [] := by
  refine ⟨[[]], [], rfl, ?_, nofun, rfl, rfl⟩
  intro p hp
  rw [List.mem_singleton.mp hp]
  exact List.not_mem_nil

theorem IsGlobOf.cons (h : IsGlobOf pattern text) (hc : c ≠ star) :
    IsGlobOf (c :: pattern) (c :: text) := by
  obtain ⟨parts, runs, h⟩ := h
  obtain ⟨q, parts, rfl⟩ := List.exists_cons_of_ne_nil h.ne_nil
  obtain ⟨hq, hparts⟩ := List.forall_mem_cons.mp h.literal
  have hhead : star ∉ c :: q := List.not_mem_cons_of_ne_of_not_mem hc.symm hq
  refine ⟨(c :: q) :: parts, runs, h.length, List.forall_mem_cons.mpr ⟨hhead, hparts⟩, h.ofLine, ?_, ?_⟩
  · rw [h.pattern_eq]
    exact (interlace_append_head [c] q parts _).symm
  · rw [h.text_eq]
    exact (interlace_append_head [c] q parts _).symm

theorem IsGlobOf.cons_star (h : IsGlobOf pattern text) (hrun : lineEnd ∉ run) :
    IsGlobOf (star :: pattern) (run ++ text) := by
  obtain ⟨parts, runs, h⟩ := h
  have hliteral : ∀ p ∈ [] :: parts, star ∉ p :=
    List.forall_mem_cons.mpr ⟨List.not_mem_nil, h.literal⟩
  have hofLine : ∀ r ∈ run :: runs, lineEnd ∉ r := List.forall_mem_cons.mpr ⟨hrun, h.ofLine⟩
  refine ⟨[] :: parts, run :: runs, congrArg (· + 1) h.length, hliteral, hofLine, ?_, ?_⟩
  · rw [h.pattern_eq]
    rfl
  · rw [h.text_eq]
    rfl

/-! Matching all tails of a text at once finds the runs. -/

theorem accepts_cons_star_iff : accepts (star :: pattern) text ↔
    ∃ run rest, text = run ++ rest ∧ lineEnd ∉ run ∧ accepts pattern rest := by
  constructor
  · intro h
    induction text with
    | nil => exact ⟨[], [], rfl, List.not_mem_nil, h⟩
    | cons c text ih =>
      rw [star, accepts_star_cons, Bool.or_eq_true, Bool.and_eq_true, bne_iff_ne] at h
      rcases h with h | ⟨hc, h⟩
      · exact ⟨[], c :: text, rfl, List.not_mem_nil, h⟩
      · obtain ⟨run, rest, rfl, hrun, hrest⟩ := ih h
        exact ⟨c :: run, rest, rfl, List.not_mem_cons_of_ne_of_not_mem hc.symm hrun, hrest⟩
  · rintro ⟨run, rest, rfl, hrun, hrest⟩
    induction run with
    | nil =>
      cases rest with
      | nil => exact hrest
      | cons c rest =>
        rw [List.nil_append, star, accepts_star_cons, hrest]
        rfl
    | cons c run ih =>
      obtain ⟨hc, hrun⟩ := List.ne_and_not_mem_of_not_mem_cons hrun
      rw [List.cons_append, star, accepts_star_cons, ← star, ih hrun, Bool.and_true, Bool.or_eq_true,
        bne_iff_ne]
      exact .inr hc.symm

theorem accepts_append (hp : star ∉ p) : accepts (p ++ pattern) (p ++ text) = accepts pattern text := by
  induction p with
  | nil => rfl
  | cons c p ih =>
    obtain ⟨hc, hp⟩ := List.ne_and_not_mem_of_not_mem_cons hp
    rw [List.cons_append, List.cons_append, accepts_char_cons _ _ _ hc.symm, ih hp, beq_self_eq_true,
      Bool.true_and]

theorem isGlobOf_of_accepts (h : accepts pattern text) : IsGlobOf pattern text := by
  induction pattern generalizing text with
  | nil =>
    rw [accepts_nil, List.isEmpty_iff] at h
    rw [h]
    exact isGlobOf_nil
  | cons c pattern ih =>
    by_cases hc : c = star
    · subst hc
      obtain ⟨run, rest, rfl, hrun, hrest⟩ := accepts_cons_star_iff.mp h
      exact (ih hrest).cons_star hrun
    · cases text with
      | nil =>
        rw [accepts_char_nil _ hc] at h
        cases h
      | cons d text =>
        rw [accepts_char_cons _ _ _ hc, Bool.and_eq_true, beq_iff_eq] at h
        obtain ⟨rfl, h⟩ := h
        exact (ih h).cons hc

theorem Reads.accepts (h : Reads pattern text parts runs) : Pattern.accepts pattern text := by
  obtain ⟨hlength, hparts, hruns, rfl, rfl⟩ := h
  induction runs generalizing parts with
  | nil =>
    obtain ⟨p, rfl⟩ := List.length_eq_one_iff.mp hlength.symm
    have hp : star ∉ p := hparts p (List.mem_singleton_self p)
    rw [List.map_nil, interlace, accepts_append hp]
    rfl
  | cons r runs ih =>
    obtain ⟨p, parts, rfl⟩ := List.exists_cons_of_length_eq_add_one hlength.symm
    obtain ⟨hp, hparts⟩ := List.forall_mem_cons.mp hparts
    obtain ⟨hr, hruns⟩ := List.forall_mem_cons.mp hruns
    rw [List.map_cons, interlace, interlace, accepts_append hp]
    exact accepts_cons_star_iff.mpr ⟨r, _, rfl, hr, ih (Nat.succ.inj hlength) hparts hruns⟩

theorem accepts_iff_isGlobOf : accepts pattern text ↔ IsGlobOf pattern text :=
  ⟨isGlobOf_of_accepts, fun ⟨_, _, h⟩ => h.accepts⟩

end

end Pattern

/-! Searching. -/

inductive Expression where
  | beginning
  | ending
  | quoted (cs : List Char)
  | ofLine
  | many (e : Expression)
  | sequence (e f : Expression)

namespace Expression

/-- The places at which an expression matches: what stands before it, what it covers and what stands
after it. Of the single characters all but the end of a line match. -/
inductive Matches : Expression → List Char → List Char → List Char → Prop where
  | beginning (after : List Char) : Matches .beginning [] [] after
  | ending (before : List Char) : Matches .ending before [] []
  | quoted (before cs after : List Char) : Matches (.quoted cs) before cs after
  | ofLine {c : Char} (before after : List Char) (hc : c ≠ Pattern.lineEnd) :
    Matches .ofLine before [c] after
  | none (e : Expression) (before after : List Char) : Matches (.many e) before [] after
  | again {e : Expression} {before cs ds after : List Char} (h : Matches e before cs (ds ++ after))
    (hagain : Matches (.many e) (before ++ cs) ds after) : Matches (.many e) before (cs ++ ds) after
  | sequence {e f : Expression} {before cs ds after : List Char}
    (he : Matches e before cs (ds ++ after)) (hf : Matches f (before ++ cs) ds after) :
    Matches (.sequence e f) before (cs ++ ds) after

def IsFoundIn (e : Expression) (text : List Char) : Prop :=
  ∃ before cs after, text = before ++ cs ++ after ∧ Matches e before cs after

variable {e f : Expression} {before cs after : List Char}

theorem matches_quoted_iff {q : List Char} : Matches (.quoted q) before cs after ↔ cs = q := by
  constructor
  · intro h
    cases h
    rfl
  · rintro rfl
    exact .quoted before cs after

theorem matches_sequence_iff : Matches (.sequence e f) before cs after ↔
    ∃ first rest, cs = first ++ rest ∧ Matches e before first (rest ++ after) ∧
      Matches f (before ++ first) rest after := by
  constructor
  · intro h
    cases h with
    | sequence he hf => exact ⟨_, _, rfl, he, hf⟩
  · rintro ⟨first, rest, rfl, he, hf⟩
    exact .sequence he hf

theorem matches_many_ofLine_iff : Matches (.many .ofLine) before cs after ↔ Pattern.lineEnd ∉ cs := by
  constructor
  · intro h
    -- the induction needs the expression as a variable
    generalize he : Expression.many .ofLine = e at h
    induction h with
    | none => exact List.not_mem_nil
    | again h _ _ ih =>
      obtain rfl := Expression.many.inj he
      cases h with
      | ofLine _ _ hc => exact List.not_mem_cons_of_ne_of_not_mem hc.symm (ih rfl)
    | _ => cases he
  · intro h
    induction cs generalizing before with
    | nil => exact .none .ofLine before after
    | cons c cs ih =>
      obtain ⟨hc, hcs⟩ := List.ne_and_not_mem_of_not_mem_cons h
      exact .again (.ofLine before (cs ++ after) hc.symm) (ih hcs)

theorem isFoundIn_whole_iff {text : List Char} :
    IsFoundIn (.sequence .beginning (.sequence e .ending)) text ↔ Matches e [] text [] := by
  constructor
  · rintro ⟨before, cs, after, rfl, h⟩
    obtain ⟨first, rest, rfl, hfirst, hrest⟩ := matches_sequence_iff.mp h
    obtain ⟨body, last, rfl, hbody, hlast⟩ := matches_sequence_iff.mp hrest
    cases hfirst
    cases hlast
    simpa using hbody
  · intro h
    have hwhole : Matches (.sequence e .ending) [] (text ++ []) [] := .sequence h (.ending _)
    exact ⟨[], [] ++ (text ++ []), [], by simp, .sequence (.beginning _) hwhole⟩

end Expression

namespace Pattern
open Text Expression

def body : List (List Char) → Expression
  | [] => .quoted []
  | [p] => .quoted p
  | p :: ps => .sequence (.quoted p) (.sequence (.many .ofLine) (body ps))

def expression (pattern : List Char) : Expression :=
  .sequence .beginning (.sequence (body (piecesOf star pattern)) .ending)

theorem matches_body_iff {parts : List (List Char)} (hparts : parts ≠ [])
    {before text after : List Char} : Matches (body parts) before text after ↔
      ∃ runs : List (List Char), runs.length + 1 = parts.length ∧ (∀ r ∈ runs, lineEnd ∉ r) ∧
        text = interlace parts runs := by
  induction parts generalizing before text with
  | nil => exact absurd rfl hparts
  | cons p parts ih =>
    cases parts with
    | nil =>
      rw [body, matches_quoted_iff]
      constructor
      · rintro rfl
        exact ⟨[], rfl, nofun, (List.append_nil _).symm⟩
      · rintro ⟨runs, hlength, -, rfl⟩
        rw [List.eq_nil_of_length_eq_zero (Nat.succ.inj hlength)]
        exact List.append_nil p
    | cons q parts =>
      simp only [body, matches_sequence_iff, matches_quoted_iff, matches_many_ofLine_iff]
      constructor
      · rintro ⟨_, _, rfl, rfl, run, rest, rfl, hrun, hrest⟩
        obtain ⟨runs, hlength, hruns, rfl⟩ := (ih (List.cons_ne_nil q parts)).mp hrest
        exact ⟨run :: runs, congrArg (· + 1) hlength, List.forall_mem_cons.mpr ⟨hrun, hruns⟩, rfl⟩
      · rintro ⟨runs, hlength, hruns, rfl⟩
        obtain ⟨run, runs, rfl⟩ := List.exists_cons_of_length_eq_add_one (Nat.succ.inj hlength)
        obtain ⟨hrun, hruns⟩ := List.forall_mem_cons.mp hruns
        refine ⟨p, run ++ interlace (q :: parts) runs, rfl, rfl, run, _, rfl, hrun, ?_⟩
        exact (ih (List.cons_ne_nil q parts)).mpr ⟨runs, Nat.succ.inj hlength, hruns, rfl⟩

theorem isGlobOf_iff_pieces {pattern text : List Char} : IsGlobOf pattern text ↔
    ∃ runs : List (List Char), runs.length + 1 = (piecesOf star pattern).length ∧
      (∀ r ∈ runs, lineEnd ∉ r) ∧ text = interlace (piecesOf star pattern) runs := by
  constructor
  · rintro ⟨parts, runs, h⟩
    have hpieces : piecesOf star pattern = parts := by
      rw [h.pattern_eq, interlace_stars h.length, piecesOf_eq_splitOn]
      exact List.splitOn_intercalate star h.literal h.ne_nil
    rw [hpieces]
    exact ⟨runs, h.length, h.ofLine, h.text_eq⟩
  · rintro ⟨runs, hlength, hruns, htext⟩
    have hpattern : interlace (piecesOf star pattern) (runs.map fun _ => [star]) = pattern := by
      rw [interlace_stars hlength, piecesOf_eq_splitOn]
      exact List.intercalate_splitOn star
    exact ⟨_, runs, hlength, fun _ => not_mem_of_mem_piecesOf, hruns, hpattern.symm, htext⟩

theorem isFoundIn_expression_iff {pattern text : List Char} :
    (expression pattern).IsFoundIn text ↔ IsGlobOf pattern text := by
  have hne : piecesOf star pattern ≠ [] := by
    rw [piecesOf_eq_splitOn]
    exact List.splitOn_ne_nil star pattern
  rw [expression, isFoundIn_whole_iff, matches_body_iff hne, isGlobOf_iff_pieces]

end Pattern

open Pattern in
/-- The first entry whose pattern is a glob of the pid decides, and none decides if there is no such
entry. The globs of a pid are the patterns whose expressions are found in it. -/
theorem ConfigurationPolicies.policyFor?_is_first_glob (l : ConfigurationPolicies) (pid : String) :
    (∀ policy, l.policyFor? pid = some policy ↔ ∃ before pattern after,
      l = before ++ (pattern, policy) :: after ∧ IsGlobOf pattern.toList pid.toList ∧
        ∀ e ∈ before, ¬ IsGlobOf e.1.toList pid.toList) ∧
      (l.policyFor? pid = none ↔ ∀ e ∈ l, ¬ IsGlobOf e.1.toList pid.toList) ∧
      ∀ pattern, IsGlobOf pattern pid.toList ↔ (expression pattern).IsFoundIn pid.toList := by
  refine ⟨fun policy => ?_, ?_, fun pattern => isFoundIn_expression_iff.symm⟩
  · constructor
    · intro h
      obtain ⟨⟨pattern, _⟩, hfound, rfl⟩ := Option.map_eq_some_iff.mp h
      obtain ⟨hmatch, before, after, rfl, hbefore⟩ := List.find?_eq_some_iff_append.mp hfound
      refine ⟨before, pattern, after, rfl, accepts_iff_isGlobOf.mp hmatch, fun e he hglob => ?_⟩
      have hno := hbefore e he
      rw [accepts_iff_isGlobOf.mpr hglob] at hno
      cases hno
    · rintro ⟨before, pattern, after, rfl, hglob, hbefore⟩
      refine Option.map_eq_some_iff.mpr ⟨(pattern, policy), ?_, rfl⟩
      refine List.find?_eq_some_iff_append.mpr
        ⟨accepts_iff_isGlobOf.mpr hglob, before, after, rfl, fun e he => ?_⟩
      rw [Bool.not_eq_true', Bool.eq_false_iff]
      exact mt accepts_iff_isGlobOf.mp (hbefore e he)
  · simp only [policyFor?, Option.map_eq_none_iff, List.find?_eq_none, accepts_iff_isGlobOf]

example : ConfigurationPolicies.policyFor? [("ab*ba", .useFirst), ("a*b*", .useLatest)] "aba" =
    some .useLatest := by decide

end FeatureAssembly
