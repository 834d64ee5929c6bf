import FeatureAssembly.Proofs.CoordinateForms

/-! What the readers of coordinates accept. Whatever is made, read or changed has components without
separators and blanks, and every coordinate with such components can be made. An id is read exactly if
its parts make a coordinate once they are trimmed; what an id, a url or a path cannot be read for is
told as a defect of the whole text. -/

namespace FeatureAssembly.Coordinate
open Text

/-! Making. -/

section
variable (component : Component)

theorem isPlain_iff {s : String} :
    isPlain s ↔ ∀ c ∈ s.toList, c ≠ ':' ∧ c ≠ '/' ∧ isBlank c = false := by
  simp only [isPlain, List.all_eq_true, isPlainChar, Bool.and_eq_true, bne_iff_ne,
    Bool.not_eq_true', and_assoc]

theorem exists_checked_iff {s : String} : (∃ t, checked component s = .ok t) ↔ isPlain s := by
  unfold checked
  split
  · next h => exact ⟨fun _ => h, fun _ => ⟨s, rfl⟩⟩
  · next h => exact ⟨nofun, fun hplain => absurd hplain h⟩

theorem exists_required_iff {s : String} :
    (∃ t, required component s = .ok t) ↔ trim s ≠ "" ∧ isPlain (trim s) := by
  unfold required
  split
  · next h => exact ⟨nofun, fun hfilled => absurd h hfilled.1⟩
  · next h => rw [exists_checked_iff, and_iff_right h]

theorem exists_map_ok_iff {ε α β : Type} {x : Except ε α} {f : α → β} :
    (∃ r, x.map f = .ok r) ↔ ∃ a, x = .ok a := by
  cases x with
  | ok a => simp [Except.map]
  | error e => simp [Except.map]

theorem exists_readClassifier_iff {c : Option String} :
    (∃ r, readClassifier c = .ok r) ↔ ∀ s ∈ c, isPlain (trim s) := by
  cases c with
  | none => simp [readClassifier]
  | some s =>
    simp only [Option.mem_def, Option.some.injEq, forall_eq', readClassifier]
    split
    · next h =>
      refine ⟨fun _ => ?_, fun _ => ⟨none, rfl⟩⟩
      rw [h]
      decide
    · rw [exists_map_ok_iff, exists_checked_iff]

theorem exists_readType_iff {t : Option String} :
    (∃ r, readType t = .ok r) ↔ ∀ s ∈ t, isPlain (trim s) := by
  cases t with
  | none => exact ⟨nofun, fun _ => ⟨defaultType, rfl⟩⟩
  | some s =>
    simp only [Option.mem_def, Option.some.injEq, forall_eq', readType]
    split
    · next h =>
      refine ⟨fun _ => ?_, fun _ => ⟨defaultType, rfl⟩⟩
      rcases h with h | h
      · rw [h]
        decide
      · rw [h]
        decide
    · exact exists_checked_iff .type

end

theorem exists_make_iff {g n v : String} {c t : Option String} : (∃ a, make g n v c t = .ok a) ↔
    (∀ s ∈ [g, n, v], trim s ≠ "") ∧
      ∀ s ∈ [g, n] ++ t.toList ++ c.toList ++ [v], isPlain (trim s) := by
  simp only [List.forall_mem_append, List.forall_mem_cons, List.not_mem_nil, IsEmpty.forall_iff,
    implies_true, and_true, Option.mem_toList]
  constructor
  · rintro ⟨a, h⟩
    obtain ⟨hg, hn, hv, hc, ht⟩ := make_eq_ok h
    obtain ⟨hgroup, hplainGroup⟩ := (exists_required_iff _).mp ⟨_, hg⟩
    obtain ⟨hartifact, hplainArtifact⟩ := (exists_required_iff _).mp ⟨_, hn⟩
    obtain ⟨hversion, hplainVersion⟩ := (exists_required_iff _).mp ⟨_, hv⟩
    have hclassifier := exists_readClassifier_iff.mp ⟨_, hc⟩
    have htype := exists_readType_iff.mp ⟨_, ht⟩
    exact ⟨⟨hgroup, hartifact, hversion⟩,
      ⟨⟨⟨hplainGroup, hplainArtifact⟩, htype⟩, hclassifier⟩, hplainVersion⟩
  · rintro ⟨⟨hgroup, hartifact, hversion⟩,
      ⟨⟨⟨hplainGroup, hplainArtifact⟩, htype⟩, hclassifier⟩, hplainVersion⟩
    obtain ⟨g, hg⟩ := (exists_required_iff .group).mpr ⟨hgroup, hplainGroup⟩
    obtain ⟨n, hn⟩ := (exists_required_iff .artifact).mpr ⟨hartifact, hplainArtifact⟩
    obtain ⟨v, hv⟩ := (exists_required_iff .version).mpr ⟨hversion, hplainVersion⟩
    obtain ⟨c, hc⟩ := exists_readClassifier_iff.mpr hclassifier
    obtain ⟨t, ht⟩ := exists_readType_iff.mpr htype
    exact ⟨⟨g, n, v, c, t⟩, make_of_parts hg hn hv hc ht⟩

theorem wellFormed_iff {a : Coordinate} : a.WellFormed ↔
    (∀ s ∈ a.components, s ≠ "" ∧ ∀ c ∈ s.toList, c ≠ ':' ∧ c ≠ '/' ∧ isBlank c = false) ∧
      a.type ≠ bundleType := by
  simp only [← isPlain_iff]
  constructor
  · intro ha
    exact ⟨fun s => ha.of_mem_components, ha.type.2.2⟩
  · rintro ⟨hcomponents, hbundle⟩
    simp only [components, List.forall_mem_cons, Option.mem_toList] at hcomponents
    obtain ⟨hgroup, hartifact, hversion, htype, hclassifier⟩ := hcomponents
    exact ⟨hgroup, hartifact, hversion, hclassifier, htype.1, htype.2, hbundle⟩

theorem obtainable_iff {a : Coordinate} : a.Obtainable ↔ a.WellFormed :=
  ⟨Obtainable.wellFormed, fun ha => .make (ha.make_eq ha.readType_eq)⟩

/-! Reading. -/

/-- The parts of a text that is an id: group, artifact and version are filled in, type and classifier
may stand between them, and all of them are plain but for blanks around them. -/
def IsIdParts (parts : List String) : Prop :=
  3 ≤ parts.length ∧ parts.length ≤ 5 ∧
    (∀ s ∈ parts.take 2 ++ parts.getLast?.toList, trim s ≠ "") ∧
    ∀ s ∈ parts, ∀ c ∈ (trim s).toList, c ≠ '/' ∧ isBlank c = false

theorem isPlain_trim_iff {s : String} (h : ':' ∉ s.toList) :
    isPlain (trim s) ↔ ∀ c ∈ (trim s).toList, c ≠ '/' ∧ isBlank c = false := by
  rw [isPlain_iff]
  refine forall₂_congr fun c hc => and_iff_right fun heq => h ?_
  exact heq ▸ mem_of_mem_trim hc

theorem exists_orElseReport_iff {e : CoordinateError} {r : Except CoordinateError Coordinate} :
    (∃ a, orElseReport e r = .ok a) ↔ ∃ a, r = .ok a := by
  cases r with
  | ok a => rfl
  | error _ => exact ⟨nofun, nofun⟩

theorem exists_ofId_iff (s : String) :
    (∃ a, ofId s = .ok a) ↔ IsIdParts (pieces ':' (trim s)) := by
  have hplain : ∀ p ∈ pieces ':' (trim s), (∀ c ∈ (trim p).toList, c ≠ '/' ∧ isBlank c = false) ↔
      isPlain (trim p) :=
    fun p hp => (isPlain_trim_iff (not_mem_of_mem_pieces hp)).symm
  rw [ofId, exists_orElseReport_iff, IsIdParts, forall₂_congr hplain]
  generalize pieces ':' (trim s) = parts
  rcases parts with _ | ⟨g, _ | ⟨n, _ | ⟨p, _ | ⟨q, _ | ⟨r, _ | ⟨x, rest⟩⟩⟩⟩⟩⟩
  · simp
  · simp
  · simp
  · simp [exists_make_iff]
  · simp [exists_make_iff]
  · simp [exists_make_iff]
  · simp

theorem orElseReport_cases (e : CoordinateError) (r : Except CoordinateError Coordinate) :
    (∃ a, orElseReport e r = .ok a) ∨ orElseReport e r = .error e := by
  cases r with
  | ok a => exact .inl ⟨a, rfl⟩
  | error _ => exact .inr rfl

theorem ofPath_cases (s : String) : (∃ a, ofPath s = .ok a) ∨ ofPath s = .error (.invalidPath s) := by
  unfold ofPath
  split
  · split
    · exact .inr rfl
    · exact orElseReport_cases _ _
  · exact .inr rfl

/-- The coordinates that can be had are exactly those with plain components: group, artifact, version
and type are filled in, a classifier is if there is one, no component holds a separator or a blank, and
the type is not the other spelling of the default one. A text is an id exactly if its parts make such a
coordinate; where the reader of a form fails, it quotes the text that it was given. -/
theorem readers_accept_plain_parts :
    (∀ a : Coordinate, a.Obtainable ↔
      (∀ s ∈ a.components, s ≠ "" ∧ ∀ c ∈ s.toList, c ≠ ':' ∧ c ≠ '/' ∧ isBlank c = false) ∧
        a.type ≠ bundleType) ∧
    (∀ s, (∃ a, ofId s = .ok a) ↔ IsIdParts (pieces ':' (trim s))) ∧
    ∀ s, ((∃ a, ofId s = .ok a) ∨ ofId s = .error (.invalidId s)) ∧
      ((∃ a, ofUrl s = .ok a) ∨ ofUrl s = .error (.invalidUrl s)) ∧
      ((∃ a, ofPath s = .ok a) ∨ ofPath s = .error (.invalidPath s)) := by
  refine ⟨fun a => obtainable_iff.trans wellFormed_iff, exists_ofId_iff, fun s => ⟨?_, ?_, ?_⟩⟩
  · exact orElseReport_cases _ _
  · exact orElseReport_cases _ _
  · exact ofPath_cases s

example : ofId " g : a : bundle : : 1 " = .ok ⟨"g", "a", "1", none, defaultType⟩ ∧
    ofId "g:a:x y:1" = .error (.invalidId "g:a:x y:1") := by decide

end FeatureAssembly.Coordinate
