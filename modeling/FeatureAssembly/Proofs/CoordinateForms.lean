import FeatureAssembly.Coordinate.Forms
import FeatureAssembly.Proofs.Cutting
import FeatureAssembly.Proofs.Outcome

/-! Reading back the written forms of coordinates. No component holds a separator or a blank, so that
cutting an id or a url gives back the components it was written from; only the scheme and the end of
a repository can be mistaken for something else. -/

namespace FeatureAssembly.Coordinate
open Text

/-! Components. -/

def components (a : Coordinate) : List String :=
  a.group :: a.artifact :: a.version :: a.type :: a.classifier.toList

def stem (a : Coordinate) : List String := a.group :: a.artifact :: a.type :: a.classifier.toList

theorem mem_components_iff {a : Coordinate} {s : String} :
    s ∈ a.components ↔ s ∈ a.stem ∨ s = a.version := by
  simp only [components, stem, List.mem_cons]
  tauto

theorem isBlank_of_isPlain {s : String} (h : isPlain s) : ∀ c ∈ s.toList, isBlank c = false := by
  intro c hc
  have hchar := List.all_eq_true.mp h c hc
  simp only [isPlainChar, Bool.and_eq_true, Bool.not_eq_true'] at hchar
  exact hchar.2

theorem trim_of_isPlain {s : String} (h : isPlain s) : trim s = s :=
  trim_of_no_blank (isBlank_of_isPlain h)

theorem separators_of_isPlain {s : String} (h : isPlain s) :
    ':' ∉ s.toList ∧ '/' ∉ s.toList := by
  refine ⟨fun hc => ?_, fun hc => ?_⟩
  · exact absurd (List.all_eq_true.mp h _ hc) (by decide)
  · exact absurd (List.all_eq_true.mp h _ hc) (by decide)

theorem WellFormed.of_mem_components {a : Coordinate} (ha : a.WellFormed) {s : String}
    (hs : s ∈ a.components) : s ≠ "" ∧ isPlain s := by
  simp only [components, List.mem_cons, Option.mem_toList] at hs
  rcases hs with rfl | rfl | rfl | rfl | hs
  · exact ha.group
  · exact ha.artifact
  · exact ha.version
  · exact ⟨ha.type.1, ha.type.2.1⟩
  · exact ha.classifier s hs

/-! Making. -/

section
variable {component : Component} {s t : String}

theorem checked_eq_ok (h : checked component s = .ok t) : t = s ∧ isPlain s := by
  unfold checked at h
  split at h
  · next hplain => exact ⟨(Except.ok.inj h).symm, hplain⟩
  · cases h

theorem required_eq_ok (h : required component s = .ok t) : t = trim s ∧ t ≠ "" ∧ isPlain t := by
  unfold required at h
  split at h
  · cases h
  · next hne =>
    obtain ⟨rfl, hplain⟩ := checked_eq_ok h
    exact ⟨rfl, hne, hplain⟩

theorem required_of_isPlain (hne : s ≠ "") (h : isPlain s) : required component s = .ok s := by
  rw [required, trim_of_isPlain h, if_neg hne, checked, if_pos h]

theorem readClassifier_eq_ok {c r : Option String} (h : readClassifier c = .ok r) :
    ∀ s ∈ r, (∃ t ∈ c, s = trim t) ∧ s ≠ "" ∧ isPlain s := by
  unfold readClassifier at h
  split at h
  · obtain rfl := Except.ok.inj h
    simp
  · next c =>
    split at h
    · obtain rfl := Except.ok.inj h
      simp
    · next hne =>
      cases hc : checked .classifier (trim c) with
      | error e => rw [hc] at h; cases h
      | ok t =>
        rw [hc] at h
        obtain rfl := Except.ok.inj h
        obtain ⟨rfl, hplain⟩ := checked_eq_ok hc
        rintro s ⟨⟩
        exact ⟨⟨c, rfl, rfl⟩, hne, hplain⟩

theorem readClassifier_of_isPlain {c : Option String} (h : ∀ s ∈ c, s ≠ "" ∧ isPlain s) :
    readClassifier c = .ok c := by
  cases c with
  | none => rfl
  | some s =>
    obtain ⟨hne, hplain⟩ := h s rfl
    rw [readClassifier, trim_of_isPlain hplain, if_neg hne, checked, if_pos hplain]
    rfl

theorem readType_eq_ok {t : Option String} {r : String} (h : readType t = .ok r) :
    (r = defaultType ∨ ∃ s ∈ t, r = trim s) ∧ r ≠ "" ∧ isPlain r ∧ r ≠ bundleType := by
  have hdefault : defaultType ≠ "" ∧ isPlain defaultType ∧ defaultType ≠ bundleType := by decide
  unfold readType at h
  split at h
  · obtain rfl := Except.ok.inj h
    exact ⟨.inl rfl, hdefault⟩
  · next t =>
    split at h
    · obtain rfl := Except.ok.inj h
      exact ⟨.inl rfl, hdefault⟩
    · next hne =>
      rw [not_or] at hne
      obtain ⟨rfl, hplain⟩ := checked_eq_ok h
      exact ⟨.inr ⟨t, rfl, rfl⟩, hne.1, hplain, hne.2⟩

theorem readType_of_isPlain (hne : s ≠ "") (h : isPlain s) (hbundle : s ≠ bundleType) :
    readType (some s) = .ok s := by
  rw [readType, trim_of_isPlain h, if_neg (not_or.mpr ⟨hne, hbundle⟩), checked, if_pos h]

end

theorem make_eq_ok {g n v : String} {c t : Option String} {a : Coordinate}
    (h : make g n v c t = .ok a) :
    required .group g = .ok a.group ∧ required .artifact n = .ok a.artifact ∧
      required .version v = .ok a.version ∧ readClassifier c = .ok a.classifier ∧
      readType t = .ok a.type := by
  simp only [make, bind_eq_ok_iff] at h
  obtain ⟨_, hg, _, hn, _, hv, _, hc, _, ht, hmade⟩ := h
  obtain rfl := Except.ok.inj hmade
  exact ⟨hg, hn, hv, hc, ht⟩

theorem make_of_parts {a : Coordinate} {g n v : String} {c t : Option String}
    (hg : required .group g = .ok a.group) (hn : required .artifact n = .ok a.artifact)
    (hv : required .version v = .ok a.version) (hc : readClassifier c = .ok a.classifier)
    (ht : readType t = .ok a.type) : make g n v c t = .ok a := by
  simp only [make, hg, hn, hv, hc, ht]
  rfl

theorem not_mem_stem_of_make {x : Char} (hx : x ∉ defaultType.toList) {g n v : String}
    {c t : Option String} {a : Coordinate} (h : make g n v c t = .ok a)
    (hparts : ∀ p ∈ g :: n :: (t.toList ++ c.toList), x ∉ p.toList) : ∀ p ∈ a.stem, x ∉ p.toList := by
  obtain ⟨hg, hn, -, hc, ht⟩ := make_eq_ok h
  have htrim : ∀ p ∈ g :: n :: (t.toList ++ c.toList), x ∉ (trim p).toList :=
    fun p hp hmem => hparts p hp (mem_of_mem_trim hmem)
  simp only [stem, List.forall_mem_cons, Option.mem_toList]
  refine ⟨?_, ?_, ?_, fun s hs => ?_⟩
  · rw [(required_eq_ok hg).1]
    exact htrim g (by simp)
  · rw [(required_eq_ok hn).1]
    exact htrim n (by simp)
  · rcases (readType_eq_ok ht).1 with hdefault | ⟨u, hu, htype⟩
    · rwa [hdefault]
    · rw [htype]
      exact htrim u (by simp [Option.mem_def.mp hu])
  · obtain ⟨⟨u, hu, rfl⟩, -⟩ := readClassifier_eq_ok hc s hs
    exact htrim u (by simp [Option.mem_def.mp hu])

theorem not_mem_components_of_make {x : Char} (hx : x ∉ defaultType.toList) {g n v : String}
    {c t : Option String} {a : Coordinate} (h : make g n v c t = .ok a)
    (hparts : ∀ p ∈ g :: n :: v :: (t.toList ++ c.toList), x ∉ p.toList) :
    ∀ p ∈ a.components, x ∉ p.toList := by
  intro p hp
  rcases mem_components_iff.mp hp with hp | rfl
  · exact not_mem_stem_of_make hx h (fun q hq => hparts q (by grind)) p hp
  · obtain ⟨-, -, hv, -, -⟩ := make_eq_ok h
    rw [(required_eq_ok hv).1]
    exact fun hmem => hparts v (by simp) (mem_of_mem_trim hmem)

theorem make_wellFormed {g n v : String} {c t : Option String} {a : Coordinate}
    (h : make g n v c t = .ok a) : a.WellFormed := by
  obtain ⟨hg, hn, hv, hc, ht⟩ := make_eq_ok h
  exact ⟨(required_eq_ok hg).2, (required_eq_ok hn).2, (required_eq_ok hv).2,
    fun s hs => (readClassifier_eq_ok hc s hs).2, (readType_eq_ok ht).2⟩

theorem WellFormed.make_eq {a : Coordinate} (ha : a.WellFormed) {t : Option String}
    (ht : readType t = .ok a.type) : make a.group a.artifact a.version a.classifier t = .ok a :=
  make_of_parts (required_of_isPlain ha.group.1 ha.group.2)
    (required_of_isPlain ha.artifact.1 ha.artifact.2)
    (required_of_isPlain ha.version.1 ha.version.2) (readClassifier_of_isPlain ha.classifier) ht

theorem WellFormed.readType_eq {a : Coordinate} (ha : a.WellFormed) :
    readType (some a.type) = .ok a.type :=
  readType_of_isPlain ha.type.1 ha.type.2.1 ha.type.2.2

/-! Reading. -/

theorem orElseReport_eq_ok {e : CoordinateError} {r : Except CoordinateError Coordinate}
    {a : Coordinate} (h : orElseReport e r = .ok a) : r = .ok a := by
  cases r with
  | ok b => exact h
  | error _ => cases h

theorem exists_make_of_ofId {s : String} {a : Coordinate} (h : ofId s = .ok a) :
    ∃ g n v c t, make g n v c t = .ok a ∧
      pieces ':' (trim s) = g :: n :: (t.toList ++ c.toList ++ [v]) := by
  have hread := orElseReport_eq_ok h
  split at hread
  · next heq => exact ⟨_, _, _, _, _, hread, heq⟩
  · next heq => exact ⟨_, _, _, _, _, hread, heq⟩
  · next heq => exact ⟨_, _, _, _, _, hread, heq⟩
  · cases hread

theorem not_mem_components_of_ofId {x : Char} (hx : x ∉ defaultType.toList) {s : String}
    {a : Coordinate} (h : ofId s = .ok a) (hs : x ∉ s.toList) : ∀ p ∈ a.components, x ∉ p.toList := by
  obtain ⟨g, n, v, c, t, hmake, hpieces⟩ := exists_make_of_ofId h
  refine not_mem_components_of_make hx hmake fun p hp hmem => hs ?_
  have hpiece : p ∈ pieces ':' (trim s) := by
    rw [hpieces]
    grind
  obtain ⟨q, hq, rfl⟩ := List.mem_map.mp hpiece
  rw [String.toList_ofList] at hmem
  exact mem_of_mem_trim (mem_of_mem_piecesOf hq x hmem)

theorem exists_make_of_ofUrl {s : String} {a : Coordinate} (h : ofUrl s = .ok a) :
    ∃ g n v c t, make g n v c t = .ok a ∧
      ∀ p ∈ g :: n :: v :: (t.toList ++ c.toList), ∀ x ∈ p.toList, x ∈ urlBody s := by
  have hparts : ∀ p ∈ (piecesOf '/' (urlBody s)).map String.ofList, ∀ x ∈ p.toList,
      x ∈ urlBody s := by
    intro p hp
    obtain ⟨q, hq, rfl⟩ := List.mem_map.mp hp
    rw [String.toList_ofList]
    exact mem_of_mem_piecesOf hq
  have hread := orElseReport_eq_ok h
  split at hread
  · next heq => exact ⟨_, _, _, _, _, hread, heq ▸ hparts⟩
  · next heq => exact ⟨_, _, _, _, _, hread, heq ▸ hparts⟩
  · next heq => exact ⟨_, _, _, _, _, hread, heq ▸ hparts⟩
  · cases hread

theorem not_mem_components_of_ofUrl {x : Char} (hx : x ∉ defaultType.toList) {s : String}
    {a : Coordinate} (h : ofUrl s = .ok a) (hs : x ∉ urlBody s) : ∀ p ∈ a.components, x ∉ p.toList := by
  obtain ⟨g, n, v, c, t, hmake, hparts⟩ := exists_make_of_ofUrl h
  exact not_mem_components_of_make hx hmake fun p hp hmem => hs (hparts p hp x hmem)

theorem mem_of_mem_urlBody {x : Char} {s : String} (h : x ∈ urlBody s) : x ∈ s.toList := by
  refine mem_of_mem_trim ?_
  have hbody := mem_of_mem_afterLast h
  cases hdrop : dropStart? scheme.toList (trim s).toList with
  | none => simpa only [hdrop, Option.getD_none] using hbody
  | some cs =>
    rw [eq_append_of_dropStart? hdrop]
    simp only [hdrop, Option.getD_some] at hbody
    exact List.mem_append_right _ hbody

theorem exists_make_of_ofPath {s : String} {a : Coordinate} (h : ofPath s = .ok a) :
    ∃ g n v c t, make g n v c t = .ok a := by
  unfold ofPath at h
  split at h
  · split at h
    · cases h
    · exact ⟨_, _, _, _, _, orElseReport_eq_ok h⟩
  · cases h

theorem parse_eq_ok {s : String} {a : Coordinate} (h : parse s = .ok a) :
    ofUrl (trim s) = .ok a ∨ ofId (trim s) = .ok a := by
  unfold parse at h
  dsimp only at h
  split at h
  · exact .inl h
  · split at h
    · exact .inr h
    · split at h
      · exact .inl h
      · cases h

theorem not_mem_components_of_parse {x : Char} (hx : x ∉ defaultType.toList) {s : String}
    {a : Coordinate} (h : parse s = .ok a) (hs : x ∉ s.toList) : ∀ p ∈ a.components, x ∉ p.toList := by
  have htrim : x ∉ (trim s).toList := fun hmem => hs (mem_of_mem_trim hmem)
  rcases parse_eq_ok h with h | h
  · exact not_mem_components_of_ofUrl hx h fun hmem => htrim (mem_of_mem_urlBody hmem)
  · exact not_mem_components_of_ofId hx h htrim

/-- Coordinates that can be had: made from components, read from a text, or changed from another
one. -/
inductive Obtainable : Coordinate → Prop where
  | make {g n v c t a} (h : make g n v c t = .ok a) : Obtainable a
  | parse {s a} (h : parse s = .ok a) : Obtainable a
  | ofId {s a} (h : ofId s = .ok a) : Obtainable a
  | ofUrl {s a} (h : ofUrl s = .ok a) : Obtainable a
  | ofPath {s a} (h : ofPath s = .ok a) : Obtainable a
  | changeVersion {a version b} (ha : Obtainable a) (h : a.changeVersion version = .ok b) :
      Obtainable b
  | changeClassifier {a classifier b} (ha : Obtainable a)
      (h : a.changeClassifier classifier = .ok b) : Obtainable b
  | changeType {a type b} (ha : Obtainable a) (h : a.changeType type = .ok b) : Obtainable b

theorem changeVersion_eq_ok {a b : Coordinate} {version : String}
    (h : a.changeVersion version = .ok b) :
    ∃ v, required .version version = .ok v ∧ b = { a with version := v } := by
  unfold changeVersion at h
  cases hv : required .version version with
  | error e => rw [hv] at h; cases h
  | ok v =>
    rw [hv] at h
    exact ⟨v, rfl, (Except.ok.inj h).symm⟩

theorem Obtainable.wellFormed {a : Coordinate} (h : a.Obtainable) : a.WellFormed := by
  have id : ∀ {s a}, Coordinate.ofId s = .ok a → a.WellFormed := by
    intro s a h
    obtain ⟨g, n, v, c, t, h, -⟩ := exists_make_of_ofId h
    exact make_wellFormed h
  have url : ∀ {s a}, Coordinate.ofUrl s = .ok a → a.WellFormed := by
    intro s a h
    obtain ⟨g, n, v, c, t, h, -⟩ := exists_make_of_ofUrl h
    exact make_wellFormed h
  induction h with
  | make h => exact make_wellFormed h
  | parse h =>
    rcases parse_eq_ok h with h | h
    · exact url h
    · exact id h
  | ofId h => exact id h
  | ofUrl h => exact url h
  | ofPath h =>
    obtain ⟨g, n, v, c, t, h⟩ := exists_make_of_ofPath h
    exact make_wellFormed h
  | changeVersion _ h ih =>
    obtain ⟨v, hv, rfl⟩ := changeVersion_eq_ok h
    exact { ih with version := (required_eq_ok hv).2 }
  | changeClassifier _ h => exact make_wellFormed h
  | changeType _ h => exact make_wellFormed h

/-! Writing. -/

def idParts (a : Coordinate) : List String :=
  match a.classifier with
  | none =>
    if a.type = defaultType then [a.group, a.artifact, a.version]
    else [a.group, a.artifact, a.type, a.version]
  | some c => [a.group, a.artifact, a.type, c, a.version]

def urlParts (a : Coordinate) : List String :=
  match a.classifier with
  | none =>
    if a.type = defaultType then [a.group, a.artifact, a.version]
    else [a.group, a.artifact, a.version, a.type]
  | some c => [a.group, a.artifact, a.version, a.type, c]

theorem id_eq (a : Coordinate) : a.id = String.intercalate ":" a.idParts := by
  cases hc : a.classifier with
  | none =>
    simp only [id, idParts, hc]
    split <;> rfl
  | some c =>
    simp only [id, idParts, hc]
    rfl

theorem url_eq (a : Coordinate) : a.url = scheme ++ String.intercalate "/" a.urlParts := by
  cases hc : a.classifier with
  | none =>
    simp only [url, urlParts, hc]
    split <;> simp only [String.intercalate_cons_cons, String.intercalate_singleton,
      String.append_assoc]
  | some c =>
    simp only [url, urlParts, hc, String.intercalate_cons_cons, String.intercalate_singleton,
      String.append_assoc]

theorem idParts_eq_cons (a : Coordinate) : ∃ rest, a.idParts = a.group :: a.artifact :: rest := by
  unfold idParts
  split
  · split <;> exact ⟨_, rfl⟩
  · exact ⟨_, rfl⟩

theorem exists_toList_id (a : Coordinate) : ∃ rest : List Char,
    a.id.toList = a.group.toList ++ ':' :: rest := by
  obtain ⟨rest, hrest⟩ := idParts_eq_cons a
  refine ⟨(String.intercalate ":" (a.artifact :: rest)).toList, ?_⟩
  rw [id_eq, hrest, String.intercalate_cons_cons, String.toList_append, String.toList_append,
    List.append_assoc]
  rfl

theorem mem_components_of_mem_idParts {a : Coordinate} {s : String} (h : s ∈ a.idParts) :
    s ∈ a.components := by
  unfold idParts at h
  unfold components
  split at h
  · split at h <;> grind
  · next c hc =>
    rw [hc, Option.toList_some]
    grind

theorem mem_components_of_mem_urlParts {a : Coordinate} {s : String} (h : s ∈ a.urlParts) :
    s ∈ a.components := by
  unfold urlParts at h
  unfold components
  split at h
  · split at h <;> grind
  · next c hc =>
    rw [hc, Option.toList_some]
    grind

theorem not_mem_id {a : Coordinate} {x : Char} (hx : x ≠ ':')
    (h : ∀ s ∈ a.components, x ∉ s.toList) : x ∉ a.id.toList := by
  intro hmem
  rw [id_eq] at hmem
  refine forall_mem_intercalate (P := fun y => y ≠ x) (by simpa using hx.symm) (fun s hs y hy heq => ?_)
    _ hmem rfl
  exact h s (mem_components_of_mem_idParts hs) (heq ▸ hy)

namespace WellFormed
variable {a b : Coordinate}

theorem isBlank_id (ha : a.WellFormed) : ∀ x ∈ a.id.toList, isBlank x = false := by
  rw [id_eq]
  refine forall_mem_intercalate (by simp [isBlank]) fun s hs => ?_
  exact isBlank_of_isPlain (ha.of_mem_components (mem_components_of_mem_idParts hs)).2

theorem isBlank_url (ha : a.WellFormed) : ∀ x ∈ a.url.toList, isBlank x = false := by
  rw [url_eq, String.toList_append]
  refine List.forall_mem_append.mpr
    ⟨by simp [isBlank, scheme], forall_mem_intercalate (by simp [isBlank]) fun s hs => ?_⟩
  exact isBlank_of_isPlain (ha.of_mem_components (mem_components_of_mem_urlParts hs)).2

theorem pieces_id (ha : a.WellFormed) : pieces ':' (trim a.id) = a.idParts := by
  rw [trim_of_no_blank ha.isBlank_id, id_eq]
  obtain ⟨rest, hrest⟩ := idParts_eq_cons a
  refine pieces_intercalate (hrest ▸ List.cons_ne_nil _ _) fun s hs => ?_
  exact (separators_of_isPlain (ha.of_mem_components (mem_components_of_mem_idParts hs)).2).1

theorem make_plain (ha : a.WellFormed) (hc : a.classifier = none) (ht : a.type = defaultType) :
    make a.group a.artifact a.version none none = .ok a := by
  have hmake := ha.make_eq (t := none) (congrArg Except.ok ht.symm)
  rwa [hc] at hmake

theorem make_typed (ha : a.WellFormed) (hc : a.classifier = none) :
    make a.group a.artifact a.version none (some a.type) = .ok a := by
  have hmake := ha.make_eq ha.readType_eq
  rwa [hc] at hmake

theorem make_classified (ha : a.WellFormed) {c : String} (hc : a.classifier = some c) :
    make a.group a.artifact a.version (some c) (some a.type) = .ok a := by
  have hmake := ha.make_eq ha.readType_eq
  rwa [hc] at hmake

theorem ofId_id (ha : a.WellFormed) : ofId a.id = .ok a := by
  rw [ofId, ha.pieces_id, idParts]
  cases hc : a.classifier with
  | none =>
    by_cases ht : a.type = defaultType
    · simp only [if_pos ht]
      exact congrArg (orElseReport _) (ha.make_plain hc ht)
    · simp only [if_neg ht]
      exact congrArg (orElseReport _) (ha.make_typed hc)
  | some c => exact congrArg (orElseReport _) (ha.make_classified hc)

theorem id_eq_iff (ha : a.WellFormed) (hb : b.WellFormed) : a.id = b.id ↔ a = b := by
  constructor
  · intro h
    have hread := hb.ofId_id
    rw [← h, ha.ofId_id] at hread
    exact Except.ok.inj hread
  · exact congrArg id

theorem separator_not_mem_urlParts (ha : a.WellFormed) : ∀ s ∈ a.urlParts, '/' ∉ s.toList := by
  intro s hs
  exact (separators_of_isPlain (ha.of_mem_components (mem_components_of_mem_urlParts hs)).2).2

theorem urlBody_url (ha : a.WellFormed) :
    urlBody a.url = afterLast '!' (String.intercalate "/" a.urlParts).toList := by
  rw [urlBody, trim_of_no_blank ha.isBlank_url, url_eq, String.toList_append, dropStart?_append]
  rfl

theorem ofUrl_url (ha : a.WellFormed) (h : ∀ s ∈ a.components, '!' ∉ s.toList) :
    ofUrl a.url = .ok a := by
  have hunmarked : '!' ∉ (String.intercalate "/" a.urlParts).toList := by
    intro hmem
    refine forall_mem_intercalate (P := fun x => x ≠ '!') (by simp) (fun s hs x hx heq => ?_) _
      hmem rfl
    exact h s (mem_components_of_mem_urlParts hs) (heq ▸ hx)
  have hne : a.urlParts ≠ [] := by
    unfold urlParts
    split
    · split <;> exact List.cons_ne_nil _ _
    · exact List.cons_ne_nil _ _
  have hparts : (piecesOf '/' (urlBody a.url)).map String.ofList = a.urlParts := by
    rw [ha.urlBody_url, afterLast_of_not_mem hunmarked]
    exact pieces_intercalate hne ha.separator_not_mem_urlParts
  rw [ofUrl, hparts, urlParts]
  cases hc : a.classifier with
  | none =>
    by_cases ht : a.type = defaultType
    · simp only [if_pos ht]
      exact congrArg (orElseReport _) (ha.make_plain hc ht)
    · simp only [if_neg ht]
      exact congrArg (orElseReport _) (ha.make_typed hc)
  | some c => exact congrArg (orElseReport _) (ha.make_classified hc)

end WellFormed

theorem mark_not_mem_of_ofUrl {s : String} {a : Coordinate} (h : ofUrl s = .ok a) :
    ∀ p ∈ a.components, '!' ∉ p.toList :=
  not_mem_components_of_ofUrl (by decide) h (not_mem_afterLast '!' _)

/-! Either form. -/

theorem parse_of_scheme {s : String} (h : ∀ x ∈ s.toList, isBlank x = false)
    (hscheme : scheme.toList <+: s.toList) : parse s = ofUrl s := by
  rw [parse, trim_of_no_blank h]
  exact if_pos (List.isPrefixOf_iff_prefix.mpr hscheme)

namespace WellFormed
variable {a : Coordinate}

theorem parse_url (ha : a.WellFormed) : parse a.url = ofUrl a.url := by
  refine parse_of_scheme ha.isBlank_url ?_
  rw [url_eq, String.toList_append]
  exact List.prefix_append _ _

theorem scheme_prefix_id_iff (ha : a.WellFormed) :
    scheme.toList <+: a.id.toList ↔ a.group = "mvn" := by
  obtain ⟨rest, hid⟩ := exists_toList_id a
  have hscheme : scheme.toList = "mvn".toList ++ [':'] := rfl
  rw [hid]
  constructor
  · rintro ⟨t, ht⟩
    have hcut := congrArg (List.splitOn ':') ht
    rw [hscheme, List.append_assoc, List.singleton_append,
      List.splitOn_append_cons_self_of_not_mem (by decide),
      List.splitOn_append_cons_self_of_not_mem (separators_of_isPlain ha.group.2).1] at hcut
    exact (String.toList_inj.mp (List.cons.inj hcut).1).symm
  · intro hgroup
    refine ⟨rest, ?_⟩
    rw [hgroup, hscheme, List.append_assoc, List.singleton_append]

theorem parse_id (ha : a.WellFormed) (hgroup : a.group ≠ "mvn") : parse a.id = .ok a := by
  obtain ⟨rest, hid⟩ := exists_toList_id a
  have hprefix : ¬ scheme.toList.isPrefixOf a.id.toList = true := by
    rw [List.isPrefixOf_iff_prefix, ha.scheme_prefix_id_iff]
    exact hgroup
  have hcolon : ':' ∈ a.id.toList := by
    rw [hid]
    simp
  rw [parse, trim_of_no_blank ha.isBlank_id]
  simp only [if_neg hprefix, if_pos hcolon]
  exact ha.ofId_id

theorem parse_id_of_scheme (ha : a.WellFormed) (hgroup : a.group = "mvn") :
    parse a.id = .error (.invalidUrl a.id) := by
  have hslash : '/' ∉ a.id.toList :=
    not_mem_id (by decide) fun s hs => (separators_of_isPlain (ha.of_mem_components hs).2).2
  have hbody : '/' ∉ urlBody a.id := by
    obtain ⟨rest, hrest⟩ := ha.scheme_prefix_id_iff.mpr hgroup
    intro hmem
    rw [urlBody, trim_of_no_blank ha.isBlank_id, ← hrest, dropStart?_append] at hmem
    refine hslash ?_
    rw [← hrest]
    exact List.mem_append_right _ (mem_of_mem_afterLast hmem)
  rw [parse_of_scheme ha.isBlank_id (ha.scheme_prefix_id_iff.mpr hgroup), ofUrl,
    piecesOf_eq_splitOn, List.splitOn_eq_singleton hbody]
  rfl

end WellFormed

/-- All coordinates come back from their ids, so that different ones have different ids. Where a text
may be an id or a url, all ids come back but those whose group is the name of the scheme, which are
refused; and of the urls exactly those in which nothing looks like the end of a repository. -/
theorem forms_read_back {a : Coordinate} (ha : a.Obtainable) :
    ofId a.id = .ok a ∧ (∀ b : Coordinate, b.Obtainable → (a.id = b.id ↔ a = b)) ∧
      (parse a.id = .ok a ↔ a.group ≠ "mvn") ∧
      (a.group = "mvn" → parse a.id = .error (.invalidUrl a.id)) ∧
      (parse a.url = .ok a ↔ ∀ s ∈ a.components, '!' ∉ s.toList) := by
  have hformed := ha.wellFormed
  refine ⟨hformed.ofId_id, fun b hb => hformed.id_eq_iff hb.wellFormed, ⟨fun h hgroup => ?_,
    hformed.parse_id⟩, hformed.parse_id_of_scheme, ?_⟩
  · rw [hformed.parse_id_of_scheme hgroup] at h
    cases h
  · rw [hformed.parse_url]
    exact ⟨mark_not_mem_of_ofUrl, hformed.ofUrl_url⟩

theorem forms_of_marked : ∃ a : Coordinate, a.Obtainable ∧ ofId a.id = .ok a ∧
    parse a.id = .error (.invalidUrl a.id) ∧ parse a.url ≠ .ok a := by
  have hmade : Coordinate.ofId " mvn:lib!x:1 " = .ok ⟨"mvn", "lib!x", "1", none, defaultType⟩ := by
    decide
  obtain ⟨hid, -, -, hscheme, hurl⟩ := forms_read_back (.ofId hmade)
  refine ⟨_, .ofId hmade, hid, hscheme rfl, fun h => ?_⟩
  exact hurl.mp h "lib!x" (by decide) (by decide)

end FeatureAssembly.Coordinate
