import FeatureAssembly.Proofs.CoordinateForms

/-! Reading back repository paths. The dots of a group become slashes, and slashes at the start of a path
are not read, so that a group loses the dots that it begins with. The file name tells classifier and type
apart by its first dot after artifact and version, so that a classifier is read up to its first dot. -/

namespace FeatureAssembly
namespace Coordinate
open Text

/-! Groups. -/

def undotted (group : String) : String := String.ofList (group.toList.dropWhile (· = '.'))

theorem undotted_eq_self_iff {group : String} :
    undotted group = group ↔ group.toList.head? ≠ some '.' := by
  rw [undotted, ← String.toList_inj, String.toList_ofList, List.dropWhile_eq_self_iff]
  cases group.toList with
  | nil => simp
  | cons c cs => simp

theorem piecesOf_groupPath {group : String} (h : '/' ∉ group.toList) :
    piecesOf '/' (groupPath group).toList = piecesOf '.' group.toList := by
  rw [groupPath, String.toList_ofList]
  generalize group.toList = cs at h
  induction cs with
  | nil => rfl
  | cons c cs ih =>
    rw [List.mem_cons, not_or] at h
    by_cases hdot : c = '.'
    · simp [piecesOf, hdot, ih h.2]
    · simp [piecesOf, hdot, Ne.symm h.1, ih h.2]

theorem dropWhile_groupPath {group : String} (h : '/' ∉ group.toList) :
    (groupPath group).toList.dropWhile (· = '/') = (groupPath (undotted group)).toList := by
  simp only [groupPath, undotted, String.toList_ofList]
  generalize group.toList = cs at h
  induction cs with
  | nil => rfl
  | cons c cs ih =>
    rw [List.mem_cons, not_or] at h
    by_cases hdot : c = '.'
    · simpa [hdot] using ih h.2
    · simp [hdot, Ne.symm h.1]

theorem mem_of_mem_undotted {group : String} {c : Char} (h : c ∈ (undotted group).toList) :
    c ∈ group.toList := by
  rw [undotted, String.toList_ofList] at h
  exact (List.dropWhile_sublist _).subset h

/-! File names. -/

def fileEnd (a : Coordinate) : List Char :=
  match a.classifier with
  | none => '.' :: a.type.toList
  | some c => '-' :: (c.toList ++ '.' :: a.type.toList)

theorem toList_fileName (a : Coordinate) : a.fileName.toList =
    (a.artifact.toList ++ '-' :: a.version.toList) ++ a.fileEnd := by
  unfold fileName fileEnd
  cases a.classifier with
  | none => simp
  | some c => simp

theorem fileTail?_fileEnd {a : Coordinate} (h : ∀ c ∈ a.classifier, '.' ∉ c.toList) :
    fileTail? a.fileEnd = some (a.classifier, a.type) := by
  unfold fileEnd
  cases hc : a.classifier with
  | none => simp [fileTail?]
  | some c => simp [fileTail?, cutFirst?_append (h c hc)]

theorem dot_not_mem_of_fileTail? {rest : List Char} {c t : String}
    (h : fileTail? rest = some (some c, t)) : '.' ∉ c.toList := by
  unfold fileTail? at h
  split at h
  · cases h
  · obtain ⟨⟨p, q⟩, hcut, heq⟩ := Option.map_eq_some_iff.mp h
    obtain ⟨hp, -⟩ := Prod.mk.inj heq
    rw [← Option.some.inj hp, String.toList_ofList]
    exact not_mem_of_cutFirst? hcut
  · cases h

theorem dot_not_mem_of_ofPath {s : String} {a : Coordinate} (h : ofPath s = .ok a) :
    ∀ c ∈ a.classifier, '.' ∉ c.toList := by
  unfold ofPath at h
  split at h
  · split at h
    · cases h
    · next classifier type htail =>
      obtain ⟨-, -, -, hclassifier, -⟩ := make_eq_ok (orElseReport_eq_ok h)
      intro c hc
      obtain ⟨⟨d, hd, rfl⟩, -⟩ := readClassifier_eq_ok hclassifier c hc
      obtain ⟨rest, -, hrest⟩ := Option.bind_eq_some_iff.mp htail
      obtain rfl := Option.mem_def.mp hd
      exact fun hdot => dot_not_mem_of_fileTail? hrest (mem_of_mem_trim hdot)
  · cases h

/-! Paths. -/

def pathEnd (a : Coordinate) : List Char :=
  a.artifact.toList ++ '/' :: (a.version.toList ++ '/' :: a.fileName.toList)

theorem toList_path (a : Coordinate) :
    a.path.toList = (groupPath a.group).toList ++ '/' :: a.pathEnd := by
  simp [path, pathEnd]

namespace WellFormed
variable {a : Coordinate}

theorem separator_not_mem_fileEnd (ha : a.WellFormed) : '/' ∉ a.fileEnd := by
  have htype := (separators_of_isPlain ha.type.2.1).2
  unfold fileEnd
  cases hc : a.classifier with
  | none => simpa using htype
  | some c =>
    have hclassifier := (separators_of_isPlain (ha.classifier c hc).2).2
    simpa using ⟨hclassifier, htype⟩

theorem piecesOf_pathEnd (ha : a.WellFormed) : piecesOf '/' a.pathEnd =
    [a.artifact.toList, a.version.toList, a.fileName.toList] := by
  have hartifact := (separators_of_isPlain ha.artifact.2).2
  have hversion := (separators_of_isPlain ha.version.2).2
  have hfile : '/' ∉ a.fileName.toList := by
    rw [toList_fileName]
    simpa using ⟨hartifact, hversion, ha.separator_not_mem_fileEnd⟩
  simp only [pathEnd, piecesOf_eq_splitOn, List.splitOn_append_cons_self_of_not_mem hartifact,
    List.splitOn_append_cons_self_of_not_mem hversion, List.splitOn_eq_singleton hfile]

theorem isBlank_path (ha : a.WellFormed) : ∀ x ∈ a.path.toList, isBlank x = false := by
  have hcomponent : ∀ s ∈ a.components, ∀ x ∈ s.toList, isBlank x = false :=
    fun s hs => isBlank_of_isPlain (ha.of_mem_components hs).2
  have hmarks : isBlank '/' = false ∧ isBlank '-' = false ∧ isBlank '.' = false := by decide
  simp only [components, List.forall_mem_cons, Option.mem_toList] at hcomponent
  obtain ⟨hgroup, hartifact, hversion, htype, hclassifier⟩ := hcomponent
  have hdirectories : ∀ x ∈ (groupPath a.group).toList, isBlank x = false := by
    intro x hx
    rw [groupPath, String.toList_ofList] at hx
    obtain ⟨c, hc, rfl⟩ := List.mem_map.mp hx
    split
    · exact hmarks.1
    · exact hgroup c hc
  have hend : ∀ x ∈ a.fileEnd, isBlank x = false := by
    unfold fileEnd
    cases hc : a.classifier with
    | none => simpa only [List.forall_mem_cons] using ⟨hmarks.2.2, htype⟩
    | some c =>
      simpa only [List.forall_mem_cons, List.forall_mem_append] using
        ⟨hmarks.2.1, hclassifier c hc, hmarks.2.2, htype⟩
  rw [toList_path, pathEnd, toList_fileName]
  simp only [List.forall_mem_cons, List.forall_mem_append]
  exact ⟨hdirectories, hmarks.1, hartifact, hmarks.1, hversion, hmarks.1,
    ⟨hartifact, hmarks.2.1, hversion⟩, hend⟩

theorem pieces_path (ha : a.WellFormed) :
    piecesOf '/' ((trim a.path).toList.dropWhile (· = '/')) =
      (if undotted a.group = "" then [] else piecesOf '.' (undotted a.group).toList) ++
        [a.artifact.toList, a.version.toList, a.fileName.toList] := by
  have hgroup : '/' ∉ a.group.toList := (separators_of_isPlain ha.group.2).2
  have hend : a.pathEnd.dropWhile (· = '/') = a.pathEnd := by
    have hartifact := (separators_of_isPlain ha.artifact.2).2
    have hne : a.artifact.toList ≠ [] := by simpa using ha.artifact.1
    obtain ⟨c, cs, hcons⟩ := List.exists_cons_of_ne_nil hne
    rw [hcons, List.mem_cons, not_or] at hartifact
    simp [pathEnd, hcons, Ne.symm hartifact.1]
  rw [trim_of_no_blank ha.isBlank_path, toList_path, List.dropWhile_append,
    dropWhile_groupPath hgroup]
  by_cases hdots : undotted a.group = ""
  · have hempty : (groupPath "").toList = [] := rfl
    simp only [hdots, hempty, List.isEmpty_nil, if_true, List.nil_append]
    rw [List.dropWhile_cons_of_pos (by simp), hend, ha.piecesOf_pathEnd]
  · have hleft : (groupPath (undotted a.group)).toList ≠ [] := by
      simpa [groupPath] using hdots
    have hcut := piecesOf_groupPath fun h => hgroup (mem_of_mem_undotted h)
    rw [piecesOf_eq_splitOn] at hcut
    rw [if_neg (by simpa using hleft), if_neg hdots, piecesOf_eq_splitOn,
      List.splitOn_append_cons_self, hcut, ← piecesOf_eq_splitOn, ha.piecesOf_pathEnd]

theorem withGroup (ha : a.WellFormed) {group : String} (hne : group ≠ "")
    (hsub : ∀ c ∈ group.toList, c ∈ a.group.toList) :
    ({ a with group } : Coordinate).WellFormed where
  group := ⟨hne, List.all_eq_true.mpr fun c hc => List.all_eq_true.mp ha.group.2 c (hsub c hc)⟩
  artifact := ha.artifact
  version := ha.version
  classifier := ha.classifier
  type := ha.type

/-- A path gives back its coordinate, but for the dots that the group begins with; a group of dots alone
leaves no directory. -/
theorem ofPath_path (ha : a.WellFormed) (hc : ∀ c ∈ a.classifier, '.' ∉ c.toList) :
    ofPath a.path = if undotted a.group = "" then .error (.invalidPath a.path)
      else .ok { a with group := undotted a.group } := by
  rw [ofPath, ha.pieces_path]
  by_cases hdots : undotted a.group = ""
  · simp only [if_pos hdots]
    rfl
  · have hmake := (ha.withGroup hdots fun c => mem_of_mem_undotted).make_eq ha.readType_eq
    have hfile : (dropStart? (a.artifact.toList ++ '-' :: a.version.toList) a.fileName.toList).bind
        fileTail? = some (a.classifier, a.type) := by
      rw [toList_fileName, dropStart?_append]
      exact fileTail?_fileEnd hc
    have hne : (piecesOf '.' (undotted a.group).toList).reverse ≠ [] := by
      rw [piecesOf_eq_splitOn]
      simp
    obtain ⟨dir, dirs, hdirs⟩ := List.exists_cons_of_ne_nil hne
    have hgroup : String.intercalate "." ((dir :: dirs).reverse.map String.ofList) =
        undotted a.group := by
      rw [← hdirs, List.reverse_reverse]
      exact intercalate_pieces '.' (undotted a.group)
    simp only [if_neg hdots, List.reverse_append, List.reverse_cons, List.reverse_nil,
      List.nil_append, List.cons_append, hdirs, hfile]
    rw [← List.reverse_cons, hgroup]
    simp only [String.ofList_toList]
    exact congrArg (orElseReport _) hmake

end WellFormed

/-- A path is read as the coordinate that it was written for exactly if the group does not begin with a
dot and the classifier has none. Artifact, version and type may have dots and dashes anywhere, and the
group dots everywhere else. -/
theorem path_reads_back {a : Coordinate} (ha : a.WellFormed) : ofPath a.path = .ok a ↔
    a.group.toList.head? ≠ some '.' ∧ ∀ c ∈ a.classifier, '.' ∉ c.toList := by
  constructor
  · intro h
    have hclassifier := dot_not_mem_of_ofPath h
    refine ⟨undotted_eq_self_iff.mp ?_, hclassifier⟩
    rw [ha.ofPath_path hclassifier] at h
    split at h
    · cases h
    · exact congrArg group (Except.ok.inj h)
  · rintro ⟨hgroup, hclassifier⟩
    have hself := undotted_eq_self_iff.mpr hgroup
    rw [ha.ofPath_path hclassifier, hself, if_neg ha.group.1]

end Coordinate

namespace Sample

def dotted (group : String) (classifier : Option String) : Coordinate :=
  ⟨group, "-lib.-1", "1.-0.", classifier, "tar.gz"⟩

theorem wellFormed_dotted {group : String} {classifier : Option String}
    (hgroup : group ≠ "" ∧ Coordinate.isPlain group)
    (hclassifier : ∀ c ∈ classifier, c ≠ "" ∧ Coordinate.isPlain c) :
    (dotted group classifier).WellFormed where
  group := hgroup
  artifact := (by decide : "-lib.-1" ≠ "" ∧ Coordinate.isPlain "-lib.-1")
  version := (by decide : "1.-0." ≠ "" ∧ Coordinate.isPlain "1.-0.")
  classifier := hclassifier
  type := (by decide : "tar.gz" ≠ "" ∧ Coordinate.isPlain "tar.gz" ∧ "tar.gz" ≠ Coordinate.bundleType)

end Sample

theorem Coordinate.path_of_dotted_reads_back :
    ofPath (Sample.dotted "org..x." (some "-a-b")).path = .ok (Sample.dotted "org..x." (some "-a-b")) ∧
      ofPath (Sample.dotted ".org" none).path ≠ .ok (Sample.dotted ".org" none) ∧
      ofPath (Sample.dotted "org" (some "a.b")).path ≠ .ok (Sample.dotted "org" (some "a.b")) := by
  have hinner : (Sample.dotted "org..x." (some "-a-b")).WellFormed :=
    Sample.wellFormed_dotted (by decide) (by decide)
  have hgroup : (Sample.dotted ".org" none).WellFormed :=
    Sample.wellFormed_dotted (by decide) (by decide)
  have hclassifier : (Sample.dotted "org" (some "a.b")).WellFormed :=
    Sample.wellFormed_dotted (by decide) (by decide)
  refine ⟨(path_reads_back hinner).mpr ⟨by decide, by decide⟩, fun h => ?_, fun h => ?_⟩
  · exact absurd ((path_reads_back hgroup).mp h).1 (by decide)
  · exact absurd ((path_reads_back hclassifier).mp h).2 (by decide)

end FeatureAssembly
