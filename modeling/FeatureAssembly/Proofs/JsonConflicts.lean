import FeatureAssembly.Proofs.JsonEntries

/-! Where JSON values cannot be merged. A conflict is a path on which both values come to ones that
cannot be merged. A merge fails exactly if there is a conflict, and it reports the first one in the
order of the entries of the second value, whatever has been merged before. -/

namespace FeatureAssembly
namespace Json
open Outcome

def child? : Json → String → Option Json
  | .object fields, name => Table.get? fields name
  | _, _ => none

def reach? : Json → List String → Option Json
  | v, [] => some v
  | v, name :: path => (child? v name).bind fun w => reach? w path

/-- Whether two values cannot be merged whatever they contain: they are neither both objects nor
both arrays, and one of them is an object or an array. -/
structure Clash (v w : Json) : Prop where
  objects : ¬ (v.kind = .object ∧ w.kind = .object)
  arrays : ¬ (v.kind = .array ∧ w.kind = .array)
  container : v.isContainer ∨ w.isContainer

def IsConflict (target source : Json) (path : List String) : Prop :=
  ∃ v w, reach? target path = some v ∧ reach? source path = some w ∧ Clash v w

mutual

/-- The paths through a value: each before those that lead further, and those through an entry
before those through the next. -/
def paths : Json → List (List String)
  | .object fields => [] :: pathsBelow fields
  | _ => [[]]
termination_by structural x => x

def pathsBelow : List (String × Json) → List (List String)
  | [] => []
  | (name, v) :: fields => (paths v).map (name :: ·) ++ pathsBelow fields
termination_by structural x => x

end

theorem pathsBelow_eq (fields : Table Json) :
    pathsBelow fields = fields.flatMap fun e => (paths e.2).map (e.1 :: ·) := by
  induction fields with
  | nil => rfl
  | cons e fields ih => rw [pathsBelow, ih, List.flatMap_cons]

theorem paths_of_not_object {v : Json} (h : v.kind ≠ .object) : paths v = [[]] := by
  cases v with
  | object fields => exact absurd rfl h
  | _ => rfl

theorem kind_eq_object_iff {v : Json} : v.kind = .object ↔ ∃ fields, v = .object fields := by
  cases v <;> simp [kind]

theorem nil_mem_paths (v : Json) : [] ∈ paths v := by
  cases v with
  | object fields => exact List.mem_cons_self ..
  | _ => exact List.mem_singleton_self _

theorem mem_paths_of_reach? {v w : Json} {path : List String} (h : reach? v path = some w) :
    path ∈ paths v := by
  induction path generalizing v with
  | nil => exact nil_mem_paths v
  | cons name path ih =>
    obtain ⟨u, hu, hw⟩ := Option.bind_eq_some_iff.mp h
    cases v with
    | object fields =>
      obtain ⟨e, he, rfl⟩ := Option.map_eq_some_iff.mp hu
      rw [paths, pathsBelow_eq]
      refine List.mem_cons_of_mem _ (List.mem_flatMap.mpr ⟨e, Roster.mem_of_find? he, ?_⟩)
      rw [← Roster.key_of_find? he]
      exact List.mem_map_of_mem (ih hw)
    | _ => cases hu

theorem IsConflict.mem_paths {target source : Json} {path : List String}
    (h : IsConflict target source path) : path ∈ paths source := by
  obtain ⟨v, w, -, hw, -⟩ := h
  exact mem_paths_of_reach? hw

theorem isContainer_iff {v : Json} : v.isContainer ↔ v.kind = .array ∨ v.kind = .object := by
  cases v <;> simp [isContainer, kind]

theorem clash_iff {v w : Json} : Clash v w ↔ (v.isContainer ∨ w.isContainer) ∧ v.kind ≠ w.kind := by
  constructor
  · intro h
    refine ⟨h.container, fun hkind => ?_⟩
    have hv : v.kind = .array ∨ v.kind = .object := by
      rcases h.container with hv | hw
      · exact isContainer_iff.mp hv
      · exact hkind ▸ isContainer_iff.mp hw
    rcases hv with hv | hv
    · exact h.arrays ⟨hv, hkind ▸ hv⟩
    · exact h.objects ⟨hv, hkind ▸ hv⟩
  · rintro ⟨hcontainer, hkind⟩
    exact ⟨fun h => hkind (h.1.trans h.2.symm), fun h => hkind (h.1.trans h.2.symm), hcontainer⟩

def conflictAt? (target source : Json) (path : List String) : Option Mismatch :=
  (reach? target path).bind fun v => (reach? source path).bind fun w =>
    if (v.isContainer ∨ w.isContainer) ∧ v.kind ≠ w.kind then some ⟨path, v.kind, w.kind⟩ else none

theorem conflictAt?_eq_some_iff {target source : Json} {path : List String} {m : Mismatch} :
    conflictAt? target source path = some m ↔ ∃ v w, reach? target path = some v ∧
      reach? source path = some w ∧ Clash v w ∧ ⟨path, v.kind, w.kind⟩ = m := by
  simp only [conflictAt?, Option.bind_eq_some_iff, Option.ite_none_right_eq_some, clash_iff,
    Option.some.injEq, exists_and_left]

theorem isConflict_iff {target source : Json} {path : List String} :
    IsConflict target source path ↔ (conflictAt? target source path).isSome := by
  simp only [Option.isSome_iff_exists, conflictAt?_eq_some_iff]
  constructor
  · rintro ⟨v, w, hv, hw, h⟩
    exact ⟨_, v, w, hv, hw, h, rfl⟩
  · rintro ⟨m, v, w, hv, hw, h, -⟩
    exact ⟨v, w, hv, hw, h⟩

theorem conflictAt?_cons {present fields : Table Json} (hf : Roster.Distinct fields)
    {e : String × Json} (he : e ∈ fields) (path : List String) :
    conflictAt? (.object present) (.object fields) (e.1 :: path) =
      (Table.get? present e.1).bind fun w =>
        (conflictAt? w e.2 path).map (Mismatch.under [e.1]) := by
  unfold conflictAt?
  rw [reach?, reach?, child?, child?, Table.get?_of_mem hf he, Option.bind_some]
  cases Table.get? present e.1 with
  | none => rfl
  | some w =>
    rw [Option.bind_some, Option.bind_some]
    cases reach? w path with
    | none => rfl
    | some v =>
      cases reach? e.2 path with
      | none => rfl
      | some u =>
        rw [Option.bind_some, Option.bind_some, Option.bind_some, Option.bind_some]
        split <;> rfl

def mismatch? (target source : Json) : Option Mismatch :=
  match merge target source with
  | .ok _ => none
  | .error m => some m

theorem mismatch?_eq_some_iff {target source : Json} {m : Mismatch} :
    mismatch? target source = some m ↔ merge target source = .error m := by
  unfold mismatch?
  cases merge target source <;> simp

theorem mismatch?_object {present fields : Table Json} (hf : Roster.Distinct fields) :
    mismatch? (.object present) (.object fields) = fields.findSome? fun e =>
      (Table.get? present e.1).bind fun w => (mismatch? w e.2).map (Mismatch.under [e.1]) := by
  have hfault : mismatch? (.object present) (.object fields) = (mergeTable present fields).fault := by
    rw [mismatch?, merge_object]
    obtain ⟨r, _ | m⟩ := mergeTable present fields <;> rfl
  rw [hfault, mergeTable, (isLocalStep_mergeEntry present).fault_each hf]
  refine findSome?_congr fun e _ => ?_
  rw [Table.key_eq, joinedEntry]
  cases Table.get? present e.1 with
  | none => rfl
  | some w =>
    rw [joined, Option.bind_some, mismatch?]
    cases merge w e.2 <;> rfl

theorem mismatch?_of_not_objects {target source : Json}
    (h : ¬ (target.kind = .object ∧ source.kind = .object)) :
    mismatch? target source = conflictAt? target source [] := by
  cases source with
  | object fields =>
    cases target with
    | object present => exact absurd ⟨rfl, rfl⟩ h
    | _ => rfl
  | array items => cases target <;> rfl
  | _ => cases target <;> rfl

theorem conflictAt?_objects (present fields : Table Json) :
    conflictAt? (.object present) (.object fields) [] = none := rfl

theorem conflictAt?_of_not_object {target : Json} (h : target.kind ≠ .object) (fields : Table Json) :
    conflictAt? target (.object fields) [] = some ⟨[], target.kind, .object⟩ :=
  if_pos ⟨.inr rfl, h⟩

theorem findSome?_conflictAt? {present fields : Table Json} (hf : Roster.Distinct fields) :
    (paths (.object fields)).findSome? (conflictAt? (.object present) (.object fields)) =
      fields.findSome? fun e => (Table.get? present e.1).bind fun w =>
        ((paths e.2).findSome? (conflictAt? w e.2)).map (Mismatch.under [e.1]) := by
  rw [paths, List.findSome?_cons, conflictAt?_objects, pathsBelow_eq]
  refine (findSome?_flatMap ..).trans (findSome?_congr fun e he => ?_)
  rw [List.findSome?_map]
  have hcons : conflictAt? (.object present) (.object fields) ∘ (e.1 :: ·) = fun path =>
      (Table.get? present e.1).bind fun w => (conflictAt? w e.2 path).map (Mismatch.under [e.1]) :=
    funext fun path => conflictAt?_cons hf he path
  rw [hcons]
  cases Table.get? present e.1 with
  | none => exact List.findSome?_eq_none_iff.mpr fun _ _ => rfl
  | some w => exact List.map_findSome?.symm

theorem mismatch?_eq_findSome? {source : Json} (hs : source.Distinct) (target : Json) :
    mismatch? target source = (paths source).findSome? (conflictAt? target source) := by
  induction source using induction_on_entries generalizing target with
  | h source ih =>
    by_cases hsource : source.kind = .object
    · obtain ⟨fields, rfl⟩ := kind_eq_object_iff.mp hsource
      by_cases htarget : target.kind = .object
      · obtain ⟨present, rfl⟩ := kind_eq_object_iff.mp htarget
        cases hs with
        | plain h => cases h
        | object hf hvalues =>
          rw [mismatch?_object hf, findSome?_conflictAt? hf]
          refine findSome?_congr fun e he => Option.bind_congr fun w _ => ?_
          rw [ih fields rfl e he (hvalues e he)]
      · rw [mismatch?_of_not_objects fun h => htarget h.1, paths, List.findSome?_cons,
          conflictAt?_of_not_object htarget]
    · rw [mismatch?_of_not_objects fun h => hsource h.2, paths_of_not_object hsource]
      exact List.findSome?_singleton.symm

/-! Pointers. -/

def pointed (c : Char) : List Char :=
  if c = '~' then ['~', '0'] else if c = '/' then ['~', '1'] else [c]

theorem toList_pointer {path : List String} (h : path ≠ []) :
    (pointer path).toList = path.flatMap fun name => '/' :: name.toList.flatMap pointed := by
  rw [pointer, if_neg h, String.toList_join, List.flatMap_map]
  refine List.flatMap_congr fun name _ => ?_
  rw [pointerStep, String.toList_ofList]
  rfl

/-- A mismatch at the conflict that comes first on the paths through the source: it has the kinds of
the values there, and its pointer is made of the names on the way alone. -/
structure IsFirstConflict (target source : Json) (m : Mismatch) : Prop where
  first : ∃ before after, paths source = before ++ m.path :: after ∧
    ∀ path ∈ before, ¬ IsConflict target source path
  values : ∃ v w, reach? target m.path = some v ∧ reach? source m.path = some w ∧ Clash v w ∧
    m.existing = v.kind ∧ m.incoming = w.kind
  root : m.path = [] → pointer m.path = "/"
  names : m.path ≠ [] → (pointer m.path).toList =
    m.path.flatMap fun name => '/' :: name.toList.flatMap pointed

theorem not_isConflict_iff {target source : Json} {path : List String} :
    ¬ IsConflict target source path ↔ conflictAt? target source path = none := by
  rw [isConflict_iff, Option.not_isSome_iff_eq_none]

theorem isFirstConflict_of_findSome? {target source : Json} {m : Mismatch}
    (h : (paths source).findSome? (conflictAt? target source) = some m) :
    IsFirstConflict target source m := by
  obtain ⟨before, path, after, hpaths, hpath, hbefore⟩ := List.findSome?_eq_some_iff.mp h
  obtain ⟨v, w, hv, hw, hclash, rfl⟩ := conflictAt?_eq_some_iff.mp hpath
  exact
    { first := ⟨before, after, hpaths, fun q hq => not_isConflict_iff.mpr (hbefore q hq)⟩
      values := ⟨v, w, hv, hw, hclash, rfl, rfl⟩
      root := fun hroot => congrArg pointer hroot
      names := toList_pointer }

theorem merge_fails_on_first_conflict {source : Json} (hs : source.Distinct) (target : Json) :
    ((∃ m, merge target source = .error m) ↔ ∃ path, IsConflict target source path) ∧
    ∀ m, merge target source = .error m → IsFirstConflict target source m := by
  have hfirst := mismatch?_eq_findSome? hs target
  refine ⟨⟨?_, ?_⟩, fun m hm => ?_⟩
  · rintro ⟨m, hm⟩
    rw [mismatch?_eq_some_iff.mpr hm] at hfirst
    obtain ⟨v, w, hv, hw, hclash, -, -⟩ := (isFirstConflict_of_findSome? hfirst.symm).values
    exact ⟨m.path, v, w, hv, hw, hclash⟩
  · rintro ⟨path, hconflict⟩
    have hsome : (mismatch? target source).isSome := by
      rw [hfirst, List.findSome?_isSome_iff]
      exact ⟨path, hconflict.mem_paths, isConflict_iff.mp hconflict⟩
    obtain ⟨m, hm⟩ := Option.isSome_iff_exists.mp hsome
    exact ⟨m, mismatch?_eq_some_iff.mp hm⟩
  · rw [mismatch?_eq_some_iff.mpr hm] at hfirst
    exact isFirstConflict_of_findSome? hfirst.symm

end Json

namespace Sample

def shelves : Json :=
  .object [("z", .object []), ("a", .object [("x", .array []), ("b/~", .array [])]),
    ("y", .array [])]

def labels : Json :=
  .object [("z", .object [("q", .null)]),
    ("a", .object [("x", .array [.null]), ("b/~", .bool true)]), ("y", .null)]

end Sample

theorem Json.merge_labels_fails : Sample.labels.Distinct ∧ ∃ m,
    merge Sample.shelves Sample.labels = .error m ∧
      IsFirstConflict Sample.shelves Sample.labels m ∧ m.path = ["a", "b/~"] ∧
      pointer m.path = "/a/b~1~0" ∧ m.existing = .array ∧ m.incoming = .boolean := by
  have hlabels : Sample.labels.Distinct := distinct_distinct Sample.labels
  obtain ⟨-, hfirst⟩ := merge_fails_on_first_conflict hlabels Sample.shelves
  exact ⟨hlabels, _, rfl, hfirst _ rfl, rfl, by decide, rfl, rfl⟩

end FeatureAssembly
