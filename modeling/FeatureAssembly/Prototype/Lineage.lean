import FeatureAssembly.BuildError
import FeatureAssembly.Feature.Basic
import FeatureAssembly.Roster.Keys

/-! The line of prototypes above a feature, found in a catalogue before anything is built. The walk
ends on every catalogue: each feature that it enters leaves fewer of them to enter. -/

namespace FeatureAssembly

abbrev Catalogue := List (Coordinate × Feature)

instance instKeyedCatalogueEntry : Keyed (Coordinate × Feature) Coordinate := ⟨Prod.fst⟩

namespace Catalogue

def find? (c : Catalogue) (id : Coordinate) : Option Feature := (Roster.find? c id).map Prod.snd

def entry (f : Feature) : Coordinate × Feature := (f.id, f)

def unvisited (c : Catalogue) (path : List Coordinate) : Catalogue :=
  c.filter fun e => e.2.id ∉ path

theorem mem_of_find? {c : Catalogue} {id : Coordinate} {f : Feature} (h : find? c id = some f) :
    ∃ e ∈ c, e.2 = f := by
  obtain ⟨e, he, rfl⟩ := Option.map_eq_some_iff.mp h
  exact ⟨e, Roster.mem_of_find? he, rfl⟩

theorem length_unvisited_append_lt {c : Catalogue} {id : Coordinate} {f : Feature}
    {path : List Coordinate} (hf : find? c id = some f) (hp : f.id ∉ path) :
    (unvisited c (path ++ [f.id])).length < (unvisited c path).length := by
  obtain ⟨e, he, rfl⟩ := mem_of_find? hf
  have hsub : unvisited c (path ++ [e.2.id]) =
      (unvisited c path).filter fun x => x.2.id ≠ e.2.id := by
    simp [unvisited, List.filter_filter, not_or, and_comm]
  rw [hsub]
  apply List.length_filter_lt_length_iff_exists.mpr
  exact ⟨e, List.mem_filter.mpr ⟨he, by simpa using hp⟩, by simp⟩

end Catalogue

inductive Lineage where
  | assembled (f : Feature)
  | root (f : Feature)
  | heir (f : Feature) (reference : Prototype) (base : Lineage)

namespace Lineage

/-- Follows the prototypes of a feature; `path` holds the features entered so far, this one last. -/
def climb (c : Catalogue) (path : List Coordinate) (f : Feature) : Except BuildError Lineage :=
  match f.prototype with
  | none => .ok (.root f)
  | some p =>
    match _found : c.find? p.id with
    | none => .error (.missingFeature p.id)
    | some g =>
      if g.isFinal then .error (.finalPrototype p.id f.id)
      else if g.isAssembled then .ok (.heir f p (.assembled g))
      else if _new : g.id ∈ path then .error (.cycle (path ++ [g.id]))
      else (climb c (path ++ [g.id]) g).map (.heir f p)
termination_by (c.unvisited path).length
decreasing_by exact Catalogue.length_unvisited_append_lt _found _new

def ofFeature (c : Catalogue) (f : Feature) : Except BuildError Lineage :=
  if f.isAssembled then .ok (.assembled f) else climb c [f.id] f

def references : Lineage → List Coordinate
  | .assembled _ => []
  | .root _ => []
  | .heir _ p base => p.id :: base.references

end Lineage
end FeatureAssembly
