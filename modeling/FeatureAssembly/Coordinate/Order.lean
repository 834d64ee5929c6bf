import FeatureAssembly.Coordinate.Basic

/-! The order of coordinates: by group, artifact, version (as versions, then as texts), type and
classifier, where a missing classifier comes first. -/

namespace FeatureAssembly.Coordinate

def compareClassifiers : Option String → Option String → Ordering
  | none, none => .eq
  | none, some _ => .lt
  | some _, none => .gt
  | some c, some d => Ord.compare c d

def compare (a b : Coordinate) : Ordering :=
  (Ord.compare a.group b.group).then <| (Ord.compare a.artifact b.artifact).then <|
    (Version.compareTexts a.version b.version).then <| (Ord.compare a.version b.version).then <|
      (Ord.compare a.type b.type).then (compareClassifiers a.classifier b.classifier)

/-- The greatest of a list; of equal ones the last. -/
def greatest? : List Coordinate → Option Coordinate
  | [] => none
  | a :: as => some (as.foldl (fun m b => if compare m b = .gt then m else b) a)

/-- The least of a list; of equal ones the first. -/
def least? : List Coordinate → Option Coordinate
  | [] => none
  | a :: as => some (as.foldl (fun m b => if compare m b = .gt then b else m) a)

end FeatureAssembly.Coordinate
