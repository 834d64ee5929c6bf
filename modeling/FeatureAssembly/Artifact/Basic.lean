import FeatureAssembly.Roster
import FeatureAssembly.Coordinate.Forms

/-! Artifacts of a feature: a coordinate with start order, aliases, origins and free metadata. An
artifact is named by its coordinate; lists of artifacts are rosters, without repeated
coordinates. -/

namespace FeatureAssembly

/-- A start order of 0 is none; the origins are the features that contributed the artifact. -/
structure Artifact where
  id : Coordinate
  startOrder : Nat
  aliases : List Coordinate
  origins : List Coordinate
  metadata : Table String
deriving DecidableEq

instance instKeyedArtifact : Keyed Artifact Coordinate := ⟨Artifact.id⟩

namespace Artifact

def ofId (id : Coordinate) : Artifact := ⟨id, 0, [], [], []⟩

def copy (a : Artifact) (id : Coordinate) : Artifact := { a with id }

def addAlias (a : Artifact) (id : Coordinate) : Artifact :=
  { a with aliases := addNew a.aliases id }

def addOrigin (a : Artifact) (origin : Coordinate) : Artifact :=
  { a with origins := addNew a.origins origin }

def setOrigins (a : Artifact) (origins : List Coordinate) : Artifact :=
  { a with origins := addAllNew [] origins }

def stamped (a : Artifact) (origin : Coordinate) : Artifact :=
  if a.origins = [] then { a with origins := [origin] } else a

def ids (a : Artifact) : List Coordinate := a.id :: a.aliases

/-- Two artifacts are the same when, apart from versions, some name of the first is the coordinate
of the second or some alias of the second is the coordinate of the first. -/
def isSame (a b : Artifact) : Bool :=
  a.ids.any (fun i => i.isSame b.id) || b.aliases.any (fun i => i.isSame a.id)

end Artifact

namespace Artifacts

def findSame? (l : List Artifact) (id : Coordinate) : Option Artifact :=
  l.find? fun a => a.id.isSame id

def allSame (l : List Artifact) (id : Coordinate) : List Artifact :=
  l.filter fun a => a.id.isSame id

def removeSame (l : List Artifact) (id : Coordinate) : List Artifact :=
  l.filter fun a => !a.id.isSame id

def ids (l : List Artifact) : List Coordinate := l.map Artifact.id

end Artifacts
end FeatureAssembly
