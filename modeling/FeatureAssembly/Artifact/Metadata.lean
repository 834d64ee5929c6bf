import FeatureAssembly.Artifact.Basic

/-! Artifacts as tables of texts: three keys hold the start order, the aliases and the origins, all
others are free metadata. -/

namespace FeatureAssembly

inductive ArtifactError where
  | invalidStartOrder (text : String)
  | invalidId (error : CoordinateError)
deriving DecidableEq

def ArtifactError.message : ArtifactError → String
  | .invalidStartOrder text => "invalid start order: '" ++ text ++ "'"
  | .invalidId error => error.message

namespace Artifact
open Text

def startOrderKey : String := "start-order"
def aliasKey : String := "alias"
def originsKey : String := "feature-origins"

def startOrderBound : Nat := 0x100000000

def readStartOrder? (s : String) : Option Nat :=
  match (trim s).toList with
  | '+' :: cs => readNat? startOrderBound cs
  | cs => readNat? startOrderBound cs

/-- An alias with a single colon takes the version of the artifact. -/
def readAlias (a : Artifact) (s : String) : Except CoordinateError Coordinate :=
  if s.toList.count ':' = 1 then Coordinate.ofId (s ++ ":" ++ a.id.version) else Coordinate.parse s

def readAliases (a : Artifact) : List String → Except CoordinateError Artifact
  | [] => .ok a
  | s :: rest => do readAliases (a.addAlias (← a.readAlias s)) rest

def readOrigins (a : Artifact) : List String → Except CoordinateError Artifact
  | [] => .ok a
  | s :: rest => do readOrigins (a.addOrigin (← Coordinate.parse s)) rest

def invalidIdOf {α : Type} : Except CoordinateError α → Except ArtifactError α
  | .ok a => .ok a
  | .error e => .error (.invalidId e)

def readEntry (a : Artifact) (key value : String) : Except ArtifactError Artifact :=
  if key = startOrderKey then
    match readStartOrder? value with
    | some n => .ok { a with startOrder := n }
    | none => .error (.invalidStartOrder value)
  else if key = aliasKey then invalidIdOf (a.readAliases (listItems trim value))
  else if key = originsKey then invalidIdOf (a.readOrigins (listItems trim value))
  else .ok { a with metadata := Table.set a.metadata key value }

def readEntries (a : Artifact) : List (String × String) → Except ArtifactError Artifact
  | [] => .ok a
  | (key, value) :: rest => do readEntries (← a.readEntry key value) rest

def ofMetadata (id : Coordinate) (entries : List (String × String)) :
    Except ArtifactError Artifact :=
  (ofId id).readEntries entries

def joinIds (ids : List Coordinate) : String := String.intercalate "," (ids.map Coordinate.id)

def metadataView (a : Artifact) : Table String :=
  let t := a.metadata
  let t := if a.startOrder = 0 then t else Table.set t startOrderKey a.startOrder.repr
  let t := if a.aliases = [] then t else Table.set t aliasKey (joinIds a.aliases)
  if a.origins = [] then t else Table.set t originsKey (joinIds a.origins)

end Artifact
end FeatureAssembly
