import FeatureAssembly.Version

/-! Coordinates: the names of artifacts. A coordinate built by `Coordinate.make` is well formed
(`Coordinate.WellFormed`), and so is one that a change of version, classifier or type gives. -/

namespace FeatureAssembly

structure Coordinate where
  group : String
  artifact : String
  version : String
  classifier : Option String
  type : String
deriving DecidableEq

namespace Coordinate

inductive Component where
  | group | artifact | version | classifier | type
deriving DecidableEq

def Component.label : Component → String
  | .group => "groupId"
  | .artifact => "artifactId"
  | .version => "version"
  | .classifier => "classifier"
  | .type => "type"

end Coordinate

inductive CoordinateError where
  | empty (component : Coordinate.Component)
  | invalidCharacter (component : Coordinate.Component) (value : String)
  | invalidId (text : String)
  | invalidUrl (text : String)
  | invalidPath (text : String)
  | unrecognized (text : String)
deriving DecidableEq

def CoordinateError.message : CoordinateError → String
  | .empty component => component.label ++ " must not be empty"
  | .invalidCharacter component value => "invalid " ++ component.label ++ ": '" ++ value ++ "'"
  | .invalidId text =>
    "invalid mvn id: '" ++ text ++ "' (expected group:artifact[:type[:classifier]]:version)"
  | .invalidUrl text =>
    "invalid mvn url: '" ++ text ++ "' (expected mvn:group/artifact/version[/type[/classifier]])"
  | .invalidPath text => "invalid mvn path: '" ++ text ++ "'"
  | .unrecognized text => "unrecognized artifact id: '" ++ text ++ "'"

namespace Coordinate
open Text

def isPlainChar (c : Char) : Bool := c != ':' && c != '/' && !isBlank c

def isPlain (s : String) : Bool := s.toList.all isPlainChar

def defaultType : String := "jar"

def bundleType : String := "bundle"

structure WellFormed (a : Coordinate) : Prop where
  group : a.group ≠ "" ∧ isPlain a.group
  artifact : a.artifact ≠ "" ∧ isPlain a.artifact
  version : a.version ≠ "" ∧ isPlain a.version
  classifier : ∀ c ∈ a.classifier, c ≠ "" ∧ isPlain c
  type : a.type ≠ "" ∧ isPlain a.type ∧ a.type ≠ bundleType

def checked (component : Component) (value : String) : Except CoordinateError String :=
  if isPlain value then .ok value else .error (.invalidCharacter component value)

def required (component : Component) (value : String) : Except CoordinateError String :=
  if trim value = "" then .error (.empty component) else checked component (trim value)

def readClassifier : Option String → Except CoordinateError (Option String)
  | none => .ok none
  | some c => if trim c = "" then .ok none else (checked .classifier (trim c)).map some

def readType : Option String → Except CoordinateError String
  | none => .ok defaultType
  | some t =>
    if trim t = "" ∨ trim t = bundleType then .ok defaultType else checked .type (trim t)

/-- A coordinate from its components, each trimmed; the first defect in this order is reported. -/
def make (group artifact version : String) (classifier type : Option String) :
    Except CoordinateError Coordinate := do
  let group ← required .group group
  let artifact ← required .artifact artifact
  let version ← required .version version
  let classifier ← readClassifier classifier
  let type ← readType type
  return { group, artifact, version, classifier, type }

def isSame (a b : Coordinate) : Bool :=
  a.group == b.group && a.artifact == b.artifact && a.type == b.type &&
    a.classifier == b.classifier

def identity (a : Coordinate) : String × String × String × Option String :=
  (a.group, a.artifact, a.type, a.classifier)

theorem isSame_iff {a b : Coordinate} : a.isSame b = true ↔ a.identity = b.identity := by
  simp [isSame, identity, and_assoc]

def isSnapshot (a : Coordinate) : Bool := "-SNAPSHOT".toList.isSuffixOf a.version.toList

def changeVersion (a : Coordinate) (version : String) : Except CoordinateError Coordinate := do
  return { a with version := ← required .version version }

def changeClassifier (a : Coordinate) (classifier : Option String) :
    Except CoordinateError Coordinate :=
  make a.group a.artifact a.version classifier (some a.type)

def changeType (a : Coordinate) (type : String) : Except CoordinateError Coordinate :=
  make a.group a.artifact a.version a.classifier (some type)

end Coordinate
end FeatureAssembly
