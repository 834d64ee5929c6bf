import FeatureAssembly.Coordinate.Basic

/-! Override rules: patterns of coordinates with a policy for clashes between versions of one
artifact. They are written `group:artifact[:type[:classifier]]:policy`. -/

namespace FeatureAssembly

inductive OverridePolicy where
  | all | highest | latest
  | version (version : String)
deriving DecidableEq

inductive Selection where
  | existing | incoming | both
  | synthesized (version : String)
deriving DecidableEq

/-- A rule without a classifier is for artifacts without one. -/
structure OverrideRule where
  group : String
  artifact : String
  type : String
  classifier : Option String
  policy : OverridePolicy
deriving DecidableEq

def wildcard : String := "*"

namespace OverridePolicy
open Text

def text : OverridePolicy → String
  | .all => "ALL"
  | .highest => "HIGHEST"
  | .latest => "LATEST"
  | .version v => v

/-- Reads a keyword or a version; a blank text and the wildcard are no policies. -/
def ofText? (s : String) : Option OverridePolicy :=
  let t := trim s
  if t = "" ∨ t = wildcard then none
  else if t = "ALL" then some .all
  else if t = "HIGHEST" then some .highest
  else if t = "LATEST" then some .latest
  else some (.version t)

def select (p : OverridePolicy) (existing incoming : Coordinate) : Selection :=
  match p with
  | .all => .both
  | .latest => .incoming
  | .highest =>
    if Version.compareTexts existing.version incoming.version = .lt then .incoming else .existing
  | .version v =>
    if existing.version = v then .existing
    else if incoming.version = v then .incoming
    else .synthesized v

end OverridePolicy

namespace OverrideRule
open Text

def make (group artifact type : String) (classifier : Option String) (policy : OverridePolicy) :
    OverrideRule :=
  ⟨group, artifact, if type = Coordinate.bundleType then Coordinate.defaultType else type,
    classifier, policy⟩

def catchAll (policy : OverridePolicy) : OverrideRule :=
  make wildcard wildcard wildcard (some wildcard) policy

def text (r : OverrideRule) : String :=
  let start := r.group ++ ":" ++ r.artifact ++ ":" ++ r.type
  match r.classifier with
  | none => start ++ ":" ++ r.policy.text
  | some c => start ++ ":" ++ c ++ ":" ++ r.policy.text

def ofParts? : List String → Option OverrideRule
  | [g, a, p] => (OverridePolicy.ofText? p).map (make g a Coordinate.defaultType none)
  | [g, a, t, p] => (OverridePolicy.ofText? p).map (make g a t none)
  | [g, a, t, c, p] => (OverridePolicy.ofText? p).map (make g a t (some c))
  | _ => none

def ofText? (s : String) : Option OverrideRule :=
  let parts := pieces ':' (trim s)
  if parts.any (fun p => trim p = "") then none else ofParts? parts

def matchesField (pattern value : String) : Bool := pattern == wildcard || pattern == value

def matchesClassifier : Option String → Option String → Bool
  | some pattern, some value => matchesField pattern value
  | some pattern, none => pattern == wildcard
  | none, none => true
  | none, some _ => false

def isFor (r : OverrideRule) (a : Coordinate) : Bool :=
  matchesField r.group a.group && matchesField r.artifact a.artifact &&
    matchesField r.type a.type && matchesClassifier r.classifier a.classifier

def hint (a : Coordinate) : String :=
  a.group ++ ":" ++ a.artifact ++ ":" ++ a.type ++ ":" ++ a.classifier.getD wildcard ++
    ":(ALL|HIGHEST|LATEST|<version>)"

/-- The first rule for the incoming side of a clash, or else the first one for the existing side. -/
def find? (rules : List OverrideRule) (existing incoming : Coordinate) : Option OverrideRule :=
  match rules.find? fun r => r.isFor incoming with
  | some r => some r
  | none => rules.find? fun r => r.isFor existing

end OverrideRule
end FeatureAssembly
