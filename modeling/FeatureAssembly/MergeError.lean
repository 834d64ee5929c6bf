import FeatureAssembly.Configuration.Policy
import FeatureAssembly.Extension.Basic
import FeatureAssembly.Json.Merge
import FeatureAssembly.Override.Rule

/-! What keeps two features from being merged. A pattern of pids that cannot be compiled is told when
settings are applied (`InvalidPattern`), since no merge can meet it. -/

namespace FeatureAssembly

inductive PropertyKind where
  | variable | framework
deriving DecidableEq

def PropertyKind.label : PropertyKind → String
  | .variable => "variable"
  | .framework => "framework property"

inductive MergeError where
  | artifactClash (existing incoming : Coordinate)
  | configurationClash (pid : String) (existing : List Coordinate) (feature : Coordinate)
  | configurationPropertyClash (pid key existing incoming : String) (feature : Coordinate)
  | propertyClash (kind : PropertyKind) (key existing incoming : String) (feature : Coordinate)
  | extensionKindMismatch (name : String) (existing incoming : ExtensionKind)
  | jsonMismatch (extension : String) (mismatch : Json.Mismatch)
  | undefinedVariable (name value : String)
  | invalidOverrideRule (text : String)
  | invalidConfigurationPolicy (text : String)
  | handler (id message : String)
  | content (error : ContentError)
  | coordinate (error : CoordinateError)

namespace MergeError

def quote (s : String) : String := "'" ++ s ++ "'"

def message : MergeError → String
  | .artifactClash existing incoming =>
    "artifact clash between " ++ quote existing.id ++ " and " ++ quote incoming.id ++
      ": no override rule matches; add a rule of the form " ++ quote (OverrideRule.hint incoming)
  | .configurationClash pid existing feature =>
    "configuration clash for " ++ quote pid ++ ": already provided by [" ++
      String.intercalate ", " (existing.map Coordinate.id) ++ "], also provided by " ++
      quote feature.id
  | .configurationPropertyClash pid key existing incoming feature =>
    "configuration property clash for " ++ quote pid ++ " key " ++ quote key ++ ": " ++
      quote existing ++ " vs " ++ quote incoming ++ " from " ++ quote feature.id
  | .propertyClash kind key existing incoming feature =>
    kind.label ++ " clash for " ++ quote key ++ ": " ++ quote existing ++ " vs " ++
      quote incoming ++ " from " ++ quote feature.id
  | .extensionKindMismatch name existing incoming =>
    "extension " ++ quote name ++ " type mismatch: target is " ++ existing.label ++
      ", source is " ++ incoming.label
  | .jsonMismatch extension m =>
    "JSON type mismatch in extension " ++ quote extension ++ " at " ++
      quote (Json.pointer m.path) ++ ": " ++ m.existing.label ++ " vs " ++ m.incoming.label
  | .undefinedVariable name value => "undefined variable " ++ quote name ++ " in " ++ quote value
  | .invalidOverrideRule text =>
    "invalid artifact override rule " ++ quote text ++
      ": expected group:artifact[:type[:classifier]]:POLICY"
  | .invalidConfigurationPolicy text => "invalid configuration merge policy " ++ quote text
  | .handler id message => "handler " ++ quote id ++ " failed: " ++ message
  | .content error => error.message
  | .coordinate error => error.message

end MergeError

def OverrideRule.parse (s : String) : Except MergeError OverrideRule :=
  match ofText? s with
  | some r => .ok r
  | none => .error (.invalidOverrideRule s)

def OverridePolicy.parse (s : String) : Except MergeError OverridePolicy :=
  match ofText? s with
  | some p => .ok p
  | none => .error (.invalidOverrideRule (Text.trim s))

def ConfigurationPolicy.parse (s : String) : Except MergeError ConfigurationPolicy :=
  match ofKeyword? (Text.trim s) with
  | some p => .ok p
  | none => .error (.invalidConfigurationPolicy (Text.trim s))

end FeatureAssembly
