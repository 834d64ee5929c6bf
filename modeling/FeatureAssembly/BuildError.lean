import FeatureAssembly.MergeError

/-! What keeps a feature from being assembled. -/

namespace FeatureAssembly

inductive Missing where
  | bundle (id : Coordinate)
  | configuration (pid : String)
  | configurationProperty (entry : String)
  | artifactsExtension (name : String)
  | extensionArtifact (id : Coordinate) (name : String)
  | requirement (namespaceName : String)
  | capability (namespaceName : String)

def Missing.text : Missing → String
  | .bundle id => "bundle " ++ id.id
  | .configuration pid => "configuration " ++ pid
  | .configurationProperty entry => "configuration property " ++ entry
  | .artifactsExtension name => "artifacts extension " ++ name
  | .extensionArtifact id name => "extension artifact " ++ id.id ++ " in " ++ name
  | .requirement n => "requirement " ++ n
  | .capability n => "capability " ++ n

inductive SettingsFormat where
  | json | yaml
deriving DecidableEq

inductive BuildError where
  | missingFeature (id : Coordinate)
  | finalPrototype (prototype feature : Coordinate)
  | cycle (path : List Coordinate)
  | missingRemoval (missing : Missing) (feature : Coordinate)
  | merge (error : MergeError)
  | invalidSettings (format : SettingsFormat)

namespace BuildError

/-- The text of an error; invalid settings are reported without details. -/
def message : BuildError → String
  | .missingFeature id => "unable to find feature " ++ id.id
  | .finalPrototype prototype feature =>
    "feature " ++ prototype.id ++ " is final and cannot be used as prototype of " ++ feature.id
  | .cycle path => "prototype cycle: " ++ String.intercalate " -> " (path.map Coordinate.id)
  | .missingRemoval missing feature =>
    "cannot remove " ++ missing.text ++ " from prototype of " ++ feature.id ++ ": not present"
  | .merge error => error.message
  | .invalidSettings _ => "invalid settings"

def isConflict : BuildError → Bool
  | .merge _ => true
  | _ => false

end BuildError
end FeatureAssembly
