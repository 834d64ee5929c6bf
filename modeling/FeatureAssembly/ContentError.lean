import FeatureAssembly.Json.Basic

/-! Defects of the pieces that features are made of. -/

namespace FeatureAssembly

inductive ContentError where
  | emptyPid
  | invalidFactory (factory name : String)
  | mixedArray (text : String)
  | unsupportedValue (description : String)
  | emptyExtensionName
  | duplicateExtension (name : String)
  | unstructuredJson (kind : Json.Kind)
  | unreadableJson

/-- The text of a defect; an unreadable JSON text is reported without details. -/
def ContentError.message : ContentError → String
  | .emptyPid => "configuration pid must not be empty"
  | .invalidFactory factory name =>
    "invalid factory configuration: factory pid '" ++ factory ++ "', name '" ++ name ++ "'"
  | .mixedArray text => "configuration array must be homogeneous: " ++ text
  | .unsupportedValue description => "unsupported configuration value: " ++ description
  | .emptyExtensionName => "extension name must not be empty"
  | .duplicateExtension name => "duplicate extension: '" ++ name ++ "'"
  | .unstructuredJson kind =>
    "JSON extension content must be an object or array, got " ++ kind.label
  | .unreadableJson => "invalid JSON extension content"

end FeatureAssembly
