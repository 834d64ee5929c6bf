import FeatureAssembly.Document.Yaml
import FeatureAssembly.Settings.Basic

/-! Written settings: an object with up to six fields, in JSON or YAML. In JSON a list of the values
of the fields in their order does as well. -/

namespace FeatureAssembly.Settings

inductive Field where
  | rules | policies | variableOverrides | frameworkOverrides | handlers | substitutes
deriving DecidableEq

namespace Field

def all : List Field :=
  [rules, policies, variableOverrides, frameworkOverrides, handlers, substitutes]

def name : Field → String
  | .rules => "artifact_overrides"
  | .policies => "config_overrides"
  | .variableOverrides => "variable_overrides"
  | .frameworkOverrides => "framework_property_overrides"
  | .handlers => "handler_configuration"
  | .substitutes => "substitute_variables"

def ofName? (s : String) : Option Field := all.find? fun f => f.name = s

end Field

def readTable {α : Type} (read : Document → Option α) (d : Document) : Option (Table α) := do
  let entries ← (← d.entries?).mapM fun e => (read e.2).map fun v => (e.1, v)
  return Roster.putAll [] entries

def readRules (d : Document) : Option (List OverrideRule) := do
  (← d.items?).mapM fun e => e.text?.bind OverrideRule.ofText?

def readPolicy (d : Document) : Option ConfigurationPolicy :=
  d.keyword?.bind ConfigurationPolicy.ofKeyword?

def readField (s : Settings) (d : Document) : Field → Option Settings
  | .rules => (readRules d).map fun rules => { s with rules }
  | .policies => (readTable readPolicy d).map fun policies => { s with policies }
  | .variableOverrides =>
    (readTable Document.text? d).map fun variableOverrides => { s with variableOverrides }
  | .frameworkOverrides =>
    (readTable Document.text? d).map fun frameworkOverrides => { s with frameworkOverrides }
  | .handlers =>
    (readTable (readTable Document.text?) d).map fun handlerConfiguration =>
      { s with handlerConfiguration }
  | .substitutes => d.switch?.map fun substitutes => { s with substitutes }

/-- Reads named fields; `seen` may not come again. -/
def readFields (seen : List Field) (s : Settings) : List (String × Document) → Option Settings
  | [] => some s
  | (name, d) :: rest => do
    let field ← Field.ofName? name
    if field ∈ seen then none
    readFields (field :: seen) (← readField s d field) rest

def readPositions (s : Settings) : List Field → List Document → Option Settings
  | _, [] => some s
  | [], _ :: _ => none
  | field :: fields, d :: rest => do readPositions (← readField s d field) fields rest

def ofDocument? (d : Document) : Option Settings := d.entries?.bind (readFields [] .default)

def ofJson? (s : String) : Option Settings :=
  match (Json.readRaw? s).map Document.ofJson with
  | some (.list items) => readPositions .default Field.all items
  | some d => ofDocument? d
  | none => none

def ofYaml? (s : String) : Option Settings := (Document.ofYaml? s).bind ofDocument?

def read (format : SettingsFormat) (s : String) : Except BuildError Settings :=
  match (match format with
    | .json => ofJson? s
    | .yaml => ofYaml? s) with
  | some t => .ok t
  | none => .error (.invalidSettings format)

def textTable (t : Table String) : Json := .object (t.map fun e => (e.1, .string e.2))

def toJson (s : Settings) : Json :=
  .object <|
    [(Field.rules.name, .array (s.rules.map fun r => .string r.text)),
      (Field.policies.name, textTable (s.policies.map fun e => (e.1, e.2.keyword))),
      (Field.variableOverrides.name, textTable s.variableOverrides),
      (Field.frameworkOverrides.name, textTable s.frameworkOverrides),
      (Field.handlers.name, .object (s.handlerConfiguration.map fun e => (e.1, textTable e.2)))] ++
    match s.substitutes with
    | some b => [(Field.substitutes.name, .bool b)]
    | none => []

end FeatureAssembly.Settings
