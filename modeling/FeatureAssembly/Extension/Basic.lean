import FeatureAssembly.Artifact.Basic
import FeatureAssembly.ContentError
import FeatureAssembly.Json.Reader
import FeatureAssembly.Json.Writer

/-! Extensions: named additions to a feature that hold artifacts, a text or a JSON document. -/

namespace FeatureAssembly

inductive ExtensionState where
  | transient | optional | required
deriving DecidableEq

namespace ExtensionState

def label : ExtensionState → String
  | .transient => "transient"
  | .optional => "optional"
  | .required => "required"

def ofLabel? (s : String) : Option ExtensionState :=
  [transient, optional, required].find? fun t => t.label = s

def rank : ExtensionState → Nat
  | .transient => 0
  | .optional => 1
  | .required => 2

def stronger (s t : ExtensionState) : ExtensionState := if s.rank < t.rank then t else s

end ExtensionState

inductive ExtensionKind where
  | artifacts | text | json
deriving DecidableEq

namespace ExtensionKind

def label : ExtensionKind → String
  | .artifacts => "artifacts"
  | .text => "text"
  | .json => "json"

def ofLabel? (s : String) : Option ExtensionKind :=
  [artifacts, text, json].find? fun k => k.label = s

end ExtensionKind

structure JsonContent where
  value : Json
  text : String

namespace JsonContent

structure Valid (c : JsonContent) : Prop where
  container : c.value.isContainer
  text : c.text = c.value.text

def ofValue (v : Json) : Except ContentError JsonContent :=
  if v.isContainer then .ok ⟨v, v.text⟩ else .error (.unstructuredJson v.kind)

def ofText (s : String) : Except ContentError JsonContent :=
  match Json.read? s with
  | some v => ofValue v
  | none => .error .unreadableJson

def same (c d : JsonContent) : Bool := c.value.same d.value && c.text == d.text

end JsonContent

inductive ExtensionContent where
  | artifacts (list : List Artifact)
  | text (text : String)
  | json (content : JsonContent)

def ExtensionContent.kind : ExtensionContent → ExtensionKind
  | .artifacts _ => .artifacts
  | .text _ => .text
  | .json _ => .json

structure Extension where
  name : String
  state : ExtensionState
  content : ExtensionContent

instance instKeyedExtension : Keyed Extension String := ⟨Extension.name⟩

namespace Extension

def make (name : String) (state : ExtensionState) (content : ExtensionContent) :
    Except ContentError Extension :=
  if Text.trim name = "" then .error .emptyExtensionName else .ok ⟨name, state, content⟩

def ofJson (name : String) (state : ExtensionState) (v : Json) : Except ContentError Extension := do
  make name state (.json (← JsonContent.ofValue v))

def kind (e : Extension) : ExtensionKind := e.content.kind

def artifacts? (e : Extension) : Option (List Artifact) :=
  match e.content with
  | .artifacts l => some l
  | _ => none

end Extension

namespace Extensions

def add (l : List Extension) (e : Extension) : Except ContentError (List Extension) :=
  match Roster.add? l e with
  | some l => .ok l
  | none => .error (.duplicateExtension e.name)

def artifacts? (l : List Extension) (name : String) : Option (List Artifact) :=
  (Roster.find? l name).bind Extension.artifacts?

end Extensions
end FeatureAssembly
