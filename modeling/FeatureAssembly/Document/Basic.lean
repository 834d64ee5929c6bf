import FeatureAssembly.Json.Reader

/-! Documents that settings are read from. A scalar without quotes is a text or a switch as wanted;
entries keep repeated names. -/

namespace FeatureAssembly

inductive Document where
  | text (text : String)
  | plain (text : String)
  | switch (value : Bool)
  | null
  | number
  | list (items : List Document)
  | fields (entries : List (String × Document))

namespace Document

mutual
def ofJson : Json → Document
  | .null => .null
  | .bool b => .switch b
  | .number _ => .number
  | .string s => .text s
  | .array vs => .list (ofItems vs)
  | .object es => .fields (ofFields es)
termination_by structural x => x

def ofItems : List Json → List Document
  | [] => []
  | v :: vs => ofJson v :: ofItems vs
termination_by structural x => x

def ofFields : List (String × Json) → List (String × Document)
  | [] => []
  | (k, v) :: es => (k, ofJson v) :: ofFields es
termination_by structural x => x
end

def text? : Document → Option String
  | .text s => some s
  | .plain s => some s
  | _ => none

/-- A keyword is a text, or the only name in an object under which nothing stands. -/
def keyword? : Document → Option String
  | .fields [(name, .null)] => some name
  | d => d.text?

def switch? : Document → Option (Option Bool)
  | .switch b => some (some b)
  | .null => some none
  | .plain s =>
    if s ∈ ["true", "True", "TRUE"] then some (some true)
    else if s ∈ ["false", "False", "FALSE"] then some (some false)
    else if s ∈ ["", "~", "null", "Null", "NULL"] then some none
    else none
  | _ => none

def items? : Document → Option (List Document)
  | .list items => some items
  | .plain "" => some []
  | _ => none

def entries? : Document → Option (List (String × Document))
  | .fields entries => some entries
  | .plain "" => some []
  | _ => none

end Document
end FeatureAssembly
