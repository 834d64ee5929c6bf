import FeatureAssembly.Document.Token

/-! Building a document from the tokens of a YAML text, with the open collections on a stack. Only
texts are names of entries. -/

namespace FeatureAssembly.Document

/-- How far the last entry of an object has come: it is complete, its name is to come, the name has
come and a colon may follow, the value is to come, or a comma is to come. -/
inductive Slot where
  | ready
  | name
  | named (name : String)
  | value (name : String)
  | full
deriving DecidableEq

inductive Level where
  | list (isFlow : Bool) (items : List Document) (ready : Bool)
  | fields (isFlow : Bool) (entries : List (String × Document)) (slot : Slot)

def absent : Document := .plain ""

def Slot.unfinished : Slot → List (String × Document)
  | .name => [("", absent)]
  | .named k | .value k => [(k, absent)]
  | .ready | .full => []

namespace Level

def start (isFlow isList : Bool) : Level :=
  if isList then .list isFlow [] isFlow else .fields isFlow [] .ready

def isFlow : Level → Bool
  | .list isFlow _ _ | .fields isFlow _ _ => isFlow

def isList : Level → Bool
  | .list _ _ _ => true
  | .fields _ _ _ => false

def document : Level → Document
  | .list isFlow items ready => .list (if ready && !isFlow then absent :: items else items).reverse
  | .fields _ entries slot => .fields (slot.unfinished ++ entries).reverse

end Level

structure Layout where
  levels : List Level
  result : Option Document
  marked : Bool

namespace Layout

def supply (s : Layout) (v : Document) : Option Layout :=
  match s.levels with
  | [] => if s.result.isSome then none else some { s with result := some v }
  | .list isFlow items true :: ls => some { s with levels := .list isFlow (v :: items) false :: ls }
  | .fields isFlow entries .name :: ls =>
    v.text?.map fun k => { s with levels := .fields isFlow entries (.named k) :: ls }
  | .fields isFlow entries (.value k) :: ls =>
    let slot := if isFlow then .full else .ready
    some { s with levels := .fields isFlow ((k, v) :: entries) slot :: ls }
  | .fields true entries .ready :: ls =>
    v.text?.map fun k => { s with levels := .fields true ((k, absent) :: entries) .full :: ls }
  | _ => none

def close (s : Layout) (isKind : Level → Bool) : Option Layout :=
  match s.levels with
  | l :: ls => if isKind l then { s with levels := ls }.supply l.document else none
  | [] => none

def dash (s : Layout) : Option Layout :=
  match s.levels with
  | .list false items ready :: ls =>
    some { s with levels := .list false (if ready then absent :: items else items) true :: ls }
  | _ => none

def key (s : Layout) : Option Layout :=
  match s.levels with
  | .fields false entries slot :: ls =>
    some { s with levels := .fields false (slot.unfinished ++ entries) .name :: ls }
  | .fields true entries .ready :: ls => some { s with levels := .fields true entries .name :: ls }
  | _ => none

def value (s : Layout) : Option Layout :=
  match s.levels with
  | .fields isFlow entries .name :: ls =>
    some { s with levels := .fields isFlow entries (.value "") :: ls }
  | .fields isFlow entries (.named k) :: ls =>
    some { s with levels := .fields isFlow entries (.value k) :: ls }
  | _ => none

def comma (s : Layout) : Option Layout :=
  match s.levels with
  | .list true items false :: ls => some { s with levels := .list true items true :: ls }
  | .fields true entries slot :: ls =>
    if slot = .ready then none
    else some { s with levels := .fields true (slot.unfinished ++ entries) .ready :: ls }
  | _ => none

def step (s : Layout) : Token → Option Layout
  | .blockStart isList => some { s with levels := .start false isList :: s.levels }
  | .blockEnd => s.close fun l => !l.isFlow
  | .dash => s.dash
  | .key => s.key
  | .value => s.value
  | .flowStart isList => some { s with levels := .start true isList :: s.levels }
  | .flowEnd isList => s.close fun l => l.isFlow && l.isList == isList
  | .comma => s.comma
  | .scalar v => s.supply v
  | .documentStart =>
    if s.levels.isEmpty && s.result.isNone && !s.marked then some { s with marked := true }
    else none
  | .documentEnd =>
    if s.levels.isEmpty && (s.result.isSome || s.marked) then
      some { s with result := some (s.result.getD absent) }
    else none

def run (s : Layout) : List Token → Option Layout
  | [] => some s
  | t :: ts => (step s t).bind fun s => run s ts

/-- A text without any content stands for an absent value. -/
def finish (s : Layout) : Option Document :=
  if s.levels.isEmpty then some (s.result.getD absent) else none

end Layout

def ofYaml? (s : String) : Option Document := do
  let tokens ← Cursor.tokens? s.toList
  (← Layout.run ⟨[], none, false⟩ tokens).finish

end FeatureAssembly.Document
