import FeatureAssembly.Coordinate.Basic
import FeatureAssembly.Json.Basic

/-! Framework properties and variables: texts with metadata and origins, in tables by key. -/

namespace FeatureAssembly

structure Property where
  value : String
  metadata : Table Json
  origins : List Coordinate

namespace Property

def ofValue (value : String) : Property := ⟨value, [], []⟩

def addOrigin (p : Property) (origin : Coordinate) : Property :=
  { p with origins := addNew p.origins origin }

def stamped (p : Property) (origin : Coordinate) : Property :=
  if p.origins = [] then { p with origins := [origin] } else p

/-- Takes over metadata and origins of another property, but not its value. -/
def absorb (p q : Property) : Property :=
  { p with
    metadata := Table.overlay p.metadata q.metadata
    origins := addAllNew p.origins q.origins }

def same (p q : Property) : Bool :=
  p.value == q.value && Table.same Json.same p.metadata q.metadata && p.origins == q.origins

end Property

namespace Properties

def value? (t : Table Property) (key : String) : Option String :=
  (Table.get? t key).map Property.value

def setValue (t : Table Property) (key value : String) : Table Property :=
  Table.set t key { (Table.get? t key).getD (.ofValue value) with value }

def setValues (t : Table Property) (entries : List (String × String)) : Table Property :=
  entries.foldl (fun t e => setValue t e.1 e.2) t

def same (t u : Table Property) : Bool := Table.same Property.same t u

end Properties
end FeatureAssembly
