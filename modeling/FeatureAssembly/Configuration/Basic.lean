import FeatureAssembly.ContentError
import FeatureAssembly.Coordinate.Forms
import FeatureAssembly.Json.Writer

/-! Configurations: a pid with typed properties. A configuration is named by its pid; lists of
configurations are rosters. -/

namespace FeatureAssembly

inductive ConfigValue where
  | string (value : String)
  | boolean (value : Bool)
  | long (value : Int)
  | double (value : Float)
  | strings (values : List String)
  | booleans (values : List Bool)
  | longs (values : List Int)
  | doubles (values : List Float)
deriving DecidableEq

def ConfigValue.longBound : Int := 0x8000000000000000

namespace Number

def toLong? : Number → Option Int
  | .integer n => if n < ConfigValue.longBound then some n else none
  | .real _ => none

def toFloat : Number → Float
  | .integer n =>
    let x := Float.ofScientific n.natAbs false 0
    if n < 0 then -x else x
  | .real x => x

end Number

namespace Json

def string? : Json → Option String
  | .string s => some s
  | _ => none

def bool? : Json → Option Bool
  | .bool b => some b
  | _ => none

def long? : Json → Option Int
  | .number n => n.toLong?
  | _ => none

def float? : Json → Option Float
  | .number n => some n.toFloat
  | _ => none

def ofFloat (x : Float) : Json := if x.isFinite then .number (.real x) else .null

end Json

namespace ConfigValue

/-- The kind of an array is that of its first item; an array of numbers has integers only or
doubles only. -/
def ofItems (items : List Json) : Except ContentError ConfigValue :=
  let orMixed (o : Option ConfigValue) : Except ContentError ConfigValue :=
    match o with
    | some v => .ok v
    | none => .error (.mixedArray (Json.array items).text)
  match items with
  | [] => .ok (.strings [])
  | .string _ :: _ => orMixed ((items.mapM Json.string?).map .strings)
  | .bool _ :: _ => orMixed ((items.mapM Json.bool?).map .booleans)
  | .number _ :: _ =>
    match items.mapM Json.long? with
    | some ns => .ok (.longs ns)
    | none => orMixed ((items.mapM Json.float?).map .doubles)
  | other :: _ => .error (.unsupportedValue ("array of " ++ other.kind.label))

def ofJson : Json → Except ContentError ConfigValue
  | .string s => .ok (.string s)
  | .bool b => .ok (.boolean b)
  | .number n =>
    match n.toLong? with
    | some i => .ok (.long i)
    | none => .ok (.double n.toFloat)
  | .array items => ofItems items
  | other => .error (.unsupportedValue other.kind.label)

def toJson : ConfigValue → Json
  | .string s => .string s
  | .boolean b => .bool b
  | .long n => .number (.integer n)
  | .double x => .ofFloat x
  | .strings vs => .array (vs.map .string)
  | .booleans vs => .array (vs.map .bool)
  | .longs vs => .array (vs.map fun n => .number (.integer n))
  | .doubles vs => .array (vs.map .ofFloat)

def text : ConfigValue → String
  | .string s => s
  | v => v.toJson.text

def isArray : ConfigValue → Bool
  | .strings _ | .booleans _ | .longs _ | .doubles _ => true
  | _ => false

def same : ConfigValue → ConfigValue → Bool
  | .double x, .double y => x == y
  | .doubles xs, .doubles ys => xs == ys
  | .double _, _ | _, .double _ | .doubles _, _ | _, .doubles _ => false
  | v, w => v = w

end ConfigValue

/-- The artifact origin is the bundle that brought the configuration along. -/
structure Configuration where
  pid : String
  properties : Table ConfigValue
  origins : List Coordinate
  artifactOrigin : Option Coordinate
deriving DecidableEq

instance instKeyedConfiguration : Keyed Configuration String := ⟨Configuration.pid⟩

namespace Configuration
open Text

def factoryMark : Char := '~'

def ofPid (pid : String) : Except ContentError Configuration :=
  if trim pid = "" then .error .emptyPid else .ok ⟨pid, [], [], none⟩

def ofFactory (factory name : String) : Except ContentError Configuration :=
  if factory = "" ∨ name = "" ∨ factoryMark ∈ factory.toList then
    .error (.invalidFactory factory name)
  else ofPid (factory ++ String.singleton factoryMark ++ name)

def factoryParts? (c : Configuration) : Option (String × String) := cut? factoryMark c.pid

def isFactory (c : Configuration) : Bool := c.factoryParts?.isSome

def isInstanceOf (c : Configuration) (factory : String) : Bool :=
  c.factoryParts?.map Prod.fst == some factory

def addOrigin (c : Configuration) (origin : Coordinate) : Configuration :=
  { c with origins := addNew c.origins origin }

def addOrigins (c : Configuration) (origins : List Coordinate) : Configuration :=
  { c with origins := addAllNew c.origins origins }

def setOrigins (c : Configuration) (origins : List Coordinate) : Configuration :=
  { c with origins := addAllNew [] origins }

def stamped (c : Configuration) (origin : Coordinate) : Configuration :=
  if c.origins = [] then { c with origins := [origin] } else c

end Configuration
end FeatureAssembly
