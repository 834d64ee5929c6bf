import FeatureAssembly.Roster

/-! JSON values with the entries of objects in order. Numbers are equal only within one kind, and
objects are equal without regard to the order of their entries (`Json.same`). -/

namespace FeatureAssembly

inductive Number where
  | integer (value : Int)
  | real (value : Float)
deriving DecidableEq

inductive Json where
  | null
  | bool (value : Bool)
  | number (value : Number)
  | string (value : String)
  | array (items : List Json)
  | object (fields : List (String × Json))

def Number.same : Number → Number → Bool
  | .integer m, .integer n => m == n
  | .real x, .real y => x == y
  | _, _ => false

namespace Json

inductive Kind where
  | null | boolean | number | string | array | object
deriving DecidableEq

def Kind.label : Kind → String
  | .null => "null"
  | .boolean => "boolean"
  | .number => "number"
  | .string => "string"
  | .array => "array"
  | .object => "object"

def kind : Json → Kind
  | .null => .null
  | .bool _ => .boolean
  | .number _ => .number
  | .string _ => .string
  | .array _ => .array
  | .object _ => .object

def isContainer : Json → Bool
  | .array _ => true
  | .object _ => true
  | _ => false

mutual
def same : Json → Json → Bool
  | .null, .null => true
  | .bool a, .bool b => a == b
  | .number a, .number b => a.same b
  | .string a, .string b => a == b
  | .array as, .array bs => sameItems as bs
  | .object fs, .object gs => fs.length == gs.length && sameFields fs gs
  | _, _ => false
termination_by structural x => x

def sameItems : List Json → List Json → Bool
  | [], [] => true
  | a :: as, b :: bs => same a b && sameItems as bs
  | _, _ => false
termination_by structural x => x

def sameFields : List (String × Json) → List (String × Json) → Bool
  | [], _ => true
  | (k, v) :: fs, gs =>
    (match Table.get? gs k with
      | some w => same v w
      | none => false) && sameFields fs gs
termination_by structural x => x
end

mutual
/-- The value whose objects have each name once: the last value under it, where it first stood. -/
def distinct : Json → Json
  | .array items => .array (distinctItems items)
  | .object fields => .object (distinctFields [] fields)
  | v => v
termination_by structural x => x

def distinctItems : List Json → List Json
  | [] => []
  | v :: items => distinct v :: distinctItems items
termination_by structural x => x

def distinctFields (seen : List (String × Json)) : List (String × Json) → List (String × Json)
  | [] => seen
  | (k, v) :: fields => distinctFields (Table.set seen k (distinct v)) fields
termination_by structural x => x
end

end Json
end FeatureAssembly
