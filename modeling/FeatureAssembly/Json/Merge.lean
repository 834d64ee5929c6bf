import FeatureAssembly.Json.Basic

/-! Deep merge of JSON values: arrays are joined, objects are merged entry by entry, and of two
plain values the second stays. A container cannot be merged with a value of another kind. -/

namespace FeatureAssembly.Json

structure Mismatch where
  path : List String
  existing : Kind
  incoming : Kind

/-- A name within a path: `~` and `/` are written `~0` and `~1`. -/
def pointerStep (name : String) : String :=
  String.ofList <| '/' :: name.toList.flatMap fun c =>
    if c = '~' then ['~', '0'] else if c = '/' then ['~', '1'] else [c]

def pointer (path : List String) : String :=
  if path = [] then "/" else String.join (path.map pointerStep)

mutual
def mergeAt (path : List String) (target : Json) : Json → Except Mismatch Json
  | .object fields =>
    match target with
    | .object present => (mergeFields path present present fields).map .object
    | other => .error ⟨path, other.kind, .object⟩
  | .array items =>
    match target with
    | .array present => .ok (.array (present ++ items))
    | other => .error ⟨path, other.kind, .array⟩
  | source =>
    if target.isContainer then .error ⟨path, target.kind, source.kind⟩ else .ok source
termination_by structural x => x

/-- Merges entries one by one into `merged`, each with the entry `present` has under its name. -/
def mergeFields (path : List String) (present merged : List (String × Json)) :
    List (String × Json) → Except Mismatch (List (String × Json))
  | [] => .ok merged
  | (k, v) :: fields =>
    match Table.get? present k with
    | none => mergeFields path present (Table.set merged k v) fields
    | some w =>
      match mergeAt (path ++ [k]) w v with
      | .error e => .error e
      | .ok u => mergeFields path present (Table.set merged k u) fields
termination_by structural x => x
end

def merge (target source : Json) : Except Mismatch Json := mergeAt [] target source

end FeatureAssembly.Json
