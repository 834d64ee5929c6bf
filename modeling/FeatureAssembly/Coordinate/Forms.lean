import FeatureAssembly.Coordinate.Basic

/-! The written forms of a coordinate: the id `group:artifact[:type[:classifier]]:version`, the url
`mvn:group/artifact/version[/type[/classifier]]`, the file name and the repository path. -/

namespace FeatureAssembly.Coordinate
open Text

def scheme : String := "mvn:"

def id (a : Coordinate) : String :=
  match a.classifier with
  | none =>
    if a.type = defaultType then a.group ++ ":" ++ a.artifact ++ ":" ++ a.version
    else a.group ++ ":" ++ a.artifact ++ ":" ++ a.type ++ ":" ++ a.version
  | some c => a.group ++ ":" ++ a.artifact ++ ":" ++ a.type ++ ":" ++ c ++ ":" ++ a.version

def url (a : Coordinate) : String :=
  let base := scheme ++ a.group ++ "/" ++ a.artifact ++ "/" ++ a.version
  match a.classifier with
  | none => if a.type = defaultType then base else base ++ "/" ++ a.type
  | some c => base ++ "/" ++ a.type ++ "/" ++ c

def fileName (a : Coordinate) : String :=
  match a.classifier with
  | none => a.artifact ++ "-" ++ a.version ++ "." ++ a.type
  | some c => a.artifact ++ "-" ++ a.version ++ "-" ++ c ++ "." ++ a.type

def groupPath (group : String) : String :=
  String.ofList (group.toList.map fun c => if c = '.' then '/' else c)

def path (a : Coordinate) : String :=
  groupPath a.group ++ "/" ++ a.artifact ++ "/" ++ a.version ++ "/" ++ a.fileName

def orElseReport (e : CoordinateError) (r : Except CoordinateError Coordinate) :
    Except CoordinateError Coordinate :=
  match r with
  | .ok a => .ok a
  | .error _ => .error e

def ofId (s : String) : Except CoordinateError Coordinate :=
  orElseReport (.invalidId s) <|
    match pieces ':' (trim s) with
    | [g, a, v] => make g a v none none
    | [g, a, t, v] => make g a v none (some t)
    | [g, a, t, c, v] => make g a v (some c) (some t)
    | _ => .error (.invalidId s)

/-- The part of a url that names the artifact: without the scheme, and without a repository, which
ends with the last `!`. -/
def urlBody (s : String) : List Char :=
  let cs := (trim s).toList
  afterLast '!' ((dropStart? scheme.toList cs).getD cs)

def ofUrl (s : String) : Except CoordinateError Coordinate :=
  orElseReport (.invalidUrl s) <|
    match (piecesOf '/' (urlBody s)).map String.ofList with
    | [g, a, v] => make g a v none none
    | [g, a, v, t] => make g a v none (some t)
    | [g, a, v, t, c] => make g a v (some c) (some t)
    | _ => .error (.invalidUrl s)

def fileTail? (rest : List Char) : Option (Option String × String) :=
  match rest with
  | '.' :: type => some (none, String.ofList type)
  | '-' :: tail =>
    (cutFirst? '.' tail).map fun (c, t) => (some (String.ofList c), String.ofList t)
  | _ => none

def ofPath (s : String) : Except CoordinateError Coordinate :=
  match (piecesOf '/' ((trim s).toList.dropWhile (· = '/'))).reverse with
  | file :: version :: artifact :: dir :: dirs =>
    match (dropStart? (artifact ++ '-' :: version) file).bind fileTail? with
    | none => .error (.invalidPath s)
    | some (classifier, type) =>
      let group := String.intercalate "." ((dir :: dirs).reverse.map String.ofList)
      orElseReport (.invalidPath s) <|
        make group (String.ofList artifact) (String.ofList version) classifier (some type)
  | _ => .error (.invalidPath s)

/-- Reads an id or a url: a text with the scheme is a url, one with a colon an id, and any other
with a slash a url. -/
def parse (s : String) : Except CoordinateError Coordinate :=
  let t := trim s
  if scheme.toList.isPrefixOf t.toList then ofUrl t
  else if ':' ∈ t.toList then ofId t
  else if '/' ∈ t.toList then ofUrl t
  else .error (.unrecognized t)

end FeatureAssembly.Coordinate
