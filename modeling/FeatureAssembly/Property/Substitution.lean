import FeatureAssembly.MergeError
import FeatureAssembly.Property.Basic

/-! Variables in texts. A text is cut into literal characters and placeholders, which reach from
`$` and an opening brace to the next closing one; each placeholder is replaced once, by a value that
is not searched again. -/

namespace FeatureAssembly.Substitution

inductive Piece where
  | literal (c : Char)
  | placeholder (name : String)
deriving DecidableEq

/-- Cuts a text; `name` holds the characters read since the last placeholder was opened, last first.
What opens and is never closed is literal. -/
def scan : Option (List Char) → List Char → List Piece
  | none, '$' :: '\x7b' :: cs => scan (some []) cs
  | none, c :: cs => .literal c :: scan none cs
  | none, [] => []
  | some name, '\x7d' :: cs => .placeholder (String.ofList name.reverse) :: scan none cs
  | some name, c :: cs => scan (some (c :: name)) cs
  | some name, [] => ('$' :: '\x7b' :: name.reverse).map .literal

def pieces (s : String) : List Piece := scan none s.toList

def lookup? (overrides : Table String) (vars : Table Property) (name : String) :
    Option String :=
  match Table.get? overrides name with
  | some v => some v
  | none => Properties.value? vars name

def fill (value? : String → Option String) : List Piece → Except String (List Char)
  | [] => .ok []
  | .literal c :: ps => (fill value? ps).map (c :: ·)
  | .placeholder name :: ps =>
    match value? name with
    | none => .error name
    | some v => (fill value? ps).map (v.toList ++ ·)

def substitute (overrides : Table String) (vars : Table Property) (s : String) :
    Except MergeError String :=
  match fill (lookup? overrides vars) (pieces s) with
  | .ok cs => .ok (String.ofList cs)
  | .error name => .error (.undefinedVariable name s)

end FeatureAssembly.Substitution
