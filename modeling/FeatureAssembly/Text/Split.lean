/-! Cutting texts at a separator. `pieces` never gives the empty list: a text without the separator
is its own single piece. -/

namespace FeatureAssembly.Text

def piecesOf (sep : Char) : List Char → List (List Char)
  | [] => [[]]
  | c :: cs =>
    if c = sep then [] :: piecesOf sep cs
    else match piecesOf sep cs with
      | [] => [[c]]
      | p :: ps => (c :: p) :: ps

def cutFirst? (sep : Char) : List Char → Option (List Char × List Char)
  | [] => none
  | c :: cs =>
    if c = sep then some ([], cs)
    else (cutFirst? sep cs).map fun (p, q) => (c :: p, q)

def afterLast (sep : Char) (cs : List Char) : List Char :=
  (cs.reverse.takeWhile (· ≠ sep)).reverse

def dropStart? : List Char → List Char → Option (List Char)
  | [], cs => some cs
  | _ :: _, [] => none
  | p :: ps, c :: cs => if p = c then dropStart? ps cs else none

def pieces (sep : Char) (s : String) : List String := (piecesOf sep s.toList).map String.ofList

def cut? (sep : Char) (s : String) : Option (String × String) :=
  (cutFirst? sep s.toList).map fun (p, q) => (String.ofList p, String.ofList q)

def listItems (trim : String → String) (s : String) : List String :=
  ((pieces ',' s).map trim).filter (· ≠ "")

end FeatureAssembly.Text
