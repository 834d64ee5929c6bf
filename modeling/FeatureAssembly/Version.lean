import FeatureAssembly.Text.Blank
import FeatureAssembly.Text.Split
import FeatureAssembly.Text.Digits

/-! Versions `major.minor.micro.qualifier`: a strict reader, a lenient one for free-form version
strings, and the comparison of version strings built on the lenient one. -/

namespace FeatureAssembly

structure Version where
  major : Nat
  minor : Nat
  micro : Nat
  qualifier : String
deriving DecidableEq

inductive VersionError where
  | empty
  | invalidNumber (segment input : String)
  | invalidQualifier (qualifier : String)
deriving DecidableEq

def VersionError.message : VersionError → String
  | .empty => "version string is empty"
  | .invalidNumber segment input =>
    "invalid numeric segment '" ++ segment ++ "' in version '" ++ input ++ "'"
  | .invalidQualifier qualifier => "invalid version qualifier: " ++ qualifier

namespace Version
open Text

def bound : Nat := 0x10000000000000000

def text (v : Version) : String :=
  let numbers := v.major.repr ++ "." ++ v.minor.repr ++ "." ++ v.micro.repr
  if v.qualifier = "" then numbers else numbers ++ "." ++ v.qualifier

def compare (a b : Version) : Ordering :=
  (Ord.compare a.major b.major).then <| (Ord.compare a.minor b.minor).then <|
    (Ord.compare a.micro b.micro).then (Ord.compare a.qualifier b.qualifier)

def isQualifierChar (c : Char) : Bool := c.isAlphanum || c == '_' || c == '-'

def readNumber (input : String) (segment : List Char) : Except VersionError Nat :=
  match readNat? bound segment with
  | some n => .ok n
  | none => .error (.invalidNumber (String.ofList segment) input)

/-- The first three dotted segments of a text; what follows the third dot stays in one piece. -/
def segments (cs : List Char) : List (List Char) :=
  match cutFirst? '.' cs with
  | none => [cs]
  | some (a, r) =>
    match cutFirst? '.' r with
    | none => [a, r]
    | some (b, r) =>
      match cutFirst? '.' r with
      | none => [a, b, r]
      | some (c, q) => [a, b, c, q]

/-- Reads `major[.minor[.micro[.qualifier]]]`; a qualifier has letters, digits, `_` and `-` only. -/
def parse (s : String) : Except VersionError Version := do
  let s := trim s
  if s = "" then .error .empty
  match segments s.toList with
  | [a] => return ⟨← readNumber s a, 0, 0, ""⟩
  | [a, b] => return ⟨← readNumber s a, ← readNumber s b, 0, ""⟩
  | [a, b, c] => return ⟨← readNumber s a, ← readNumber s b, ← readNumber s c, ""⟩
  | a :: b :: c :: q :: _ =>
    let v : Version := ⟨← readNumber s a, ← readNumber s b, ← readNumber s c, String.ofList q⟩
    if q.all isQualifierChar then return v else .error (.invalidQualifier v.qualifier)
  | [] => .error .empty

def leading? (segments : List (List Char)) : Option (Nat × Nat × Nat × Option String) :=
  match segments with
  | [] => none
  | [a] => return (← readNat? bound a, 0, 0, none)
  | [a, b] => return (← readNat? bound a, ← readNat? bound b, 0, none)
  | a :: b :: c :: rest =>
    return (← readNat? bound a, ← readNat? bound b, ← readNat? bound c,
      some (String.intercalate "." (rest.map String.ofList)))

/-- Reads a free-form version: up to three numbers before the first dash, then a qualifier made of
the remaining dotted segments and the text after the dash. -/
def ofText? (s : String) : Option Version :=
  let (numeric, dashed) := match cutFirst? '-' s.toList with
    | none => (s.toList, none)
    | some (p, q) => (p, some (String.ofList q))
  match leading? (piecesOf '.' numeric) with
  | none => none
  | some (major, minor, micro, dotted) =>
    some ⟨major, minor, micro, match dotted, dashed with
      | some r, some q => r ++ "-" ++ q
      | some r, none => r
      | none, some q => q
      | none, none => ""⟩

def compareTexts (a b : String) : Ordering :=
  match ofText? a, ofText? b with
  | some v, some w => v.compare w
  | _, _ => Ord.compare a b

end Version
end FeatureAssembly
