import FeatureAssembly.Document.Basic

/-! Characters of a YAML text, and how the lines of a scalar are folded into one: a single line feed
becomes a space, of several the first one is dropped, and blanks around them do not count. -/

namespace FeatureAssembly.Document

def nextLine : Char := Char.ofNat 0x85

def separators : List Char := [Char.ofNat 0x2028, Char.ofNat 0x2029]

def byteOrderMark : Char := Char.ofNat 0xFEFF

def isPermitted (c : Char) : Bool :=
  let n := c.toNat
  n == 9 || n == 10 || n == 13 || (32 ≤ n && n < 127) || n == 0x85 ||
    (0xA0 ≤ n && n != 0xFFFE && n != 0xFFFF)

def isSpace (c : Char) : Bool := c = ' ' || c = '\t'

def isBreak (c : Char) : Bool := c = '\n' || c = '\r' || c = nextLine || separators.contains c

def unified (c : Char) : Char := if c = '\r' ∨ c = nextLine then '\n' else c

def wordEnds : List Char → Bool
  | [] => true
  | c :: _ => isSpace c || isBreak c

/-- What stands between two characters of a scalar, last first: blanks within a line, or the ends of
lines, the first of which is missing where it has been escaped. -/
inductive Gap where
  | blanks (run : List Char)
  | breaks (first : Option Char) (others : List Char)

namespace Gap

def isBroken : Gap → Bool
  | .blanks _ => false
  | .breaks _ _ => true

def isEmpty : Gap → Bool
  | .blanks run => run.isEmpty
  | .breaks _ _ => false

def add (g : Gap) (c : Char) : Gap :=
  match g, isBreak c with
  | .blanks _, true => .breaks (some c) []
  | .blanks run, false => .blanks (c :: run)
  | .breaks first others, true => .breaks first (c :: others)
  | .breaks first others, false => .breaks first others

def folded : Gap → List Char
  | .blanks run => run
  | .breaks none others => others
  | .breaks (some c) others =>
    if c = '\n' then (if others.isEmpty then [' '] else others) else others ++ [c]

end Gap

structure Lines where
  read : List Char
  gap : Gap

namespace Lines

def ofList (read : List Char) : Lines := ⟨read, .blanks []⟩

def joined (l : Lines) : List Char := l.gap.folded ++ l.read

def push (l : Lines) (c : Char) : Lines := .ofList (c :: l.joined)

def skip (l : Lines) (c : Char) : Lines := { l with gap := l.gap.add c }

def escapeBreak (l : Lines) : Lines := ⟨l.joined, .breaks none []⟩

end Lines
end FeatureAssembly.Document
