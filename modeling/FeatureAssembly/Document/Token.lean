import FeatureAssembly.Document.Folding

/-! The tokens of a YAML text: comments, block and flow collections, plain and quoted scalars.
Anchors, tags, directives and scalars in block form are refused. A text is cut one character at a
time. Columns decide where collections in block form begin and end; the tokens tell it, so that they
need no columns. -/

namespace FeatureAssembly.Document

inductive Token where
  | blockStart (isList : Bool)
  | blockEnd
  | dash
  | key
  | value
  | flowStart (isList : Bool)
  | flowEnd (isList : Bool)
  | comma
  | scalar (value : Document)
  | documentStart
  | documentEnd

structure Place where
  line : Nat
  column : Nat
  bytes : Nat

namespace Place

def next (p : Place) (c : Char) : Place :=
  if isBreak c then ⟨p.line + 1, 0, 0⟩ else ⟨p.line, p.column + 1, p.bytes + c.utf8Size⟩

end Place

/-- Where a scalar begins, and whether it may or must be the name of an entry. -/
structure Start where
  place : Place
  mayName : Bool
  mustName : Bool

namespace Start

/-- How many bytes there may be from the beginning of a name to its colon. -/
def nameLimit : Nat := 1024

def isName (s : Start) (colon : Place) : Bool :=
  s.mayName && s.place.line == colon.line && colon.bytes ≤ s.place.bytes + nameLimit

end Start

inductive Quote where
  | single
  | double
deriving DecidableEq

/-- What the last characters belong to: nothing yet, a comment, a mark between documents, an
unquoted scalar, a quoted one, a quote in it that is written twice, an escape in it, or the digits
of a character in it. -/
inductive Part where
  | between
  | comment
  | marker (left : Nat)
  | plain (start : Start) (lines : Lines)
  | quoted (quote : Quote) (start : Start) (lines : Lines)
  | twice (start : Start) (lines : Lines)
  | escape (start : Start) (lines : Lines)
  | digits (start : Start) (lines : Lines) (left value : Nat)

/-- Where cutting stands: the place, in how many flow collections, the open block collections with
their columns (innermost first), whether an entry may begin, and a scalar that becomes a name if a
colon follows. Tokens are kept last first. -/
structure Cursor where
  place : Place
  depth : Nat
  blocks : List (Nat × Bool)
  fresh : Bool
  held : Option (Start × Document)
  part : Part
  tokens : List Token

namespace Cursor

def begin : Cursor := ⟨⟨0, 0, 0⟩, 0, [], true, none, .between, []⟩

def isFlowMark (c : Char) : Bool := [',', '[', ']', '\x7b', '\x7d'].contains c

def isIndicator (c : Char) : Bool := ['&', '*', '!', '|', '>', '%', '@', '\x60'].contains c

def isMarker : List Char → Bool
  | '-' :: '-' :: '-' :: rest => wordEnds rest
  | '.' :: '.' :: '.' :: rest => wordEnds rest
  | _ => false

def simpleEscapes : List (Char × Nat) :=
  [('0', 0), ('a', 7), ('b', 8), ('t', 9), ('\t', 9), ('n', 10), ('v', 11), ('f', 12), ('r', 13),
    ('e', 27), (' ', 32), ('"', 34), ('/', 47), ('\\', 92), ('N', 0x85), ('_', 0xA0), ('L', 0x2028),
    ('P', 0x2029)]

def digitCount? (c : Char) : Option Nat :=
  if c = 'x' then some 2 else if c = 'u' then some 4 else if c = 'U' then some 8 else none

def char? (n : Nat) : Option Char :=
  if h : n.isValidChar then some (Char.ofNatAux n h) else none

def emit (s : Cursor) (t : Token) : Cursor := { s with tokens := t :: s.tokens }

/-- Whether the place is no further right than the innermost block collection, so that at most its
next entry may stand there. -/
def isOutside (s : Cursor) : Bool :=
  match s.blocks with
  | [] => false
  | (column, _) :: _ => s.place.column ≤ column

/-- The beginning of a scalar; in the column of a block collection it has to be a name. -/
def start (s : Cursor) : Start := ⟨s.place, s.fresh, s.fresh && s.depth == 0 && s.isOutside⟩

def release (s : Cursor) : Option Cursor :=
  match s.held with
  | none => some s
  | some (start, v) =>
    if start.mustName then none else some ({ s with held := none }.emit (.scalar v))

/-- Ends block collections, innermost first, before a token in a column: those of a larger column,
and a list in this one unless its next dash has come. -/
def unwind (column : Nat) (isDash : Bool) :
    List (Nat × Bool) → List Token → List (Nat × Bool) × List Token
  | [], tokens => ([], tokens)
  | (c, isList) :: blocks, tokens =>
    if column < c || (column == c && isList && !isDash) then
      unwind column isDash blocks (.blockEnd :: tokens)
    else ((c, isList) :: blocks, tokens)

def endBlocks (s : Cursor) (isDash : Bool) : Cursor :=
  if s.depth = 0 then
    let (blocks, tokens) := unwind s.place.column isDash s.blocks s.tokens
    { s with blocks, tokens }
  else s

def endAllBlocks (s : Cursor) : Cursor :=
  { s with blocks := [], tokens := s.blocks.map (fun _ => .blockEnd) ++ s.tokens }

/-- Begins a block collection in a column unless it has begun there. A list may begin in the column
of the entry that it is the value of. -/
def beginBlock (s : Cursor) (column : Nat) (isList : Bool) : Cursor :=
  let begun := { s with blocks := (column, isList) :: s.blocks }.emit (.blockStart isList)
  if s.depth ≠ 0 then s
  else match s.blocks with
    | [] => begun
    | (c, wasList) :: _ => if c < column || (c == column && isList && !wasList) then begun else s

def endName (s : Cursor) (start : Start) (name : Document) : Cursor :=
  let s := s.beginBlock start.place.column false
  { s with held := none, fresh := false, tokens := .value :: .scalar name :: .key :: s.tokens }

def mark (s : Cursor) (t : Token) : Option Cursor :=
  if s.depth = 0 ∧ !s.fresh then none
  else
    let s := s.beginBlock s.place.column (t matches .dash)
    some ({ s with fresh := s.depth == 0 }.emit t)

def atBegin (s : Cursor) (c : Char) (rest : List Char) : Option Cursor :=
  let isMark := s.depth ≠ 0 ∨ wordEnds rest
  if c = '[' ∨ c = '\x7b' then
    if s.start.mustName then none
    else some ({ s with depth := s.depth + 1, fresh := true }.emit (.flowStart (c = '[')))
  else if c = ']' ∨ c = '\x7d' then
    if s.depth = 0 then none
    else some ({ s with depth := s.depth - 1, fresh := false }.emit (.flowEnd (c = ']')))
  else if c = ',' then
    if s.depth = 0 then none else some ({ s with fresh := true }.emit .comma)
  else if c = '-' ∧ wordEnds rest then if s.depth = 0 then s.mark .dash else none
  else if c = '?' ∧ isMark then s.mark .key
  else if c = ':' ∧ isMark then s.mark .value
  else if c = '"' then some { s with fresh := false, part := .quoted .double s.start (.ofList []) }
  else if c = '\'' then some { s with fresh := false, part := .quoted .single s.start (.ofList []) }
  else if isIndicator c then none
  else some { s with fresh := false, part := .plain s.start (.ofList [c]) }

def atToken (s : Cursor) (c : Char) (rest : List Char) : Option Cursor :=
  match s.held.filter fun h => c = ':' && (s.depth != 0 || wordEnds rest) && h.1.isName s.place with
  | some (start, name) => some (s.endName start name)
  | none => do
    let s ← s.release
    if s.place.column = 0 ∧ isMarker (c :: rest) then
      if s.depth ≠ 0 then none
      let t := if c = '-' then .documentStart else .documentEnd
      return { s.endAllBlocks with fresh := false, part := .marker 2 }.emit t
    (s.endBlocks (c = '-' && wordEnds rest)).atBegin c rest

/-- A character where nothing is begun. Where entries may begin, blanks are spaces: they tell the
column. -/
def atBetween (s : Cursor) (c : Char) (rest : List Char) : Option Cursor :=
  if isBreak c then some { s with fresh := s.fresh || s.depth == 0, part := .between }
  else if c = ' ' ∨ (c = byteOrderMark ∧ s.place.column = 0) then some s
  else if c = '\t' then if s.fresh ∧ s.depth = 0 then none else some s
  else if c = '#' then some { s with part := .comment }
  else s.atToken c rest

def endPlain (s : Cursor) (start : Start) (lines : Lines) : Cursor :=
  let value := .plain (String.ofList lines.read.reverse)
  { s with
    held := some (start, value)
    fresh := s.fresh || lines.gap.isBroken
    part := .between }

def endsPlain (s : Cursor) (c : Char) (rest : List Char) (gap : Gap) : Bool :=
  (gap.isBroken && s.depth == 0 && s.isOutside) || (c = '#' && !gap.isEmpty) ||
    (s.place.column == 0 && isMarker (c :: rest))

def atPlain (s : Cursor) (c : Char) (rest : List Char) (start : Start) (lines : Lines) :
    Option Cursor :=
  if isSpace c ∨ isBreak c then
    if c = '\t' ∧ lines.gap.isBroken ∧ s.isOutside then none
    else some { s with part := .plain start (lines.skip c) }
  else if s.endsPlain c rest lines.gap then (s.endPlain start lines).atBetween c rest
  else if s.depth ≠ 0 ∧ c = ':' ∧ rest.head?.any (fun d => isFlowMark d || d = '?') then none
  else if (c = ':' ∧ wordEnds rest) ∨ (s.depth ≠ 0 ∧ isFlowMark c) then
    (s.endPlain start lines).atBetween c rest
  else some { s with part := .plain start (lines.push c) }

def atQuoted (s : Cursor) (c : Char) (rest : List Char) (quote : Quote) (start : Start)
    (lines : Lines) : Option Cursor :=
  if isSpace c ∨ isBreak c then some { s with part := .quoted quote start (lines.skip c) }
  else if s.place.column = 0 ∧ isMarker (c :: rest) then none
  else if quote = .single ∧ c = '\'' ∧ rest.head? = some '\'' then
    some { s with part := .twice start lines }
  else if c = (match quote with | .single => '\'' | .double => '"') then
    let value := .text (String.ofList lines.joined.reverse)
    some { s with held := some (start, value), part := .between }
  else if quote = .double ∧ c = '\\' then some { s with part := .escape start lines }
  else some { s with part := .quoted quote start (lines.push c) }

def atEscape (s : Cursor) (c : Char) (start : Start) (lines : Lines) : Option Cursor :=
  if isBreak c then some { s with part := .quoted .double start lines.escapeBreak }
  else match digitCount? c with
    | some n => some { s with part := .digits start lines n 0 }
    | none => do
      let n ← simpleEscapes.lookup c
      return { s with part := .quoted .double start (lines.push (Char.ofNat n)) }

def atDigits (s : Cursor) (c : Char) (start : Start) (lines : Lines) (left value : Nat) :
    Option Cursor := do
  let n := value * 16 + (← Json.Scan.hexValue? c)
  if 1 < left then return { s with part := .digits start lines (left - 1) n }
  return { s with part := .quoted .double start (lines.push (← char? n)) }

def read (s : Cursor) (c : Char) (rest : List Char) : Option Cursor :=
  match s.part with
  | .between => s.atBetween c rest
  | .comment => if isBreak c then s.atBetween c rest else some s
  | .marker left => some { s with part := if left = 1 then .between else .marker (left - 1) }
  | .plain start lines => s.atPlain c rest start lines
  | .quoted quote start lines => s.atQuoted c rest quote start lines
  | .twice start lines => some { s with part := .quoted .single start (lines.push c) }
  | .escape start lines => s.atEscape c start lines
  | .digits start lines left value => s.atDigits c start lines left value

def run (s : Cursor) : List Char → Option Cursor
  | [] => some s
  | c :: rest =>
    if c = '\r' ∧ rest.head? = some '\n' then run s rest
    else match s.read (unified c) rest with
      | none => none
      | some t => run { t with place := t.place.next c } rest

def finish (s : Cursor) : Option (List Token) := do
  let s ← match s.part with
    | .plain start lines => some (s.endPlain start lines)
    | .between | .comment => some s
    | _ => none
  let s ← s.release
  if s.depth ≠ 0 then none
  return s.endAllBlocks.tokens.reverse

def tokens? (cs : List Char) : Option (List Token) :=
  if cs.all isPermitted then (begin.run cs).bind finish else none

end Cursor
end FeatureAssembly.Document
