import FeatureAssembly.Number.Reader

/-! Reading JSON texts. `Scan` cuts a text into tokens, one character at a time; `Nest` builds the
value from the tokens, one at a time, with the open arrays and objects on a stack. Both are plain
folds, so reading ends on every text. -/

namespace FeatureAssembly.Json

inductive Token where
  | open (isArray : Bool)
  | close (isArray : Bool)
  | comma
  | colon
  | value (v : Json)

/-- What a character belongs to: nothing begun yet, a quoted string, an escape in one, the digits of
a code unit in one (after a first half of a pair, if any), a number, or a bare word. -/
inductive Scan where
  | between
  | string (read : List Char) (half : Option Nat)
  | escape (read : List Char) (half : Option Nat)
  | unit (read : List Char) (half : Option Nat) (digits : Nat) (value : Nat)
  | number (read : List Char)
  | word (read : List Char)

namespace Scan

def punctuation? (c : Char) : Option Token :=
  if c = '[' then some (.open true)
  else if c = ']' then some (.close true)
  else if c = '\x7b' then some (.open false)
  else if c = '\x7d' then some (.close false)
  else if c = ',' then some .comma
  else if c = ':' then some .colon
  else none

def isSpace (c : Char) : Bool := c = ' ' || c = '\t' || c = '\n' || c = '\r'

def isNumberChar (c : Char) : Bool :=
  c.isDigit || c = '-' || c = '+' || c = '.' || c = 'e' || c = 'E'

def isNumberStart (c : Char) : Bool := c.isDigit || c = '-'

def word? (cs : List Char) : Option Json :=
  if cs = ['n', 'u', 'l', 'l'] then some .null
  else if cs = ['t', 'r', 'u', 'e'] then some (.bool true)
  else if cs = ['f', 'a', 'l', 's', 'e'] then some (.bool false)
  else none

def escape? (c : Char) : Option Char :=
  if c = '"' ∨ c = '\\' ∨ c = '/' then some c
  else if c = 'b' then some (Char.ofNat 8)
  else if c = 'f' then some (Char.ofNat 12)
  else if c = 'n' then some '\n'
  else if c = 'r' then some '\r'
  else if c = 't' then some '\t'
  else none

def hexValue? (c : Char) : Option Nat :=
  if c.isDigit then some (c.toNat - '0'.toNat)
  else if 'a' ≤ c ∧ c ≤ 'f' then some (c.toNat - 'a'.toNat + 10)
  else if 'A' ≤ c ∧ c ≤ 'F' then some (c.toNat - 'A'.toNat + 10)
  else none

def joinUnit (read : List Char) (half : Option Nat) (n : Nat) : Option Scan :=
  let isHigh := 0xD800 ≤ n && n < 0xDC00
  let isLow := 0xDC00 ≤ n && n < 0xE000
  match half with
  | none =>
    if isHigh then some (.string read (some n))
    else if isLow then none
    else some (.string (Char.ofNat n :: read) none)
  | some h =>
    if isLow then
      some (.string (Char.ofNat (0x10000 + (h - 0xD800) * 0x400 + (n - 0xDC00)) :: read) none)
    else none

def finish : Scan → Option (List Token)
  | .between => some []
  | .number read => (Number.ofChars? read.reverse).map fun n => [.value (.number n)]
  | .word read => (word? read.reverse).map fun v => [.value v]
  | _ => none

def start (c : Char) : Option (Scan × List Token) :=
  if isSpace c then some (.between, [])
  else if c = '"' then some (.string [] none, [])
  else if isNumberStart c then some (.number [c], [])
  else if c.isLower then some (.word [c], [])
  else (punctuation? c).map fun t => (.between, [t])

def step (s : Scan) (c : Char) : Option (Scan × List Token) :=
  match s with
  | .string read none =>
    if c = '"' then some (.between, [.value (.string (String.ofList read.reverse))])
    else if c = '\\' then some (.escape read none, [])
    else if c.toNat < 32 then none
    else some (.string (c :: read) none, [])
  | .string read (some h) => if c = '\\' then some (.escape read (some h), []) else none
  | .escape read half =>
    if c = 'u' then some (.unit read half 0 0, [])
    else if half.isSome then none
    else (escape? c).map fun e => (.string (e :: read) none, [])
  | .unit read half digits value => do
    let n := value * 16 + (← hexValue? c)
    if digits < 3 then return (.unit read half (digits + 1) n, [])
    return (← joinUnit read half n, [])
  | .number read =>
    if isNumberChar c then some (.number (c :: read), [])
    else do
      let done ← finish (.number read)
      let (s, begun) ← start c
      return (s, done ++ begun)
  | .word read =>
    if c.isLower then some (.word (c :: read), [])
    else do
      let done ← finish (.word read)
      let (s, begun) ← start c
      return (s, done ++ begun)
  | .between => start c

def tokens? (s : Scan) : List Char → Option (List Token)
  | [] => finish s
  | c :: cs => do
    let (s, now) ← step s c
    return now ++ (← tokens? s cs)

end Scan

inductive Frame where
  | array (items : List Json)
  | object (fields : List (String × Json)) (name : Option String)

/-- Where reading stands: before a value (`close` if the innermost one may end instead), after the
name of a field, or after a value. -/
inductive Place where
  | value (close : Bool)
  | name (close : Bool)
  | colon
  | after

structure Nest where
  frames : List Frame
  place : Place
  result : Option Json

namespace Nest

def depthLimit : Nat := 127

def begin : Nest := ⟨[], .value false, none⟩

def supply (frames : List Frame) (v : Json) : Option Nest :=
  match frames with
  | [] => some ⟨[], .after, some v⟩
  | .array items :: frames => some ⟨.array (v :: items) :: frames, .after, none⟩
  | .object fields (some k) :: frames =>
    some ⟨.object ((k, v) :: fields) none :: frames, .after, none⟩
  | .object _ none :: _ => none

def closeArray (n : Nest) : Option Nest :=
  match n.frames with
  | .array items :: frames => supply frames (.array items.reverse)
  | _ => none

def closeObject (n : Nest) : Option Nest :=
  match n.frames with
  | .object fields none :: frames => supply frames (.object fields.reverse)
  | _ => none

def step (n : Nest) (t : Token) : Option Nest :=
  match n.place, t with
  | .value _, .value v => supply n.frames v
  | .value _, .open isArray =>
    if n.frames.length < depthLimit then
      if isArray then some ⟨.array [] :: n.frames, .value true, none⟩
      else some ⟨.object [] none :: n.frames, .name true, none⟩
    else none
  | .value true, .close true => closeArray n
  | .name _, .value (.string k) =>
    match n.frames with
    | .object fields none :: frames => some ⟨.object fields (some k) :: frames, .colon, none⟩
    | _ => none
  | .name true, .close false => closeObject n
  | .colon, .colon => some { n with place := .value false }
  | .after, .comma =>
    match n.frames with
    | .array _ :: _ => some { n with place := .value false }
    | .object _ _ :: _ => some { n with place := .name false }
    | [] => none
  | .after, .close true => closeArray n
  | .after, .close false => closeObject n
  | _, _ => none

def run (n : Nest) : List Token → Option Nest
  | [] => some n
  | t :: ts => (step n t).bind fun n => run n ts

end Nest

def readRaw? (s : String) : Option Json := do
  let tokens ← Scan.tokens? .between s.toList
  let n ← Nest.run .begin tokens
  n.result

def read? (s : String) : Option Json := (readRaw? s).map distinct

end FeatureAssembly.Json
