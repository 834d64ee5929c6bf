import FeatureAssembly.Json.Basic

/-! How JSON numbers are read. A token without point and exponent is an integer if it lies between
`-2^63` and `2^64 - 1`; every other one is a double: its leading digits as far as they stay below
`2^64`, scaled by a power of ten in one rounded operation. -/

namespace FeatureAssembly.Number

/-- The digits read so far as a significand, and the power of ten that they still lack. -/
structure Scaled where
  significand : Nat
  exponent : Int

def digitValue (c : Char) : Nat := c.toNat - '0'.toNat

def significandBound : Nat := 0x10000000000000000

/-- Reads the digits before the point; from the first one that does not fit they only count. -/
def wholeDigits (full : Bool) (s : Scaled) : List Char → Scaled × Bool
  | [] => (s, full)
  | c :: cs =>
    let n := s.significand * 10 + digitValue c
    if full || significandBound ≤ n then wholeDigits true { s with exponent := s.exponent + 1 } cs
    else wholeDigits false { s with significand := n } cs

def fractionDigits (s : Scaled) : List Char → Scaled
  | [] => s
  | c :: cs =>
    let n := s.significand * 10 + digitValue c
    if significandBound ≤ n then s
    else fractionDigits ⟨n, s.exponent - 1⟩ cs

def powerOfTen (n : Nat) : Float := Float.ofScientific 1 false n

def greatestPower : Nat := 308

/-- Divides by a power of ten, in several steps if it is no double. -/
def divideBy (x : Float) (n : Nat) : Float :=
  if n ≤ greatestPower then x / powerOfTen n
  else if x == 0 then x
  else divideBy (x / powerOfTen greatestPower) (n - greatestPower)
termination_by n
decreasing_by simp only [greatestPower] at *; omega

def Scaled.toFloat? (s : Scaled) : Option Float :=
  let x := Float.ofScientific s.significand false 0
  if s.exponent < 0 then some (divideBy x s.exponent.natAbs)
  else if s.exponent.toNat ≤ greatestPower then
    let y := x * powerOfTen s.exponent.toNat
    if y.isInf then none else some y
  else if x == 0 then some x else none

structure Token where
  negative : Bool
  whole : List Char
  fraction : Option (List Char)
  exponent : Option (Bool × List Char)

def longBound : Nat := 0x8000000000000000

def exponentBound : Nat := 0x80000000

def Token.value? (t : Token) : Option Number :=
  let (whole, long) := wholeDigits false ⟨0, 0⟩ t.whole
  let signed (x : Float) : Number := .real (if t.negative then -x else x)
  match t.fraction, t.exponent with
  | none, none =>
    if long then whole.toFloat?.map signed
    else if !t.negative then some (.integer whole.significand)
    else if whole.significand = 0 ∨ longBound < whole.significand then whole.toFloat?.map signed
    else some (.integer (-whole.significand))
  | _, _ =>
    let s := fractionDigits whole (t.fraction.getD [])
    match t.exponent with
    | none => s.toFloat?.map signed
    | some (down, ds) =>
      let n := Nat.ofDigitChars 10 ds 0
      if exponentBound ≤ n then
        if s.significand ≠ 0 ∧ !down then none else some (signed 0)
      else
        let t : Scaled := { s with exponent := if down then s.exponent - n else s.exponent + n }
        t.toFloat?.map signed

def digits (cs : List Char) : List Char × List Char :=
  (cs.takeWhile Char.isDigit, cs.dropWhile Char.isDigit)

def exponentPart? (cs : List Char) : Option (Option (Bool × List Char)) :=
  match cs with
  | [] => some none
  | e :: cs =>
    if e = 'e' ∨ e = 'E' then
      let (down, cs) := match cs with
        | '-' :: cs => (true, cs)
        | '+' :: cs => (false, cs)
        | cs => (false, cs)
      if cs.isEmpty || !cs.all Char.isDigit then none else some (some (down, cs))
    else none

def properWhole : List Char → Bool
  | [] => false
  | ['0'] => true
  | '0' :: _ => false
  | _ => true

def Token.ofChars? (cs : List Char) : Option Token :=
  let (negative, cs) := match cs with
    | '-' :: cs => (true, cs)
    | cs => (false, cs)
  let (whole, cs) := digits cs
  if !properWhole whole then none
  else match cs with
    | '.' :: cs =>
      let (fraction, cs) := digits cs
      if fraction.isEmpty then none
      else (exponentPart? cs).map fun exponent => ⟨negative, whole, some fraction, exponent⟩
    | cs => (exponentPart? cs).map fun exponent => ⟨negative, whole, none, exponent⟩

def ofChars? (cs : List Char) : Option Number := (Token.ofChars? cs).bind Token.value?

end FeatureAssembly.Number
