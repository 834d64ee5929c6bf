import FeatureAssembly.Json.Basic
import FeatureAssembly.Number.Shortest

/-! How JSON numbers are written. A double has its shortest digits: positionally with at least one
fraction digit from `1e-5` up to below `1e16`, otherwise with an exponent that shows its sign. A
double that is no number has no JSON text but `null`. -/

namespace FeatureAssembly.Number

def pointAt (cs : List Char) (n : Nat) : List Char :=
  let whole := cs.take n ++ List.replicate (n - cs.length) '0'
  let fraction := cs.drop n
  whole ++ '.' :: (if fraction.isEmpty then ['0'] else fraction)

def layout (cs : List Char) (e : Int) : List Char :=
  if 0 ≤ e ∧ e < 16 then pointAt cs (e.toNat + 1)
  else if -5 ≤ e ∧ e < 0 then '0' :: '.' :: (List.replicate (-e - 1).toNat '0' ++ cs)
  else
    let mantissa := match cs with
      | c :: d :: ds => c :: '.' :: d :: ds
      | _ => cs
    mantissa ++ 'e' :: (if e < 0 then '-' else '+') :: Nat.toDigits 10 e.natAbs

def realText (x : Float) : String :=
  let f := DoubleFields.ofBits x.toBits.toNat
  if f.exponent = 0x7FF then "null"
  else
    let sign := if f.negative then ['-'] else []
    if f.exponent = 0 ∧ f.fraction = 0 then String.ofList (sign ++ ['0', '.', '0'])
    else
      let (cs, e) := (Shortest.select (Shortest.binade f)).scientific
      String.ofList (sign ++ layout cs e)

def text : Number → String
  | .integer n => toString n
  | .real x => realText x

end FeatureAssembly.Number
