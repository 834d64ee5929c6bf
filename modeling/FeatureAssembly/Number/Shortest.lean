/-! The shortest decimal that reads back as a given double. A finite double other than zero is
`m · 2^q`; the decimals that read back as it fill an interval around it, which holds its ends when
`m` is even. The search goes over the grids `10^k` from coarse to fine and takes the first one that
has a point in the interval; only the two neighbours of the value on a grid come into question. -/

namespace FeatureAssembly

structure Decimal where
  digits : Nat
  exponent : Int
deriving DecidableEq

structure DoubleFields where
  negative : Bool
  exponent : Nat
  fraction : Nat

def DoubleFields.ofBits (bits : Nat) : DoubleFields :=
  ⟨0x8000000000000000 ≤ bits, bits / 0x10000000000000 % 0x800, bits % 0x10000000000000⟩

/-- The double `m · 2^q`; at a power of two the doubles below lie twice as close. -/
structure Binade where
  m : Nat
  q : Int
  closeBelow : Bool

namespace Shortest

def binade (f : DoubleFields) : Binade :=
  if f.exponent = 0 then ⟨f.fraction, -1074, false⟩
  else
    ⟨0x10000000000000 + f.fraction, (f.exponent : Int) - 1075, f.fraction == 0 && f.exponent != 1⟩

/-- The quarters `4m - 2` (or `4m - 1`) and `4m + 2` bound the decimals that read back. -/
def lower (b : Binade) : Nat := if b.closeBelow then 4 * b.m - 1 else 4 * b.m - 2

def upper (b : Binade) : Nat := 4 * b.m + 2

/-- The neighbour of the value on the grid `10^k` that reads back as it: of two the nearer, and of
two equally near ones the even. -/
def onGrid? (b : Binade) (k : Int) : Option Decimal :=
  let num := Nat.pow 10 (-k).toNat <<< (b.q - 2).toNat
  let den := Nat.pow 10 k.toNat <<< (2 - b.q).toNat
  let reads (d : Nat) : Bool :=
    if b.m % 2 = 0 then lower b * num ≤ d * den && d * den ≤ upper b * num
    else lower b * num < d * den && d * den < upper b * num
  let value := 4 * b.m * num
  let below := value / den
  let above := below + 1
  match reads below, reads above with
  | true, false => some ⟨below, k⟩
  | false, true => some ⟨above, k⟩
  | false, false => none
  | true, true =>
    match Ord.compare (value - below * den) (above * den - value) with
    | .lt => some ⟨below, k⟩
    | .gt => some ⟨above, k⟩
    | .eq => some ⟨if below % 2 = 0 then below else above, k⟩

def coarsest (b : Binade) : Int := ((b.m.log2 : Int) + b.q + 1) * 30103 / 100000 + 1

def select (b : Binade) : Decimal :=
  ((List.range 20).findSome? fun i : Nat => onGrid? b (coarsest b - (i : Int))).getD ⟨0, 0⟩

end Shortest

def Decimal.scientific (d : Decimal) : List Char × Int :=
  let cs := Nat.toDigits 10 d.digits
  ((cs.reverse.dropWhile (· = '0')).reverse, (cs.length : Int) - 1 + d.exponent)

end FeatureAssembly
