/-! Natural numbers written with the digits 0 to 9. -/

namespace FeatureAssembly.Text

def isDigits (cs : List Char) : Bool := !cs.isEmpty && cs.all Char.isDigit

def readNat? (bound : Nat) (cs : List Char) : Option Nat :=
  if isDigits cs && Nat.ofDigitChars 10 cs 0 < bound then some (Nat.ofDigitChars 10 cs 0) else none

end FeatureAssembly.Text
