import FairShare.Decimal.Digit
import FairShare.Decimal.Shortest

/-!
Decimals laid out digit by digit.  `Scaled.parts` gives the digits on either side of the point,
and `messageText` is the text of a double in messages.
-/

namespace FairShare.Decimal

/-- The digits before and after the point when every digit is written out. -/
def Scaled.parts (d : Scaled) : List Digit × List Digit :=
  let digits := digitsOf d.digits
  let places := (-d.exponent).toNat
  if 0 ≤ d.exponent then (digits ++ List.replicate d.exponent.toNat .zero, [])
  else if places < digits.length then digits.splitAt (digits.length - places)
  else ([.zero], List.replicate (places - digits.length) .zero ++ digits)

def Scaled.leading (d : Scaled) : Int := d.exponent + (digitsOf d.digits).length - 1

def signBit : Nat := 0x8000000000000000

def isNegative (x : Float) : Bool := signBit ≤ x.toBits.toNat

/-- The text of a double in messages: every digit of its shortest decimal is written out, a whole
number has no point, and of two equally near decimals the larger is taken. -/
def messageText (x : Float) : String :=
  if x.isNaN then "NaN"
  else
    let sign := if isNegative x then "-" else ""
    let value := Binary.ofFloat x
    if x.isInf then sign ++ "inf"
    else if value.mantissa = 0 then sign ++ "0"
    else
      let (whole, fraction) := (value.shortest .up).parts
      sign ++ String.ofList (text whole ++ if fraction.isEmpty then [] else '.' :: text fraction)

end FairShare.Decimal
