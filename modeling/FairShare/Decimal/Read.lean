import FairShare.Decimal.Digit

/-!
Reading decimal texts as doubles.  A decimal is rounded to the nearest double, a tie to the even
one; what is too large becomes infinite.
-/

namespace FairShare.Decimal

/-- The double nearest to `digits * 10 ^ exponent`. -/
def nearest (digits : Nat) (exponent : Int) : Float :=
  let leading := exponent + (digitsOf digits).length
  -- Far beyond the range of doubles the powers of ten need not be computed.
  if digits = 0 || leading < -400 then 0.0
  else if 400 < leading then 1.0 / 0.0
  else Float.ofScientific digits (exponent < 0) exponent.natAbs

def splitSign : List Char → Bool × List Char
  | '-' :: rest => (true, rest)
  | '+' :: rest => (false, rest)
  | rest => (false, rest)

def readExponent? (cs : List Char) : Option Int :=
  let (negative, rest) := splitSign cs
  let digits := leadingDigits rest
  if digits.isEmpty || !(afterDigits rest).isEmpty then none
  else some (if negative then -Int.ofNat (ofDigits digits) else ofDigits digits)

/-- A number without sign: digits with an optional point among or beside them, and an optional
exponent. -/
def readMagnitude? (cs : List Char) : Option Float :=
  let whole := leadingDigits cs
  let (fraction, rest) := match afterDigits cs with
    | '.' :: rest => (leadingDigits rest, afterDigits rest)
    | rest => ([], rest)
  let value (e : Int) := nearest (ofDigits (whole ++ fraction)) (e - fraction.length)
  if whole.isEmpty && fraction.isEmpty then none
  else match rest with
    | [] => some (value 0)
    | c :: rest => if c = 'e' || c = 'E' then (readExponent? rest).map value else none

/-- Reads a double: a decimal, `inf`, `infinity` or `nan` in any case, with an optional sign. -/
def read? (s : String) : Option Float :=
  let (negative, rest) := splitSign s.toList
  let word := String.ofList (rest.map Char.toLower)
  let magnitude :=
    if word = "inf" || word = "infinity" then some (1.0 / 0.0)
    else if word = "nan" then some (0.0 / 0.0)
    else readMagnitude? rest
  magnitude.map fun x => if negative then -x else x

end FairShare.Decimal
