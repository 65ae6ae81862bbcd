import FairShare.Decimal.Layout
import FairShare.Text.Escape

/-!
JSON values.  A numeral is kept as it is written and not as a number, because whether a text is an
integer or a double depends on where it stands.
-/

namespace FairShare

open Decimal (Digit)

/-- A number as JSON writes it: a whole part, digits after a point, and a power of ten. -/
structure Numeral where
  negative : Bool
  whole : Nat
  fraction : List Digit
  exponent : Option Int
deriving DecidableEq

/-- A JSON value.  A text is `none` if one of its escapes stands for no character. -/
inductive Json where
  | null
  | bool (b : Bool)
  | number (n : Numeral)
  | text (s : Option String)
  | array (items : List Json)
  | object (members : List (Option String × Json))
deriving Inhabited

namespace Numeral

def ofNat (n : Nat) : Numeral := ⟨false, n, [], none⟩

/-- The number of a numeral without sign, point and power, if it does not exceed a limit. -/
def toNat? (limit : Nat) (n : Numeral) : Option Nat :=
  if n.negative || !n.fraction.isEmpty || n.exponent.isSome || limit < n.whole then none
  else some n.whole

/-- The numeral of a finite double: the shortest decimal that rounds to it, of two equally near ones
the even one.  All digits are written while the leading one stands for at least `10 ^ -5` and less
than `10 ^ 16`, with at least one digit after the point. -/
def ofFloat (x : Float) : Numeral :=
  let value := Decimal.Binary.ofFloat x
  let negative := Decimal.isNegative x
  if value.mantissa = 0 then ⟨negative, 0, [.zero], none⟩
  else
    let d := value.shortest .even
    if -5 ≤ d.leading && d.leading < 16 then
      let (whole, fraction) := d.parts
      ⟨negative, Decimal.ofDigits whole, if fraction.isEmpty then [.zero] else fraction, none⟩
    else
      let digits := Decimal.digitsOf d.digits
      ⟨negative, Decimal.ofDigits (digits.take 1), digits.drop 1, some d.leading⟩

/-- The largest significand that is kept while digits are read. -/
def maxSignificand : Nat := 0xffffffffffffffff

/-- Appends digits to a significand until one no longer fits; gives the number of those that did. -/
def accumulate (significand : Nat) : List Digit → Nat × Nat
  | [] => (significand, 0)
  | d :: rest =>
    if maxSignificand < 10 * significand + d.val then (significand, 0)
    else
      let (s, taken) := accumulate (10 * significand + d.val) rest
      (s, taken + 1)

def powerOfTen (e : Nat) : Float := Float.ofScientific 1 false e

/-- Divides by `10 ^ e`, by at most `10 ^ 308` at a time. -/
def divideByPower (x : Float) (e : Nat) : Float :=
  if e ≤ 308 then x / powerOfTen e
  else if x == 0.0 then x
  else divideByPower (x / powerOfTen 308) (e - 308)
termination_by e
decreasing_by omega

/-- The double `significand * 10 ^ e`, with one rounding for the significand and one for each
multiplication or division; `none` if it is too large. -/
def scaleByPower (significand : Nat) (e : Int) : Option Float :=
  let x := significand.toUInt64.toFloat
  if e < 0 then some (divideByPower x e.natAbs)
  else if e ≤ 308 then
    let y := x * powerOfTen e.natAbs
    if y.isInf then none else some y
  else if x == 0.0 then some x else none

/-- The largest power of ten that is read; beyond it only zero has a value, or the value is zero. -/
def maxExponent : Int := 0x7fffffff

/-- The double of a numeral.  The digits are read from the left into a significand below `2 ^ 64`;
whole digits that no longer fit count as powers of ten, fractional ones are dropped. -/
def toFloat? (n : Numeral) : Option Float :=
  let wholeDigits := Decimal.digitsOf n.whole
  let (high, taken) := accumulate 0 wholeDigits
  let (significand, decimals) := accumulate high n.fraction
  let shift := Int.ofNat (wholeDigits.length - taken) - Int.ofNat decimals
  let magnitude := match n.exponent with
    | none => scaleByPower significand shift
    | some e =>
      -- The written power alone decides, before the place of the point is counted in.
      if e < -maxExponent then some 0.0
      else if maxExponent < e then if significand = 0 then some 0.0 else none
      else scaleByPower significand (max (-maxExponent - 1) (min (shift + e) maxExponent))
  magnitude.map fun x => if n.negative then -x else x

end Numeral

namespace Json

/-- The characters of a string that are written with an escape of one letter. -/
def escapes : Text.Escapes :=
  [('"', '"'), ('\\', '\\'), ('\x08', 'b'), ('\x0c', 'f'), ('\n', 'n'), ('\r', 'r'), ('\t', 't')]

def ofNat (n : Nat) : Json := .number (.ofNat n)

def ofString (s : String) : Json := .text (some s)

/-- A double; a value that is not finite has no numeral. -/
def ofFloat (x : Float) : Json := if x.isFinite then .number (.ofFloat x) else .null

def ofOption {α : Type} (f : α → Json) : Option α → Json
  | some a => f a
  | none => .null

def record (members : List (String × Json)) : Json :=
  .object (members.map fun m => (some m.1, m.2))

end Json
end FairShare
