/-!
The shortest decimal of a double.  A finite double stands for the reals that round to it, an
interval around its value.  `Binary.shortest` takes the coarsest decimal grid that has a point in
this interval and, of its points there, the one nearest to the value.
-/

namespace FairShare.Decimal

/-- The value `mantissa * 2 ^ exponent`. -/
structure Binary where
  mantissa : Nat
  exponent : Int
  /-- Whether the gap to the value below is half the gap to the value above. -/
  narrowBelow : Bool
deriving DecidableEq

/-- The value `digits * 10 ^ exponent`. -/
structure Scaled where
  digits : Nat
  exponent : Int
deriving DecidableEq

/-- Which of two equally near decimals is taken. -/
inductive Tie where
  | up
  | even

/-- The leading bit of the mantissa of a normal double, which is not stored. -/
def hiddenBit : Nat := 0x10000000000000

/-- The magnitude of a finite double: eleven bits of exponent above 52 bits of fraction. -/
def Binary.ofFloat (x : Float) : Binary :=
  let bits := x.toBits.toNat
  let biased : Nat := bits / hiddenBit % 2048
  let fraction : Nat := bits % hiddenBit
  if biased = 0 then ⟨fraction, -1074, false⟩
  else ⟨hiddenBit + fraction, Int.ofNat biased - 1075, fraction = 0 && 1 < biased⟩

/-- Compares `a * 10 ^ i` with `n * 2 ^ j`. -/
def compareScaled (a : Nat) (i : Int) (n : Nat) (j : Int) : Ordering :=
  compare (a * Nat.pow 10 i.toNat * Nat.pow 2 (-j).toNat)
    (n * Nat.pow 2 j.toNat * Nat.pow 10 (-i).toNat)

/-- Whether a decimal lies among the reals that round to the value. -/
def Binary.covers (x : Binary) (d : Scaled) : Bool :=
  -- The ends lie half a unit of the mantissa away, or a quarter below a power of two.
  let low := compareScaled d.digits d.exponent (4 * x.mantissa - if x.narrowBelow then 1 else 2)
    (x.exponent - 2)
  let high := compareScaled d.digits d.exponent (4 * x.mantissa + 2) (x.exponent - 2)
  let closed := x.mantissa % 2 = 0
  (low = .gt || closed && low = .eq) && (high = .lt || closed && high = .eq)

/-- The whole number of steps of size `10 ^ e` in the value. -/
def Binary.steps (x : Binary) (e : Int) : Nat :=
  x.mantissa * Nat.pow 2 x.exponent.toNat * Nat.pow 10 (-e).toNat /
    (Nat.pow 2 (-x.exponent).toNat * Nat.pow 10 e.toNat)

/-- The nearest point of the grid of size `10 ^ e` that rounds to the value. -/
def Binary.onGrid (x : Binary) (tie : Tie) (e : Int) : Option Scaled :=
  let below : Scaled := ⟨x.steps e, e⟩
  let above : Scaled := ⟨x.steps e + 1, e⟩
  -- The middle between the two points against the value, both doubled.
  let upper := match compareScaled (2 * below.digits + 1) e (2 * x.mantissa) x.exponent, tie with
    | .lt, _ => above
    | .gt, _ => below
    | .eq, .up => above
    | .eq, .even => if below.digits % 2 = 0 then below else above
  match 0 < below.digits && x.covers below, x.covers above with
  | true, true => some upper
  | true, false => some below
  | false, true => some above
  | false, false => none

/-- Tries the grids from size `10 ^ e` down. -/
def Binary.search (x : Binary) (tie : Tie) : Nat → Int → Option Scaled
  | 0, _ => none
  | n + 1, e =>
    match x.onGrid tie e with
    | some d => some d
    | none => x.search tie n (e - 1)

/-- A size of grid that is too coarse for the value: more than ten to its whole logarithm. -/
def Binary.coarse (x : Binary) : Int :=
  ((x.mantissa.log2 : Int) + 2 + x.exponent) * 30103 / 100000 + 1

/-- The shortest decimal that rounds to a positive value. -/
def Binary.shortest (x : Binary) (tie : Tie) : Scaled :=
  -- Seventeen digits always suffice; the other grids allow for a coarse start.
  (x.search tie 21 x.coarse).getD
    ⟨x.mantissa * Nat.pow 5 (-x.exponent).toNat * Nat.pow 2 x.exponent.toNat, min x.exponent 0⟩

end FairShare.Decimal
