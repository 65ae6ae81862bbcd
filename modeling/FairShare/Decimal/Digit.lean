/-!
Decimal digits and the numbers they make.
-/

namespace FairShare.Decimal

abbrev Digit := Fin 10

def Digit.zero : Digit := ⟨0, by decide⟩

def Digit.toChar (d : Digit) : Char := Char.ofNat ('0'.toNat + d.val)

def Digit.ofChar? (c : Char) : Option Digit :=
  if h : '0'.toNat ≤ c.toNat ∧ c.toNat < '0'.toNat + 10 then some ⟨c.toNat - '0'.toNat, by omega⟩
  else none

def text (ds : List Digit) : List Char := ds.map Digit.toChar

/-- The number of a list of digits, the leading one first. -/
def ofDigits (ds : List Digit) : Nat := ds.foldl (fun n d => 10 * n + d.val) 0

/-- The digits of a number, the leading one first. -/
def digitsOf (n : Nat) : List Digit :=
  if n < 10 then [Fin.ofNat 10 n] else digitsOf (n / 10) ++ [Fin.ofNat 10 n]

def leadingDigits : List Char → List Digit
  | [] => []
  | c :: rest =>
    match Digit.ofChar? c with
    | some d => d :: leadingDigits rest
    | none => []

def afterDigits : List Char → List Char
  | [] => []
  | c :: rest =>
    match Digit.ofChar? c with
    | some _ => afterDigits rest
    | none => c :: rest

end FairShare.Decimal
