import FairShare.Json.Basic
import FairShare.Text.Hex

/-!
The compact text of a JSON value: no blanks, members in order, and escapes only where the grammar
asks for one.
-/

namespace FairShare.Json

open Text (hexDigit)

def writeChar (c : Char) : List Char :=
  match escapes.letter? c with
  | some letter => ['\\', letter]
  | none =>
    if c.toNat < 0x20 then
      ['\\', 'u', '0', '0', hexDigit (c.toNat / 16), hexDigit (c.toNat % 16)]
    else [c]

/-- A string with its quotes.  A string with an escape that stands for no character is written as
one such escape. -/
def writeText : Option String → List Char
  | some s => '"' :: (s.toList.flatMap writeChar ++ ['"'])
  | none => ['"', '\\', 'u', 'd', '8', '0', '0', '"']

/-- A numeral.  A power of ten always has its sign. -/
def writeNumeral (n : Numeral) : List Char :=
  let sign := if n.negative then ['-'] else []
  let fraction := if n.fraction.isEmpty then [] else '.' :: Decimal.text n.fraction
  let power := match n.exponent with
    | none => []
    | some e => 'e' :: (if e < 0 then '-' else '+') :: Decimal.text (Decimal.digitsOf e.natAbs)
  sign ++ Decimal.text (Decimal.digitsOf n.whole) ++ fraction ++ power

mutual

def writeValue : Json → List Char
  | .null => ['n', 'u', 'l', 'l']
  | .bool true => ['t', 'r', 'u', 'e']
  | .bool false => ['f', 'a', 'l', 's', 'e']
  | .number n => writeNumeral n
  | .text s => writeText s
  | .array [] => ['[', ']']
  | .array (item :: items) => '[' :: (writeValue item ++ writeItems items)
  | .object [] => ['\x7b', '\x7d']
  | .object ((name, value) :: members) =>
    '\x7b' :: (writeText name ++ ':' :: (writeValue value ++ writeMembers members))

/-- The items of an array after its first, and the closing bracket. -/
def writeItems : List Json → List Char
  | [] => [']']
  | item :: items => ',' :: (writeValue item ++ writeItems items)

/-- The members of an object after its first, and the closing brace. -/
def writeMembers : List (Option String × Json) → List Char
  | [] => ['\x7d']
  | (name, value) :: members =>
    ',' :: (writeText name ++ ':' :: (writeValue value ++ writeMembers members))

end

def write (j : Json) : String := String.ofList j.writeValue

end FairShare.Json
