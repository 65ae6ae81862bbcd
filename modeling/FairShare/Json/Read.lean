import FairShare.Json.Basic
import FairShare.Text.Hex

/-!
Reading JSON texts.  Blanks are the space, the tab, the line feed and the carriage return; nothing
may follow the value.  A `\u` escape that stands for no character spoils only its own string.
-/

namespace FairShare.Json

open Decimal (leadingDigits afterDigits ofDigits)
open Text (hexValue?)

/-- Whether a character may stand between the tokens of a text. -/
def isBlank (c : Char) : Bool := c = ' ' || c = '\t' || c = '\n' || c = '\r'

def skipBlanks (cs : List Char) : List Char := cs.dropWhile isBlank

def hexNumber? (a b c d : Char) : Option Nat := do
  let a ← hexValue? a
  let b ← hexValue? b
  let c ← hexValue? c
  let d ← hexValue? d
  return ((a * 16 + b) * 16 + c) * 16 + d

/-- The character of an escape of one letter.  A slash may be escaped without need. -/
def escaped? (letter : Char) : Option Char :=
  if letter = '/' then some letter else escapes.char? letter

/-- Whether a 16-bit unit begins a pair that stands for one character. -/
def isHighUnit (n : Nat) : Bool := 0xd800 ≤ n && n < 0xdc00

/-- Whether a 16-bit unit ends a pair that stands for one character. -/
def isLowUnit (n : Nat) : Bool := 0xdc00 ≤ n && n < 0xe000

def pairChar (high low : Nat) : Char :=
  Char.ofNat (0x10000 + (high - 0xd800) * 0x400 + (low - 0xdc00))

/-- The content of a string so far unread, and what follows its closing quote. -/
abbrev Content := Option (List Char) × List Char

/-- Puts a character, or an escape without one, before the content of a string. -/
def consChar (c : Option Char) (r : Content) : Content := (do return (← c) :: (← r.1), r.2)

/-- Spoils the content of a string if the first half of a pair stands alone before it. -/
def spoil (high : Option Nat) (r : Content) : Content := if high.isSome then consChar none r else r

/-- The content of a string up to its closing quote, after the first half of a pair if there was
one, and what follows. -/
def readContent (high : Option Nat) : List Char → Option Content
  | [] => none
  | '"' :: rest => some (spoil high (some [], rest))
  | '\\' :: 'u' :: a :: b :: c :: d :: rest =>
    match hexNumber? a b c d with
    | none => none
    | some unit =>
      -- A first half waits for its second half; any other unit spoils one that waits.
      if isHighUnit unit then (readContent (some unit) rest).map (spoil high)
      else if isLowUnit unit then
        (readContent none rest).map (consChar (high.map fun h => pairChar h unit))
      else (readContent none rest).map (spoil high ∘ consChar (some (Char.ofNat unit)))
  | '\\' :: e :: rest =>
    match escaped? e with
    | none => none
    | some c => (readContent none rest).map (spoil high ∘ consChar (some c))
  | c :: rest =>
    if c.toNat < 0x20 then none
    else (readContent none rest).map (spoil high ∘ consChar (some c))

/-- A string after its opening quote, and what follows. -/
def readText (cs : List Char) : Option (Option String × List Char) :=
  (readContent none cs).map fun (content, rest) => (content.map String.ofList, rest)

def readFraction : List Char → Option (List Decimal.Digit × List Char)
  | '.' :: rest =>
    let digits := leadingDigits rest
    if digits.isEmpty then none else some (digits, afterDigits rest)
  | rest => some ([], rest)

def readPower : List Char → Option (Option Int × List Char)
  | [] => some (none, [])
  | c :: rest =>
    if c = 'e' || c = 'E' then
      let (negative, rest) := match rest with
        | '-' :: rest => (true, rest)
        | '+' :: rest => (false, rest)
        | rest => (false, rest)
      let digits := leadingDigits rest
      let power := Int.ofNat (ofDigits digits)
      if digits.isEmpty then none
      else some (some (if negative then -power else power), afterDigits rest)
    else some (none, c :: rest)

/-- A numeral and what follows.  The whole part has no needless zero at its front. -/
def readNumeral (cs : List Char) : Option (Numeral × List Char) :=
  let (negative, cs) := match cs with
    | '-' :: rest => (true, rest)
    | rest => (false, rest)
  let digits := leadingDigits cs
  if digits.isEmpty || (digits.head? = some .zero && 1 < digits.length) then none
  else do
    let (fraction, rest) ← readFraction (afterDigits cs)
    let (power, rest) ← readPower rest
    return (⟨negative, ofDigits digits, fraction, power⟩, rest)

mutual

/-- A value and what follows.  Each step spends one unit of fuel. -/
def readValue : Nat → List Char → Option (Json × List Char)
  | 0, _ => none
  | n + 1, cs =>
    match skipBlanks cs with
    | '"' :: rest => (readText rest).map fun (s, rest) => (.text s, rest)
    | '[' :: rest =>
      match skipBlanks rest with
      | ']' :: rest => some (.array [], rest)
      | rest => (readItems n rest).map fun (items, rest) => (.array items, rest)
    | '\x7b' :: rest =>
      match skipBlanks rest with
      | '\x7d' :: rest => some (.object [], rest)
      | rest => (readMembers n rest).map fun (members, rest) => (.object members, rest)
    | 'n' :: 'u' :: 'l' :: 'l' :: rest => some (.null, rest)
    | 't' :: 'r' :: 'u' :: 'e' :: rest => some (.bool true, rest)
    | 'f' :: 'a' :: 'l' :: 's' :: 'e' :: rest => some (.bool false, rest)
    | rest => (readNumeral rest).map fun (numeral, rest) => (.number numeral, rest)

/-- The items of an array from one item on, and what follows the closing bracket. -/
def readItems : Nat → List Char → Option (List Json × List Char)
  | 0, _ => none
  | n + 1, cs =>
    match readValue n cs with
    | none => none
    | some (item, rest) =>
      match skipBlanks rest with
      | ']' :: rest => some ([item], rest)
      | ',' :: rest => (readItems n rest).map fun (items, rest) => (item :: items, rest)
      | _ => none

/-- The members of an object from one member on, and what follows the closing brace. -/
def readMembers : Nat → List Char → Option (List (Option String × Json) × List Char)
  | 0, _ => none
  | n + 1, cs =>
    match skipBlanks cs with
    | '"' :: rest =>
      match readText rest with
      | none => none
      | some (name, rest) =>
        match skipBlanks rest with
        | ':' :: rest =>
          match readValue n rest with
          | none => none
          | some (value, rest) =>
            match skipBlanks rest with
            | '\x7d' :: rest => some ([(name, value)], rest)
            | ',' :: rest =>
              (readMembers n rest).map fun (members, rest) => ((name, value) :: members, rest)
            | _ => none
        | _ => none
    | _ => none

end

def read? (s : String) : Option Json :=
  let cs := s.toList
  -- Each step takes at least one character.
  match readValue (cs.length + 1) cs with
  | some (value, rest) => if (skipBlanks rest).isEmpty then some value else none
  | none => none

end FairShare.Json
