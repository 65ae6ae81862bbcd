import Mathlib.Data.List.Basic
import FairShare.Json.Read
import FairShare.Json.Write

/-!
Reading what was written.  The text of any JSON value reads back as this value: digits make the
number that they were made of, an escape gives the character that it stands for, and each value ends
where its text does, as what follows cannot go on with it.
-/

namespace FairShare
namespace Decimal

theorem Digit.ofChar?_toChar (d : Digit) : Digit.ofChar? d.toChar = some d := by
  revert d
  decide

/-- Digits are read up to the first character that is none. -/
theorem leadingDigits_text (ds : List Digit) {rest : List Char}
    (ends : ∀ c ∈ rest.head?, Digit.ofChar? c = none) :
    leadingDigits (text ds ++ rest) = ds ∧ afterDigits (text ds ++ rest) = rest := by
  induction ds with
  | nil =>
    cases rest with
    | nil => exact ⟨rfl, rfl⟩
    | cons c rest =>
      have other := ends c rfl
      simp [text, leadingDigits, afterDigits, other]
  | cons d ds ih =>
    have step : text (d :: ds) ++ rest = d.toChar :: (text ds ++ rest) := rfl
    rw [step, leadingDigits, afterDigits, Digit.ofChar?_toChar]
    exact ⟨congrArg (d :: ·) ih.1, ih.2⟩

theorem ofDigits_append (ds : List Digit) (d : Digit) :
    ofDigits (ds ++ [d]) = 10 * ofDigits ds + d.val := by
  rw [ofDigits, List.foldl_append]
  rfl

theorem ofDigits_digitsOf (n : Nat) : ofDigits (digitsOf n) = n := by
  induction n using digitsOf.induct with
  | case1 n small =>
    rw [digitsOf, if_pos small]
    simp [ofDigits, Nat.mod_eq_of_lt small]
  | case2 n large ih =>
    rw [digitsOf, if_neg large, ofDigits_append, ih, Fin.val_ofNat]
    omega

theorem digitsOf_ne_nil (n : Nat) : digitsOf n ≠ [] := by
  rw [digitsOf]
  split <;> simp

/-- The leading digit of a number is not a needless zero. -/
theorem head?_digitsOf {n : Nat} (pos : 0 < n) : (digitsOf n).head? ≠ some .zero := by
  induction n using digitsOf.induct with
  | case1 n small =>
    rw [digitsOf, if_pos small]
    intro zero
    -- A number of one digit is that digit.
    have value : n % 10 = 0 := congrArg Fin.val (Option.some.inj zero)
    omega
  | case2 n large ih =>
    rw [digitsOf, if_neg large, List.head?_append_of_ne_nil _ (digitsOf_ne_nil _)]
    exact ih (by omega)

end Decimal

namespace Json

open Decimal (Digit digitsOf ofDigits leadingDigits afterDigits)
open Text (hexDigit)

/-- What follows does not go on with a numeral. -/
def Apart (rest : List Char) : Prop :=
  ∀ c ∈ rest.head?, Digit.ofChar? c = none ∧ c ≠ '.' ∧ c ≠ 'e' ∧ c ≠ 'E'

theorem apart_nil : Apart [] := by
  intro c hc
  cases hc

section numerals

variable {rest : List Char}

def writeFraction (ds : List Digit) : List Char :=
  if ds.isEmpty then [] else '.' :: Decimal.text ds

def writePower : Option Int → List Char
  | none => []
  | some e => 'e' :: (if e < 0 then '-' else '+') :: Decimal.text (digitsOf e.natAbs)

theorem writeNumeral_eq (n : Numeral) :
    writeNumeral n = (if n.negative then ['-'] else []) ++ Decimal.text (digitsOf n.whole) ++
      writeFraction n.fraction ++ writePower n.exponent := by
  obtain ⟨negative, whole, fraction, exponent⟩ := n
  cases exponent <;> rfl

theorem readPower_writePower (e : Option Int) (apart : Apart rest) :
    readPower (writePower e ++ rest) = some (e, rest) := by
  cases e with
  | none =>
    cases rest with
    | nil => rfl
    | cons c rest =>
      obtain ⟨-, -, lower, upper⟩ := apart c rfl
      simp [writePower, readPower, lower, upper]
  | some e =>
    obtain ⟨digits, after⟩ :=
      Decimal.leadingDigits_text (digitsOf e.natAbs) fun c hc => (apart c hc).1
    have present := Decimal.digitsOf_ne_nil e.natAbs
    by_cases negative : e < 0
    · have value : -(e.natAbs : Int) = e := by omega
      simp only [writePower, readPower, List.cons_append, negative, decide_true, Bool.true_or,
        if_true, digits, after, List.isEmpty_iff, present, if_false, Decimal.ofDigits_digitsOf,
        Int.ofNat_eq_natCast, value]
    · have value : (e.natAbs : Int) = e := by omega
      simp only [writePower, readPower, List.cons_append, negative, decide_true, Bool.true_or,
        if_true, digits, after, List.isEmpty_iff, present, if_false, Decimal.ofDigits_digitsOf,
        Int.ofNat_eq_natCast, value, Bool.false_eq_true]

/-- A power of ten follows neither as a digit nor as a point. -/
theorem ends_writePower (e : Option Int) (apart : Apart rest) :
    ∀ c ∈ (writePower e ++ rest).head?, Digit.ofChar? c = none ∧ c ≠ '.' := by
  intro c hc
  cases e with
  | none => exact ⟨(apart c hc).1, (apart c hc).2.1⟩
  | some e =>
    obtain rfl : 'e' = c := Option.some.inj hc
    decide

theorem readFraction_writeFraction (ds : List Digit)
    (ends : ∀ c ∈ rest.head?, Digit.ofChar? c = none ∧ c ≠ '.') :
    readFraction (writeFraction ds ++ rest) = some (ds, rest) := by
  cases ds with
  | nil =>
    cases rest with
    | nil => rfl
    | cons c rest =>
      have point := (ends c rfl).2
      simp only [writeFraction, List.isEmpty_nil, if_true, List.nil_append]
      rw [readFraction]
      intro other h
      exact point (List.cons.inj h).1
  | cons d ds =>
    obtain ⟨digits, after⟩ := Decimal.leadingDigits_text (d :: ds) fun c hc => (ends c hc).1
    simp [writeFraction, readFraction, digits, after]

theorem ends_writeFraction (ds : List Digit)
    (ends : ∀ c ∈ rest.head?, Digit.ofChar? c = none) :
    ∀ c ∈ (writeFraction ds ++ rest).head?, Digit.ofChar? c = none := by
  intro c hc
  cases ds with
  | nil => exact ends c hc
  | cons d ds =>
    obtain rfl : '.' = c := Option.some.inj hc
    decide

theorem readNumeral_writeNumeral (n : Numeral) (apart : Apart rest) :
    readNumeral (writeNumeral n ++ rest) = some (n, rest) := by
  obtain ⟨negative, whole, fraction, exponent⟩ := n
  have power := readPower_writePower exponent apart
  have ends := ends_writePower exponent apart
  rw [writeNumeral_eq]
  simp only [List.append_assoc]
  generalize writePower exponent ++ rest = tail at power ends
  have point := readFraction_writeFraction fraction ends
  have ends := ends_writeFraction fraction fun c hc => (ends c hc).1
  generalize writeFraction fraction ++ tail = tail' at point ends
  obtain ⟨digits, after⟩ := Decimal.leadingDigits_text (digitsOf whole) ends
  generalize Decimal.text (digitsOf whole) ++ tail' = cs at digits after
  have some_digit := Decimal.digitsOf_ne_nil whole
  have unsigned : ∀ tail, cs ≠ '-' :: tail := by
    rintro tail rfl
    exact some_digit digits.symm
  -- A number of several digits does not begin with zero.
  have front : ¬ ((digitsOf whole).head? = some .zero ∧ 1 < (digitsOf whole).length) := by
    rintro ⟨zero, several⟩
    rcases Nat.eq_zero_or_pos whole with rfl | pos
    · simp [digitsOf] at several
    · exact Decimal.head?_digitsOf pos zero
  cases negative with
  | true =>
    simp [readNumeral, digits, after, point, power, some_digit, front, Decimal.ofDigits_digitsOf]
  | false =>
    simp [readNumeral, digits, after, point, power, some_digit, front, Decimal.ofDigits_digitsOf]

end numerals

section texts

variable {c : Char} {rest : List Char}

/-- A letter stands for the character that it is written for, and none is `u`. -/
theorem escaped?_of_letter? {letter : Char} (h : escapes.letter? c = some letter) :
    escaped? letter = some c ∧ letter ≠ 'u' := by
  obtain ⟨entry, found, rfl⟩ := Option.map_eq_some_iff.1 h
  have named := List.find?_some found
  have all : ∀ e ∈ escapes, escaped? e.2 = some e.1 ∧ e.2 ≠ 'u' := by decide
  rw [← of_decide_eq_true named]
  exact all entry (List.mem_of_find?_eq_some found)

/-- The quote and the backslash are always escaped. -/
theorem plain_of_letter? (h : escapes.letter? c = none) : c ≠ '"' ∧ c ≠ '\\' := by
  constructor
  · rintro rfl
    cases h
  · rintro rfl
    cases h

theorem hexNumber?_hexDigit : ∀ n < 32,
    hexNumber? '0' '0' (hexDigit (n / 16)) (hexDigit (n % 16)) = some n := by
  decide

theorem readContent_writeChar (c : Char) (rest : List Char) :
    readContent none (writeChar c ++ rest) = (readContent none rest).map (consChar (some c)) := by
  rw [writeChar]
  split
  · next letter h =>
    obtain ⟨escaped, other⟩ := escaped?_of_letter? h
    show readContent none ('\\' :: letter :: rest) = _
    rw [readContent, escaped]
    · rfl
    · intro a b c d tail same
      exact absurd same other
  · next h =>
    obtain ⟨quote, backslash⟩ := plain_of_letter? h
    split
    · next control =>
      have unit := hexNumber?_hexDigit c.toNat control
      -- A control character is no half of a pair.
      have high : isHighUnit c.toNat = false := by
        rw [isHighUnit, Bool.and_eq_false_iff, decide_eq_false_iff_not, decide_eq_false_iff_not]
        omega
      have low : isLowUnit c.toNat = false := by
        rw [isLowUnit, Bool.and_eq_false_iff, decide_eq_false_iff_not, decide_eq_false_iff_not]
        omega
      simp only [List.cons_append, List.nil_append, readContent, unit, high, low,
        Bool.false_eq_true, if_false, Char.ofNat_toNat]
      rfl
    · next printed =>
      show readContent none (c :: rest) = _
      rw [readContent, if_neg printed]
      · rfl
      · exact quote
      · intro _ _ _ _ _ same
        exact absurd same backslash
      · intro _ _ same
        exact absurd same backslash

theorem readContent_flatMap (cs rest : List Char) :
    readContent none (cs.flatMap writeChar ++ '"' :: rest) = some (some cs, rest) := by
  induction cs with
  | nil =>
    rw [List.flatMap_nil, List.nil_append, readContent]
    rfl
  | cons c cs ih =>
    rw [List.flatMap_cons, List.append_assoc, readContent_writeChar, ih]
    rfl

/-- A text begins with a quote, after which it reads back. -/
theorem exists_writeText (s : Option String) :
    ∃ tail, writeText s = '"' :: tail ∧
      ∀ rest, readText (tail ++ rest) = some (s, rest) := by
  cases s with
  | none =>
    refine ⟨['\\', 'u', 'd', '8', '0', '0', '"'], rfl, fun rest => ?_⟩
    have unit : hexNumber? 'd' '8' '0' '0' = some 0xd800 := by decide
    simp [readText, readContent, unit, isHighUnit, spoil, consChar]
  | some s =>
    refine ⟨s.toList.flatMap writeChar ++ ['"'], rfl, fun rest => ?_⟩
    rw [List.append_assoc, readText, List.singleton_append, readContent_flatMap]
    simp

end texts

section values

theorem skipBlanks_of_not_blank {c : Char} {cs : List Char} (h : isBlank c = false) :
    skipBlanks (c :: cs) = c :: cs := by
  rw [skipBlanks, List.dropWhile_cons_of_neg (by simp [h])]

/-- Whether a numeral may begin with a character. -/
def BeginsNumeral (c : Char) : Prop := c = '-' ∨ ∃ d : Digit, c = d.toChar

theorem exists_writeNumeral (n : Numeral) :
    ∃ c cs, writeNumeral n = c :: cs ∧ BeginsNumeral c := by
  rw [writeNumeral_eq]
  cases n.negative with
  | true => exact ⟨'-', _, rfl, .inl rfl⟩
  | false =>
    cases h : digitsOf n.whole with
    | nil => exact absurd h (Decimal.digitsOf_ne_nil _)
    | cons d ds => exact ⟨d.toChar, _, rfl, .inr ⟨d, rfl⟩⟩

namespace BeginsNumeral

variable {c : Char} (begins : BeginsNumeral c)

include begins

theorem not_blank : isBlank c = false := by
  rcases begins with rfl | ⟨d, rfl⟩
  · decide
  · revert d
    decide

/-- No other token begins with the character. -/
theorem ne : c ≠ ']' ∧ c ≠ '"' ∧ c ≠ '[' ∧ c ≠ '\x7b' ∧ c ≠ 'n' ∧ c ≠ 't' ∧ c ≠ 'f' := by
  rcases begins with rfl | ⟨d, rfl⟩
  · decide
  · revert d
    decide

theorem readValue (n : Nat) (cs : List Char) :
    readValue (n + 1) (c :: cs) =
      (readNumeral (c :: cs)).map fun (numeral, rest) => (.number numeral, rest) := by
  obtain ⟨-, quote, bracket, brace, null, yes, no⟩ := begins.ne
  rw [Json.readValue, skipBlanks_of_not_blank begins.not_blank]
  split <;> simp_all

end BeginsNumeral

/-- A value begins with a character that is no blank and closes no array. -/
theorem exists_writeValue (j : Json) :
    ∃ c cs, writeValue j = c :: cs ∧ isBlank c = false ∧ c ≠ ']' := by
  cases j with
  | null => exact ⟨'n', _, rfl, by decide⟩
  | bool b => cases b <;> exact ⟨_, _, rfl, by decide⟩
  | number n =>
    obtain ⟨c, cs, h, begins⟩ := exists_writeNumeral n
    exact ⟨c, cs, h, begins.not_blank, begins.ne.1⟩
  | text s =>
    obtain ⟨tail, h, -⟩ := exists_writeText s
    exact ⟨'"', tail, h, by decide⟩
  | array items => cases items <;> exact ⟨'[', _, rfl, by decide⟩
  | object members => cases members <;> exact ⟨'\x7b', _, rfl, by decide⟩

/-- With so much fuel every value whose text is shorter reads back, and ends where its text does. -/
structure Reads (n : Nat) : Prop where
  value : ∀ (j : Json) (rest : List Char), (writeValue j).length < n → Apart rest →
    readValue n (writeValue j ++ rest) = some (j, rest)
  items : ∀ (item : Json) (items : List Json) (rest : List Char),
    (writeValue item ++ writeItems items).length < n →
      readItems n (writeValue item ++ writeItems items ++ rest) = some (item :: items, rest)
  members : ∀ (name : Option String) (value : Json) (members : List (Option String × Json))
    (rest : List Char),
    (writeText name ++ ':' :: (writeValue value ++ writeMembers members)).length < n →
      readMembers n (writeText name ++ ':' :: (writeValue value ++ writeMembers members) ++ rest) =
        some ((name, value) :: members, rest)

theorem apart_writeItems (items : List Json) (rest : List Char) :
    Apart (writeItems items ++ rest) := by
  intro c hc
  cases items <;> cases hc <;> decide

theorem apart_writeMembers (members : List (Option String × Json)) (rest : List Char) :
    Apart (writeMembers members ++ rest) := by
  intro c hc
  rcases members with - | ⟨⟨name, value⟩, members⟩ <;> cases hc <;> decide

section tokens

variable {n : Nat} {cs cs' rest : List Char} {item value : Json} {name : Option String}

theorem readValue_quote (n : Nat) (cs : List Char) :
    readValue (n + 1) ('"' :: cs) = (readText cs).map fun (s, rest) => (.text s, rest) := rfl

theorem readValue_bracket {c : Char} (blank : isBlank c = false) (other : c ≠ ']') :
    readValue (n + 1) ('[' :: c :: cs) =
      (readItems n (c :: cs)).map fun (items, rest) => (.array items, rest) := by
  have opens : skipBlanks ('[' :: c :: cs) = '[' :: c :: cs := rfl
  have skipped : skipBlanks (c :: cs) = c :: cs := skipBlanks_of_not_blank blank
  -- The reader looks for the end of the array first.
  have unclosed : ∀ rest, c :: cs ≠ ']' :: rest := by
    intro rest same
    exact other (List.cons.inj same).1
  simp only [readValue, opens, skipped]

theorem readValue_brace (n : Nat) (cs : List Char) :
    readValue (n + 1) ('\x7b' :: '"' :: cs) =
      (readMembers n ('"' :: cs)).map fun (members, rest) => (.object members, rest) := rfl

theorem readItems_close (first : readValue n cs = some (item, ']' :: rest)) :
    readItems (n + 1) cs = some ([item], rest) := by
  rw [readItems, first]
  rfl

theorem readItems_comma (first : readValue n cs = some (item, ',' :: rest)) :
    readItems (n + 1) cs = (readItems n rest).map fun (items, rest) => (item :: items, rest) := by
  rw [readItems, first]
  rfl

theorem readMembers_close (named : readText cs = some (name, ':' :: cs'))
    (first : readValue n cs' = some (value, '\x7d' :: rest)) :
    readMembers (n + 1) ('"' :: cs) = some ([(name, value)], rest) := by
  have opens : skipBlanks ('"' :: cs) = '"' :: cs := rfl
  have colon : skipBlanks (':' :: cs') = ':' :: cs' := rfl
  have closes : skipBlanks ('\x7d' :: rest) = '\x7d' :: rest := rfl
  simp only [readMembers, opens, named, colon, first, closes]

theorem readMembers_comma (named : readText cs = some (name, ':' :: cs'))
    (first : readValue n cs' = some (value, ',' :: rest)) :
    readMembers (n + 1) ('"' :: cs) =
      (readMembers n rest).map fun (members, rest) => ((name, value) :: members, rest) := by
  have opens : skipBlanks ('"' :: cs) = '"' :: cs := rfl
  have colon : skipBlanks (':' :: cs') = ':' :: cs' := rfl
  have comma : skipBlanks (',' :: rest) = ',' :: rest := rfl
  simp only [readMembers, opens, named, colon, first, comma]

end tokens

namespace Reads

variable {n : Nat} (reads : Reads n) {rest : List Char}

include reads

theorem items_succ (item : Json) (items : List Json)
    (short : (writeValue item ++ writeItems items).length < n + 1) :
    readItems (n + 1) (writeValue item ++ writeItems items ++ rest) =
      some (item :: items, rest) := by
  rw [List.length_append] at short
  -- The text after an item is at least its closing bracket.
  have follows : 0 < (writeItems items).length := by cases items <;> exact Nat.zero_lt_succ _
  have first := reads.value item (writeItems items ++ rest) (by omega) (apart_writeItems items rest)
  rw [List.append_assoc]
  cases items with
  | nil => exact readItems_close first
  | cons next items =>
    have others := reads.items next items rest (by simp [writeItems] at short ⊢; omega)
    have step : writeItems (next :: items) ++ rest =
        ',' :: (writeValue next ++ writeItems items ++ rest) := rfl
    rw [step] at first ⊢
    rw [readItems_comma first, others]
    rfl

theorem members_succ (name : Option String) (value : Json)
    (members : List (Option String × Json))
    (short : (writeText name ++ ':' :: (writeValue value ++ writeMembers members)).length < n + 1) :
    readMembers (n + 1)
        (writeText name ++ ':' :: (writeValue value ++ writeMembers members) ++ rest) =
      some ((name, value) :: members, rest) := by
  obtain ⟨tail, text, named⟩ := exists_writeText name
  rw [text] at short ⊢
  simp only [List.cons_append, List.length_cons, List.length_append] at short
  have follows : 0 < (writeMembers members).length := by
    rcases members with - | ⟨⟨name, value⟩, members⟩ <;> exact Nat.zero_lt_succ _
  have first := reads.value value (writeMembers members ++ rest) (by omega)
    (apart_writeMembers members rest)
  have named := named (':' :: (writeValue value ++ (writeMembers members ++ rest)))
  rw [List.cons_append, List.cons_append, List.append_assoc, List.cons_append, List.append_assoc]
  cases members with
  | nil => exact readMembers_close named first
  | cons next members =>
    have others := reads.members next.1 next.2 members rest (by
      simp [writeMembers] at short ⊢; omega)
    have step : writeMembers (next :: members) ++ rest = ',' :: (writeText next.1 ++
        ':' :: (writeValue next.2 ++ writeMembers members) ++ rest) := rfl
    rw [step] at first named ⊢
    rw [readMembers_comma named first, others]
    rfl

end Reads

theorem reads (n : Nat) : Reads n := by
  -- The text of a value is longer than the texts of the values inside, so these have less fuel.
  induction n with
  | zero =>
    constructor <;> intros <;> exact absurd ‹_ < 0› (Nat.not_lt_zero _)
  | succ n ih =>
    refine ⟨fun j rest short apart => ?_, fun item items rest => ih.items_succ item items,
      fun name value members rest => ih.members_succ name value members⟩
    cases j with
    | null => rfl
    | bool b => cases b <;> rfl
    | number m =>
      obtain ⟨c, cs, h, begins⟩ := exists_writeNumeral m
      have numeral := readNumeral_writeNumeral m apart
      rw [writeValue, h, List.cons_append, begins.readValue, ← List.cons_append, ← h, numeral]
      rfl
    | text s =>
      obtain ⟨tail, h, back⟩ := exists_writeText s
      rw [writeValue, h, List.cons_append, readValue_quote, back]
      rfl
    | array items =>
      cases items with
      | nil => rfl
      | cons item items =>
        have inside := ih.items item items rest (by simp [writeValue] at short ⊢; omega)
        obtain ⟨c, cs, h, blank, bracket⟩ := exists_writeValue item
        rw [writeValue, h, List.cons_append, List.cons_append, List.cons_append,
          readValue_bracket blank bracket]
        rw [h, List.cons_append, List.cons_append] at inside
        rw [inside]
        rfl
    | object members =>
      rcases members with - | ⟨⟨name, value⟩, members⟩
      · rfl
      · have inside := ih.members name value members rest (by simp [writeValue] at short ⊢; omega)
        obtain ⟨tail, h, -⟩ := exists_writeText name
        rw [h] at inside
        rw [writeValue, h]
        exact (readValue_brace n _).trans (congrArg _ inside)

end values

/-- Any value reads back from its text. -/
theorem read?_write (j : Json) : read? j.write = some j := by
  have whole : readValue ((writeValue j).length + 1) (writeValue j ++ []) = some (j, []) :=
    (reads _).value j [] (Nat.lt_succ_self _) apart_nil
  rw [List.append_nil] at whole
  simp [read?, write, whole, skipBlanks]

end Json
end FairShare
