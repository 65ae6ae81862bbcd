/-!
Escapes of one letter.  A table of escapes says which letter stands for a character after a
backslash; it is read in both directions.
-/

namespace FairShare.Text

/-- Characters with the letters that stand for them after a backslash. -/
abbrev Escapes := List (Char × Char)

namespace Escapes

def letter? (table : Escapes) (c : Char) : Option Char :=
  (table.find? fun e => e.1 = c).map Prod.snd

def char? (table : Escapes) (letter : Char) : Option Char :=
  (table.find? fun e => e.2 = letter).map Prod.fst

end Escapes
end FairShare.Text
