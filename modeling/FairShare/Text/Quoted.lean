import FairShare.Text.Escape
import FairShare.Text.Hex
import FairShare.Text.Hidden

/-!
Quoted text.  A text is put between double quotes, with escapes for the quote, the backslash and
the characters that show nothing.
-/

namespace FairShare.Text

/-- Whether a character is shown as it is. -/
def isShown (c : Char) : Bool :=
  if c.toNat < 0x80 then 0x20 ≤ c.toNat && c.toNat ≠ 0x7f else !isHidden c

/-- The characters within quotes that have an escape of one letter. -/
def quotedEscapes : Escapes :=
  [('\x00', '0'), ('\t', 't'), ('\n', 'n'), ('\r', 'r'), ('"', '"'), ('\\', '\\')]

def escape (c : Char) : List Char :=
  match quotedEscapes.letter? c with
  | some letter => ['\\', letter]
  | none =>
    if isShown c then [c] else '\\' :: 'u' :: '\x7b' :: hexDigits c.toNat ++ ['\x7d']

def quoted (s : String) : String := String.ofList ('"' :: s.toList.flatMap escape ++ ['"'])

end FairShare.Text
