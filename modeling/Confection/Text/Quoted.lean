import Confection.Text.Hex
import Confection.Text.Printable

/-!
# Quoted texts

How a message shows a character or a text that it is about.  The quote in use, the backslash and
four control characters are written with a backslash; a character that extends the one before it or
is not printable is written by its code between braces; every other character stands for itself.
A character is quoted with `'` and a text with `"`, and neither escapes the quote of the other.
-/

namespace Confection.Text

/-- How one character is written inside the given quote. -/
def escaped (quote c : Char) : Text :=
  match c with
  | '\x00' => ['\\', '0']
  | '\t' => ['\\', 't']
  | '\r' => ['\\', 'r']
  | '\n' => ['\\', 'n']
  | '\\' => ['\\', '\\']
  | c =>
    if c = quote then ['\\', c]
    else if isExtending c || !isPrintable c then
      ['\\', 'u', '\x7b'] ++ hexDigits c.toNat ++ ['\x7d']
    else [c]

/-- The character between single quotes. -/
def quotedChar (c : Char) : Text :=
  ['\''] ++ escaped '\'' c ++ ['\'']

/-- The text between double quotes. -/
def quoted (t : Text) : Text :=
  ['"'] ++ t.flatMap (escaped '"') ++ ['"']

end Confection.Text
