import Confection.Pattern.Error
import Confection.Text.Hex

/-!
# Tokens of a pattern

The first step in reading a pattern resolves the backslash escapes, so that later steps see one
token where the pattern has an escape of two to four characters.  A token for a written character
also carries the symbol that the character stands for.  Whether the character is then read as a
symbol, as a mark or as itself depends on where it stands, and is decided later.

An escape that is not complete or has no meaning becomes a token `malformed`.  It is an error only
if the reading gets as far as it: a pattern is refused for its first mistake.
-/

namespace Confection.Pattern

/-- What a backslash escape stands for: a character, or a set of them. -/
inductive Escape where
  | char (c : Char)
  | set (members : List Char)
deriving DecidableEq

namespace Escape

/-- The ASCII characters with codes from that of `lo` to that of `hi`. -/
private def span (lo hi : Char) : List Char := Text.scalarsBetween lo.toNat hi.toNat

/-- The digits, for `\d`. -/
def digits : List Char := span '0' '9'

/-- Letters, digits and the underscore, for `\w`. -/
def wordChars : List Char := span 'a' 'z' ++ span 'A' 'Z' ++ digits ++ ['_']

/-- ASCII white space, for `\s`. -/
def spaces : List Char := [' ', '\t', '\n', '\r', '\x0b', '\x0c']

/-- What the escape with this character stands for, `\x` excepted: letters and digits have the
listed meanings or none, and every other character stands for itself. -/
def ofChar? : Char → Option Escape
  | 't' => some (.char '\t')
  | 'n' => some (.char '\n')
  | 'r' => some (.char '\r')
  | 'f' => some (.char '\x0c')
  | 'v' => some (.char '\x0b')
  | '0' => some (.char '\x00')
  | 'd' => some (.set digits)
  | 'w' => some (.set wordChars)
  | 's' => some (.set spaces)
  | c => if c.isAlphanum then none else some (.char c)

end Escape

/-- A written character with the symbol it may stand for, a resolved escape, or the reason why an
escape cannot be resolved. -/
inductive Token where
  | char (c : Char) (symbol : Option Nat)
  | escape (e : Escape)
  | malformed (e : Error)
deriving DecidableEq

namespace Token

/-- The first character of the text that the token was read from. -/
def lead : Token → Char
  | char c _ => c
  | escape _ | malformed _ => '\\'

/-- Is the token the unescaped character `c`? -/
def isMark (c : Char) : Token → Bool
  | char d _ => d == c
  | escape _ | malformed _ => false

/-- Is the token an unescaped digit? -/
def isDigit : Token → Bool
  | char c _ => c.isDigit
  | escape _ | malformed _ => false

/-- The token of a hexadecimal escape with these two digits. -/
def ofHex (a b : Char) : Token :=
  match Text.hexDigit? a, Text.hexDigit? b with
  | some m, some n => escape (.char (Char.ofNat (16 * m + n)))
  | none, _ => malformed (.unexpectedChar a)
  | some _, none => malformed (.unexpectedChar b)

/-- The token of an escape with this character, `\x` excepted. -/
def ofEscape (c : Char) : Token :=
  match Escape.ofChar? c with
  | some e => escape e
  | none => malformed (.unsupportedEscape c)

end Token

/-- The tokens of a pattern's text, where a character is symbol `i` if it is the `i`-th of
`symbols`. -/
def tokens (symbols : List Char) : Text → List Token
  | [] => []
  | c :: rest =>
    if c = '\\' then
      match rest with
      | [] => [.malformed .unexpectedEnd]
      | d :: rest =>
        if d = 'x' then
          match rest with
          | [] => [.malformed .unexpectedEnd]
          | [a] =>
            [.malformed (if (Text.hexDigit? a).isSome then .unexpectedEnd else .unexpectedChar a)]
          | a :: b :: rest => .ofHex a b :: tokens symbols rest
        else .ofEscape d :: tokens symbols rest
    else .char c (symbols.idxOf? c) :: tokens symbols rest

end Confection.Pattern
