import Confection.Legend
import Confection.Text.Alphanumeric
import Confection.Text.Hex

/-!
# From a recipe's pattern line to the text of a pattern

The pattern line of a recipe names ingredients in full and may be laid out with blanks.  It is cut
into pieces, and every piece is spelled in the letters of a legend.  A word, a maximal run of
identifier characters, becomes one letter if it is the name of an ingredient.  Otherwise its
characters are literal, and those that are letters of the legend are written as escapes, since they
would be read as symbols.

## Shape of the pieces

* A backslash and the character after it are one piece and stay as they are.
* Between the braces of a quantifier nothing is a word.  Whether a brace starts a quantifier depends
  on whether it stands in a class, and whether a bracket starts a class depends on the braces, so
  the cutting keeps track of both.
* A blank is no piece, but it ends a word.
-/

namespace Confection

/-- A part of a pattern line. -/
inductive Piece where
  /-- A backslash with the character after it, if there is one. -/
  | escape (c : Option Char)
  /-- A character that stands for itself or is a mark of the pattern. -/
  | verbatim (c : Char)
  /-- A run of identifier characters. -/
  | word (w : Text)
deriving DecidableEq

/-- What surrounds a place in a pattern line. -/
inductive Surroundings where
  | plain
  | inClass
  | inBraces
deriving DecidableEq

namespace Surroundings

/-- What surrounds the next place after an unescaped character. -/
def after (s : Surroundings) (c : Char) : Surroundings :=
  match s, c with
  | .plain, '[' => .inClass
  | .plain, '\x7b' => .inBraces
  | .inClass, ']' => .plain
  | .inBraces, '\x7d' => .plain
  | s, _ => s

end Surroundings

namespace Piece

/-- The word that is complete, if any of it has been read; its characters are given last first. -/
def ofWord (reversed : Text) : List Piece :=
  if reversed.isEmpty then [] else [.word reversed.reverse]

/-- The pieces of a line from a place on, with the characters, last first, of the word that reaches
up to this place. -/
def cut (s : Surroundings) (reversed : Text) : Text → List Piece
  | [] => ofWord reversed
  | c :: rest =>
    if c = '\\' then
      match rest with
      | [] => ofWord reversed ++ [.escape none]
      | d :: rest => ofWord reversed ++ .escape d :: cut s [] rest
    else if Text.isBlank c then ofWord reversed ++ cut s [] rest
    else if s ≠ .inBraces && Text.isIdentifierChar c then cut s (c :: reversed) rest
    else ofWord reversed ++ .verbatim c :: cut (s.after c) [] rest

/-- The pieces of a pattern line. -/
def ofLine (t : Text) : List Piece := cut .plain [] t

/-- A literal character in the text of a pattern with the given legend. -/
def spellLiteral (l : Legend) (c : Char) : Text :=
  if (l.indexOf? c).isSome then '\\' :: 'x' :: Text.twoHexDigits c.toNat else [c]

/-- The piece in the text of a pattern with the given legend. -/
def spell (l : Legend) : Piece → Text
  | .escape c => '\\' :: c.toList
  | .verbatim c => [c]
  | .word w =>
    match l.letterOf? w with
    | some c => [c]
    | none => w.flatMap (spellLiteral l)

end Piece

/-- The text of the pattern on a recipe's pattern line. -/
def Legend.spell (l : Legend) (line : Text) : Text :=
  (Piece.ofLine line).flatMap (Piece.spell l)

end Confection
