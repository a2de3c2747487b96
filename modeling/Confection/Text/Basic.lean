/-!
# Texts

A text is the list of its characters, so every length counts characters.  This module holds the
ways to take a text apart: at every character of a kind, and at the first occurrence of one.

The character classes that reach beyond ASCII are tables of ranges of character codes.  A table is
data: the modules that hold one say which Unicode property it lists.  The blank characters are few,
and stand here: they separate words, surround lines without changing them, and are layout in a
pattern unless they are escaped.

## Shape of the splitting functions

* `splitWhere` cuts at every separator and keeps empty pieces, so `n` separators give `n + 1`
  pieces.
* `lines` is `splitWhere` at line feeds.
* `splitAtFirst` cuts once and drops the separator.
* `words` are the pieces between blanks that are not empty.
-/

namespace Confection

/-- A text is the list of its characters. -/
abbrev Text := List Char

/-- Characters are hashed in one way in all tables, also where an import brings another one. -/
instance (priority := high) hashableChar : Hashable Char := instHashableChar

namespace Text

/-- Puts a character in front of the first of a list of pieces. -/
def consFirst (c : Char) : List Text → List Text
  | [] => [[c]]
  | piece :: pieces => (c :: piece) :: pieces

/-- The pieces of a text between the characters for which `sep` holds. -/
def splitWhere (sep : Char → Bool) (t : Text) : List Text :=
  t.foldr (fun c pieces => if sep c then [] :: pieces else consFirst c pieces) [[]]

@[simp] theorem splitWhere_nil (sep : Char → Bool) : splitWhere sep [] = [[]] := rfl

theorem splitWhere_cons (sep : Char → Bool) (c : Char) (t : Text) :
    splitWhere sep (c :: t) =
      if sep c then [] :: splitWhere sep t else consFirst c (splitWhere sep t) := rfl

/-- The lines of a text: its pieces between line feeds. -/
def lines (t : Text) : List Text := t.splitWhere (· == '\n')

/-- The text before and after the first `sep`, if there is one. -/
def splitAtFirst (sep : Char) (t : Text) : Option (Text × Text) :=
  match t.span (· != sep) with
  | (_, []) => none
  | (before, _ :: after) => some (before, after)

/-- Has the character the Unicode property White_Space? -/
def isBlank (c : Char) : Bool :=
  let n := c.toNat
  (0x09 ≤ n && n ≤ 0x0D) || n == 0x20 || n == 0x85 || n == 0xA0 || n == 0x1680 ||
    (0x2000 ≤ n && n ≤ 0x200A) || n == 0x2028 || n == 0x2029 || n == 0x202F || n == 0x205F ||
    n == 0x3000

/-- The text without the blank characters at its two ends. -/
def trim (t : Text) : Text :=
  ((t.dropWhile isBlank).reverse.dropWhile isBlank).reverse

/-- The words of a text: its maximal runs of characters that are not blank. -/
def words (t : Text) : List Text :=
  (t.splitWhere isBlank).filter (!·.isEmpty)

/-- Ranges of character codes, both ends included. -/
abbrev CodeRanges := List (Nat × Nat)

/-- Is the character's code in one of the ranges? -/
def CodeRanges.contains (ranges : CodeRanges) (c : Char) : Bool :=
  ranges.any fun (lo, hi) => lo ≤ c.toNat && c.toNat ≤ hi

end Text

end Confection
