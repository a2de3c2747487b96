import Confection.Text.Quoted

/-!
# What can be wrong with a pattern

Each constructor is one cause for which a pattern cannot be read, with what a reader of the message
needs to find it.  `Pattern.Error.message` holds the wording.
-/

namespace Confection.Pattern

/-- Why a pattern cannot be read. -/
inductive Error where
  /-- A character stands where the pattern cannot go on with it. -/
  | unexpectedChar (c : Char)
  /-- The pattern ends inside an escape, a group opening or a quantifier. -/
  | unexpectedEnd
  /-- A number in a quantifier does not fit into 64 bits. -/
  | numberTooLarge
  /-- A group is still open at the end. -/
  | unclosedGroup
  /-- A class is still open at the end. -/
  | unclosedClass
  /-- A class has no members. -/
  | emptyClass
  /-- A range in a class runs downwards. -/
  | descendingRange (lo hi : Char)
  /-- A class starts with a circumflex. -/
  | negatedClass
  /-- A quantifier in braces has no number, or its bounds run downwards. -/
  | invalidBounds
  /-- A quantifier has no element before it, or follows another quantifier. -/
  | nothingToRepeat (mark : Char)
  /-- Groups are nested deeper than the limit. -/
  | nestedTooDeep (limit : Nat)
  /-- A letter or digit without a meaning of its own is escaped. -/
  | unsupportedEscape (c : Char)
  /-- An escape for a set of characters stands at an end of a range. -/
  | setInRange
deriving DecidableEq

/-- The error in words. -/
def Error.message : Error → String
  | unexpectedChar c => "Unexpected character in pattern: " ++ String.ofList (Text.quotedChar c)
  | unexpectedEnd => "Unexpected end of pattern"
  | numberTooLarge => "Invalid number in pattern"
  | unclosedGroup => "Unclosed group '(' in pattern"
  | unclosedClass => "Unclosed character class '[' in pattern"
  | emptyClass => "Empty character class in pattern"
  | descendingRange lo hi =>
    "Invalid character class range " ++ String.ofList (Text.quotedChar lo) ++ "-" ++
      String.ofList (Text.quotedChar hi)
  | negatedClass => "Negated character classes are not supported"
  | invalidBounds => "Invalid quantifier range \x7bn,m\x7d"
  | nothingToRepeat mark =>
    "Quantifier " ++ String.ofList (Text.quotedChar mark) ++ " has nothing to repeat"
  | nestedTooDeep limit => "Groups nested deeper than " ++ toString limit ++ " levels"
  | unsupportedEscape c => "Unsupported escape \\" ++ c.toString
  | setInRange => "Class escape used as a range endpoint"

end Confection.Pattern
