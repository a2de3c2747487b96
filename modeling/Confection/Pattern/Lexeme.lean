import Confection.Pattern.Bounds
import Confection.Pattern.CharClass

/-!
# Lexemes of a pattern

The second step in reading a pattern gathers tokens into the units that its structure is made of:
whole elements (a class is one of them), the marks for groups and alternatives, and whole
quantifiers.  What a lexeme is does not depend on where it stands, so the structure can be read from
the list of lexemes alone.

A mistake inside a lexeme belongs to the lexeme and ends the list.  Whether it is the mistake that
the pattern is refused for is decided when the structure is read: braces with nothing to repeat
before them are refused for that, whatever they hold.
-/

namespace Confection.Pattern

/-- One unit of a pattern's structure. -/
inductive Lexeme where
  /-- An element other than a group. -/
  | element (e : Element)
  /-- The start of a group. -/
  | opening
  /-- The end of a group. -/
  | closing
  /-- The bar between alternatives. -/
  | bar
  /-- A quantifier by its first character, and what it says. -/
  | repetition (mark : Char) (q : Except Error Quantifier)
  /-- A mistake that leaves no lexeme to read. -/
  | malformed (e : Error)

/-- The tokens after the opening of a group, whose parenthesis comes before the given ones: the
opening may be written with `?:`. -/
def readOpening : List Token → Except Error (List Token)
  | [] => .ok []
  | t :: rest => if t.isMark '?' then Bounds.expect ':' rest else .ok (t :: rest)

private theorem length_readOpening {ts rest : List Token} (h : readOpening ts = .ok rest) :
    rest.length ≤ ts.length := by
  cases ts with
  | nil => simp_all [readOpening]
  | cons t ts =>
    simp only [readOpening] at h
    split at h
    · have := Bounds.length_expect h
      simp; omega
    · simp_all

/-- The lexemes of a list of tokens. -/
def lexemes : List Token → List Lexeme
  | [] => []
  | .malformed e :: _ => [.malformed e]
  | .escape (.char c) :: rest => .element (.literal c) :: lexemes rest
  | .escape (.set cs) :: rest => .element (.oneOf (cs.map .literal)) :: lexemes rest
  | .char c i :: rest =>
    match c with
    | '(' =>
      match _h : readOpening rest with
      | .ok beyond => .opening :: lexemes beyond
      | .error e => [.malformed e]
    | ')' => .closing :: lexemes rest
    | '|' => .bar :: lexemes rest
    | '[' =>
      match _h : readClass rest with
      | .ok (members, beyond) => .element (.oneOf members) :: lexemes beyond
      | .error e => [.malformed e]
    | '.' => .element .any :: lexemes rest
    | '?' => .repetition '?' (.ok .optional) :: lexemes rest
    | '*' => .repetition '*' (.ok .zeroOrMore) :: lexemes rest
    | '+' => .repetition '+' (.ok .oneOrMore) :: lexemes rest
    | '\x7b' =>
      match _h : Bounds.read rest with
      | .ok (q, beyond) => .repetition '\x7b' (.ok q) :: lexemes beyond
      | .error e => [.repetition '\x7b' (.error e)]
    | c => .element (atomOf c i).toElement :: lexemes rest
termination_by ts => ts.length
decreasing_by
  all_goals simp only [List.length_cons]
  all_goals
    first
    | have := length_readOpening _h; omega
    | have := length_readClass _h; omega
    | have := Bounds.length_read _h; omega
    | omega

end Confection.Pattern
