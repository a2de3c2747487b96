import Confection.Document
import Confection.Pantry.Basic

/-!
# Expressions

The expression that defines an ingredient is a list of tokens separated by blanks, and its values
are those of its tokens in order.  A token means, in this order of precedence:

* the name of an ingredient in the pantry: the values of that ingredient;
* two or more characters with a hyphen: the characters from one endpoint to the other, each endpoint
  being a character or the hexadecimal code of one;
* one character: itself;
* anything else: the character with that hexadecimal code.

A name that is declared but has no values yet is an error.  Definitions are resolved one by one, so
an expression can use ingredients that are defined before it, and its own name where that has been
defined before.
-/

namespace Confection

/-- The code that the endpoint of a range stands for. -/
def endpoint? : Text → Option Nat
  | [] => none
  | [c] => some c.toNat
  | t => (Text.hex? t).filter fun n => (Text.scalar? n).isSome

/-- The characters of a range, such as `a-e` or `0C15-0C28`. -/
def range? (token : Text) : Option (List Char) := do
  let (first, last) ← token.splitAtFirst '-'
  if '-' ∈ last then none
  else
    let lo ← endpoint? first
    let hi ← endpoint? last
    if lo ≤ hi then some (Text.scalarsBetween lo hi) else none

/-- The character that a token stands for. -/
def literal? : Text → Option Char
  | [c] => some c
  | t => (Text.hex? t).bind Text.scalar?

namespace Pantry

/-- The values of one token in the expression of the given ingredient.  `declared` are the names
that have a definition. -/
def tokenValues (p : Pantry) (declared : List Text) (ingredient token : Text) :
    Except Error (List Text) :=
  match p.get? token with
  | some found => .ok found.values
  | none =>
    if token ∈ declared then .error (.unresolvedReference ingredient token)
    else if 1 < token.length && token.contains '-' then
      match range? token with
      | some cs => .ok (cs.map ([·]))
      | none => .error (.invalidRange ingredient token)
    else
      match literal? token with
      | some c => .ok [[c]]
      | none => .error (.invalidCodepoint ingredient token)

/-- The values of an expression. -/
def expressionValues (p : Pantry) (declared : List Text) (ingredient expression : Text) :
    Except Error (List Text) := do
  return (← expression.words.mapM (p.tokenValues declared ingredient)).flatten

/-- Puts a defined ingredient into the pantry. -/
def define (duplicates : Duplicates) (declared : List Text) (p : Pantry) (d : Definition) :
    Except Error Pantry :=
  if duplicates = .reject && p.contains d.name then .error (.duplicateIngredient d.name)
  else do
    let values ← p.expressionValues declared d.name d.expression
    return p.insert { name := d.name, values }

/-- The pantry with these definitions. -/
def resolve (definitions : List Definition) (duplicates : Duplicates) : Except Error Pantry :=
  definitions.foldlM (define duplicates (definitions.map (·.name))) empty

end Pantry

end Confection
