import Confection.Error
import Confection.Text.Alphanumeric

/-!
# Recipe documents

A document is read line by line.  Blank characters around a line do not count, a carriage return
before the line feed being one of them, and empty lines and lines that start with a hash are
skipped.  The first line that is left is the pattern.  Each line after it defines an ingredient: an
identifier, an equals sign, and an expression that is not empty.  The expression may contain further
equals signs.
-/

namespace Confection

/-- The definition of an ingredient, with the number of its line. -/
structure Definition where
  name : Text
  expression : Text
  line : Nat
deriving DecidableEq

/-- The definition on a trimmed line. -/
def Definition.ofLine? (line : Nat) (t : Text) : Option Definition := do
  let (before, after) ← t.splitAtFirst '='
  let name := before.trim
  let expression := after.trim
  if name.isIdentifier && !expression.isEmpty then some { name, expression, line } else none

/-- A pattern and the definitions of its ingredients. -/
structure Document where
  pattern : Text
  definitions : List Definition
deriving DecidableEq

namespace Document

/-- Does the trimmed line say anything? -/
def isSignificant (line : Text) : Bool := !line.isEmpty && line.head? != some '#'

/-- The trimmed lines that say something, with their numbers, counted from one. -/
def significantLines (t : Text) : List (Nat × Text) :=
  ((t.lines.map Text.trim).zipIdx 1).filterMap fun (line, number) =>
    if isSignificant line then some (number, line) else none

/-- The definition on a numbered line. -/
def readDefinition : Nat × Text → Except Error Definition
  | (number, line) =>
    match Definition.ofLine? number line with
    | some d => .ok d
    | none => .error (.malformedIngredient number line)

/-- Reads a document. -/
def parse (t : Text) : Except Error Document :=
  match significantLines t with
  | [] => .error .missingPattern
  | (_, pattern) :: rest => do
    let definitions ← rest.mapM readDefinition
    return { pattern, definitions }

end Document

end Confection
