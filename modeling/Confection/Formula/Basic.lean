import Confection.Pattern.Matching
import Confection.Pattern.Reading
import Confection.Spelling

/-!
# Formulas

A formula is what a recipe comes down to: a pattern, the text it was read from, and the legend that
says what its symbols stand for.  Two kinds of strings belong to it.  A *candidate* has one
character for each atom that the pattern writes, the letter of the legend standing for a symbol.  A
*string* has values in the place of the letters.

How a line is read as a formula, and how strings are made from it, is up to the settings.
-/

namespace Confection

/-- The settings of a recipe. -/
structure Settings where
  /-- How many candidates are tried for given length bounds; at least one is. -/
  attempts : Nat := 100
  /-- The greatest number of repetitions in a random string where the pattern gives none. -/
  repeatLimit : Nat := 100
  /-- How deep groups may be nested. -/
  maxNesting : Nat := 64
  /-- What a second definition of an ingredient does. -/
  duplicates : Duplicates := .lastWins
deriving DecidableEq

/-- A pattern with its text and the legend for its symbols. -/
structure Formula where
  text : Text
  pattern : Pattern
  legend : Legend

namespace Formula

/-- The formula of a pattern line with ingredients from the pantry. -/
def ofLine (line : Text) (pantry : Pantry) (settings : Settings) : Except Error Formula := do
  let legend ← Legend.ofPantry pantry
  let text := legend.spell line
  match Pattern.parse text legend.symbols settings.maxNesting with
  | .ok pattern => return { text, pattern, legend }
  | .error e => throw (.pattern e)

/-- Is this one of the strings of the formula? -/
def accepts (f : Formula) (t : Text) : Bool := f.pattern.accepts f.legend.values t

/-- Is this one of the candidates of the formula? -/
def acceptsCandidate (f : Formula) (t : Text) : Bool := f.pattern.accepts f.legend.selfValues t

end Formula

end Confection
