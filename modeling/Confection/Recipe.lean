import Confection.Formula.Sampling
import Confection.Formula.Strings
import Confection.Pantry.Expression

/-!
# Recipes

A recipe that is ready for use: its pattern line, its ingredients, the formula that these make, and
the settings it was read with.  A recipe comes from a document, or from a pattern line and a pantry.
-/

namespace Confection

/-- A recipe that is ready for use. -/
structure Recipe where
  line : Text
  pantry : Pantry
  formula : Formula
  settings : Settings

namespace Recipe

/-- The recipe with this pattern line and these ingredients. -/
def ofParts (line : Text) (pantry : Pantry) (settings : Settings) : Except Error Recipe := do
  return { line, pantry, formula := ← Formula.ofLine line pantry settings, settings }

/-- The recipe that a document describes. -/
def ofText (t : Text) (settings : Settings) : Except Error Recipe := do
  let document ← Document.parse t
  let pantry ← Pantry.resolve document.definitions settings.duplicates
  ofParts document.pattern pantry settings

/-- Draws a number of strings. -/
def samples {σ : Type} [WordSource σ] (r : Recipe) (bounds : LengthBounds) (n : Nat) (s : σ) :
    List Sample × σ :=
  r.formula.samples r.settings bounds n s

end Recipe

end Confection
