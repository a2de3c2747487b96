import Confection.Pattern.Error

/-!
# What can be wrong with a recipe

Each constructor of `Error` is one cause for which a recipe cannot be used, or cannot be used in the
way that was asked for.  `Error.message` holds the wording.
-/

namespace Confection

/-- Why a recipe cannot be used. -/
inductive Error where
  /-- A document has no line for the pattern. -/
  | missingPattern
  /-- A line after the pattern, here trimmed, is not a definition. -/
  | malformedIngredient (line : Nat) (text : Text)
  /-- An ingredient's expression names an ingredient that has no values yet. -/
  | unresolvedReference (ingredient reference : Text)
  /-- A token with a hyphen is not a range. -/
  | invalidRange (ingredient token : Text)
  /-- A token is not the code of a character. -/
  | invalidCodepoint (ingredient token : Text)
  /-- An ingredient is defined again where that is not allowed. -/
  | duplicateIngredient (ingredient : Text)
  /-- An ingredient has no values. -/
  | emptyIngredient (ingredient : Text)
  /-- There are more ingredients than letters to stand for them. -/
  | tooManyIngredients (count : Nat)
  /-- The strings of a pattern cannot be listed, since a repetition has no greatest number. -/
  | unbounded
  /-- No attempt at a string met the length bounds. -/
  | exhausted (attempts : Nat)
  /-- The pattern cannot be read. -/
  | pattern (e : Pattern.Error)
deriving DecidableEq

/-- The error in words. -/
def Error.message : Error → String
  | missingPattern => "Couldn't find a recipe pattern"
  | malformedIngredient line text =>
    "Couldn't parse ingredient on line " ++ toString line ++ ": " ++
      String.ofList (Text.quoted text)
  | unresolvedReference ingredient reference =>
    "Ingredient '" ++ String.ofList ingredient ++ "' refers to '" ++ String.ofList reference ++
      "' before it is defined"
  | invalidRange ingredient token =>
    "Invalid range '" ++ String.ofList token ++ "' in ingredient '" ++ String.ofList ingredient ++
      "'"
  | invalidCodepoint ingredient token =>
    "Invalid codepoint '" ++ String.ofList token ++ "' in ingredient '" ++
      String.ofList ingredient ++ "'"
  | duplicateIngredient ingredient =>
    "Ingredient '" ++ String.ofList ingredient ++ "' is defined more than once"
  | emptyIngredient ingredient => "Ingredient '" ++ String.ofList ingredient ++ "' has no values"
  | tooManyIngredients count =>
    "Too many ingredients: " ++ toString count ++ " (at most 52 are supported)"
  | unbounded => "Pattern has an unbounded repetition and cannot be enumerated"
  | exhausted attempts =>
    "No candidate met the length constraints in " ++ toString attempts ++ " attempts"
  | pattern e => e.message

end Confection
