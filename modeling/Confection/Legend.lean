import Confection.Error
import Confection.Pantry.Basic

/-!
# The legend of a recipe

In a pattern every ingredient is written as one letter.  The legend says which letter stands for
which ingredient: longer names come first, names of the same length in the order of the pantry, and
the letters are given out in the order `a` to `z`, `A` to `Z`.  The place of an ingredient in the
legend is the number of its symbol in the pattern.
-/

namespace Confection

/-- The letters that can stand for an ingredient, in the order in which they are used. -/
def letters : List Char :=
  ['a', 'b', 'c', 'd', 'e', 'f', 'g', 'h', 'i', 'j', 'k', 'l', 'm',
   'n', 'o', 'p', 'q', 'r', 's', 't', 'u', 'v', 'w', 'x', 'y', 'z',
   'A', 'B', 'C', 'D', 'E', 'F', 'G', 'H', 'I', 'J', 'K', 'L', 'M',
   'N', 'O', 'P', 'Q', 'R', 'S', 'T', 'U', 'V', 'W', 'X', 'Y', 'Z']

/-- Letters with the ingredients that they stand for, in the order of the letters. -/
structure Legend where
  entries : List (Char × Ingredient)
deriving DecidableEq

namespace Legend

/-- The number of ingredients. -/
def size (l : Legend) : Nat := l.entries.length

/-- Is there no ingredient? -/
def isEmpty (l : Legend) : Bool := l.entries.isEmpty

/-- The letters in use, in order. -/
def symbols (l : Legend) : List Char := l.entries.map (·.1)

/-- The values of each ingredient, in the order of the letters. -/
def values (l : Legend) : List (List Text) := l.entries.map (·.2.values)

/-- Each letter as the only value of its ingredient. -/
def selfValues (l : Legend) : List (List Text) := l.symbols.map fun c => [[c]]

/-- The letter for the ingredient with the given name. -/
def letterOf? (l : Legend) (name : Text) : Option Char :=
  (l.entries.find? (·.2.name == name)).map (·.1)

/-- The number of the symbol that the letter stands for. -/
def indexOf? (l : Legend) (c : Char) : Option Nat := l.symbols.idxOf? c

/-- The letter of the symbol with the given number. -/
def letterAt? (l : Legend) (i : Nat) : Option Char := l.symbols[i]?

/-- The order in which ingredients get their letters: by length of the name, longest first, and
otherwise as they are in the pantry. -/
def assignmentOrder (p : Pantry) : List Ingredient :=
  p.ingredients.mergeSort fun a b => b.name.length ≤ a.name.length

/-- Gives every ingredient of the pantry a letter.  Every ingredient must have values. -/
def ofPantry (p : Pantry) : Except Error Legend :=
  if letters.length < p.size then .error (.tooManyIngredients p.size)
  else
    let ordered := assignmentOrder p
    match ordered.find? (·.values.isEmpty) with
    | some i => .error (.emptyIngredient i.name)
    | none => .ok ⟨letters.zip ordered⟩

end Legend

end Confection
