import Confection.Formula.Basic
import Confection.Pattern.Candidates

/-!
# The strings of a formula

The strings of a bounded formula are listed candidate by candidate.  For one candidate they are all
combinations of a value for each symbol, in lexicographic order of the values' places: the last
symbol varies fastest.  The list is lazy in both respects, since a pattern may have far more
candidates, and a candidate far more combinations, than are ever asked for.

## Shape of a combination

The combinations of a candidate are numbered from zero.  The digits of a number, in the mixed base
of the numbers of values, are the places of the values, so any combination can be made from its
number.
-/

namespace Confection

/-- The choices for the places of a string, in order. -/
abbrev Choices := List (Array Text)

namespace Choices

/-- The number of combinations. -/
def count (choices : Choices) : Nat := choices.foldl (fun n values => n * values.size) 1

/-- The combination with the given number, and what is left of the number when all choices are made.
-/
def combinationFrom (choices : Choices) (number : Nat) : Text × Nat :=
  choices.foldr
    (fun values (t, n) => (values.getD (n % values.size) [] ++ t, n / values.size)) ([], number)

/-- The combination with the given number. -/
def combination (choices : Choices) (number : Nat) : Text := (choices.combinationFrom number).1

end Choices

/-- The choices for an atom. -/
def Atom.choices (values : Array (Array Text)) : Atom → Array Text
  | .symbol i => values.getD i #[]
  | .literal c => #[[c]]

/-- A listing of strings: the values of the symbols, the choices of the current candidate with the
number of their combinations and of the next one among them, and the search for further candidates.
-/
structure Listing where
  values : Array (Array Text)
  current : Choices
  size : Nat
  number : Nat
  search : Search
  size_eq : size = current.count := by rfl

namespace Listing

/-- The listing from the start of a search, where no candidate is current. -/
def start (values : List (List Text)) (search : Search) : Listing where
  values := (values.map List.toArray).toArray
  current := []
  size := 1
  number := 1
  search := search

/-- The listing at the first combination of a candidate. -/
def atCandidate (values : Array (Array Text)) (atoms : List Atom) (search : Search) : Listing :=
  let current : Choices := atoms.map (Atom.choices values)
  { values, current, size := current.count, number := 0, search }

/-- The next string, and the listing after it. -/
def next? : Listing → Option (Text × Listing)
  | ⟨values, current, size, number, search, h⟩ =>
    if number < size then
      some (current.combination number, ⟨values, current, size, number + 1, search, h⟩)
    else
      match _h : search.next? with
      | none => none
      | some (atoms, search) => (atCandidate values atoms search).next?
termination_by l => l.search.weight
decreasing_by exact Search.weight_next?_lt _h

/-- The number of strings that a search leads to, added to `n`. -/
def countFrom (values : Array (Array Text)) (n : Nat) (search : Search) : Nat :=
  match _h : search.next? with
  | none => n
  | some (atoms, search) =>
    countFrom values (n + (atCandidate values atoms search).size) search
termination_by search.weight
decreasing_by exact Search.weight_next?_lt _h

/-- The number of strings that the listing still gives. -/
def count : Listing → Nat
  | ⟨values, _, size, number, search, _⟩ => countFrom values (size - number) search

end Listing

/-- The listing of all strings of a bounded formula. -/
def Formula.strings (f : Formula) : Except Error Listing :=
  match f.pattern.candidates? with
  | some search => .ok (.start f.legend.values search)
  | none => .error .unbounded

end Confection
