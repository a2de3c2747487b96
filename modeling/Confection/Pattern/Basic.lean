import Confection.Text.Basic

/-!
# Patterns

A pattern is a choice between alternatives, an alternative is a sequence of items, and an item is an
element with a quantifier.  An element is one of the pattern's symbols, a literal character, a
choice from a class, any printable character, or a group, which holds a pattern again.

A symbol is only a number here: the place of an ingredient in whatever table the pattern is read
with.  What is written by one pass through a pattern is a list of *atoms*, symbols and literal
characters, so a pattern can be walked without knowing what its symbols stand for.

## Shape of the recursion

`Element` is nested through two lists.  Functions on it are structurally recursive triples, one for
an element, one for a sequence and one for a list of alternatives, and `Element.byGroups` is the
induction principle for them: in a group, the property may be assumed of every element inside.
-/

namespace Confection

/-- What one character of a candidate comes from: a symbol, or the character itself. -/
inductive Atom where
  | symbol (index : Nat)
  | literal (c : Char)
deriving DecidableEq, Hashable

/-- How often an element is repeated, as written. -/
inductive Quantifier where
  | once
  | optional
  | zeroOrMore
  | oneOrMore
  | exactly (n : Nat)
  | atLeast (n : Nat)
  | between (n m : Nat)
deriving DecidableEq

namespace Quantifier

/-- The least number of repetitions. -/
def min : Quantifier → Nat
  | once | oneOrMore => 1
  | optional | zeroOrMore => 0
  | exactly n | atLeast n | between n _ => n

/-- The greatest number of repetitions, if there is one. -/
def max? : Quantifier → Option Nat
  | once | optional => some 1
  | zeroOrMore | oneOrMore | atLeast _ => none
  | exactly n | between _ n => some n

/-- The greatest number of repetitions, with the least one standing in where there is none. -/
def maxOrMin (q : Quantifier) : Nat := q.max?.getD q.min

end Quantifier

mutual

/-- A part of a pattern that a quantifier applies to. -/
inductive Element where
  | symbol (index : Nat)
  | literal (c : Char)
  | oneOf (members : List Atom)
  | any
  | group (alternatives : List (List Item))

/-- An element with its quantifier. -/
structure Item where
  quantifier : Quantifier
  element : Element

end

/-- Items, one after the other. -/
abbrev Sequence := List Item

/-- A choice between sequences. -/
abbrev Pattern := List Sequence

/-- The characters that the element `any` stands for, ascending: printable ASCII. -/
def printableAscii : List Char := (List.range' 0x20 95).map Char.ofNat

/-- An element that is just this atom. -/
def Atom.toElement : Atom → Element
  | .symbol i => .symbol i
  | .literal c => .literal c

/-! ## Equality -/

mutual

/-- Decides whether two elements are equal. -/
def Element.decEq : (a b : Element) → Decidable (a = b)
  | .symbol i, .symbol j => if h : i = j then .isTrue (by rw [h]) else .isFalse (by simpa using h)
  | .literal c, .literal d => if h : c = d then .isTrue (by rw [h]) else .isFalse (by simpa using h)
  | .oneOf m, .oneOf n => if h : m = n then .isTrue (by rw [h]) else .isFalse (by simpa using h)
  | .any, .any => .isTrue rfl
  | .group p, .group q =>
    match Pattern.decEq p q with
    | .isTrue h => .isTrue (by rw [h])
    | .isFalse h => .isFalse (by simpa using h)
  | .symbol _, .literal _ | .symbol _, .oneOf _ | .symbol _, .any | .symbol _, .group _
  | .literal _, .symbol _ | .literal _, .oneOf _ | .literal _, .any | .literal _, .group _
  | .oneOf _, .symbol _ | .oneOf _, .literal _ | .oneOf _, .any | .oneOf _, .group _
  | .any, .symbol _ | .any, .literal _ | .any, .oneOf _ | .any, .group _
  | .group _, .symbol _ | .group _, .literal _ | .group _, .oneOf _ | .group _, .any =>
    .isFalse nofun
termination_by structural a => a

/-- Decides whether two sequences are equal. -/
def Sequence.decEq : (a b : Sequence) → Decidable (a = b)
  | [], [] => .isTrue rfl
  | [], _ :: _ | _ :: _, [] => .isFalse nofun
  | ⟨q, d⟩ :: a, ⟨r, e⟩ :: b =>
    if hq : q = r then
      match Element.decEq d e, Sequence.decEq a b with
      | .isTrue h, .isTrue h' => .isTrue (by rw [hq, h, h'])
      | .isFalse h, _ => .isFalse (by simp [h])
      | _, .isFalse h => .isFalse (by simp [h])
    else .isFalse (by simp [hq])
termination_by structural a => a

/-- Decides whether two patterns are equal. -/
def Pattern.decEq : (a b : Pattern) → Decidable (a = b)
  | [], [] => .isTrue rfl
  | [], _ :: _ | _ :: _, [] => .isFalse nofun
  | s :: a, t :: b =>
    match Sequence.decEq s t, Pattern.decEq a b with
    | .isTrue h, .isTrue h' => .isTrue (by rw [h, h'])
    | .isFalse h, _ => .isFalse (by simp [h])
    | _, .isFalse h => .isFalse (by simp [h])
termination_by structural a => a

end

/-- Elements that are the same object are equal at once. -/
instance : DecidableEq Element := fun a b => withPtrEqDecEq a b fun _ => Element.decEq a b

instance : DecidableEq Item := fun ⟨q, d⟩ ⟨r, e⟩ =>
  decidable_of_iff (q = r ∧ d = e) (by simp)

/-! ## Induction -/

/-- Induction on elements: a group may assume the property of every element inside it. -/
theorem Element.byGroups {P : Element → Prop} (symbol : ∀ i, P (.symbol i))
    (literal : ∀ c, P (.literal c)) (oneOf : ∀ m, P (.oneOf m)) (any : P .any)
    (group : ∀ p : Pattern, (∀ s ∈ p, ∀ it ∈ s, P it.element) → P (.group p)) (e : Element) : P e :=
  Element.rec (motive_1 := P) (motive_2 := fun it => P it.element)
    (motive_3 := fun p => ∀ s ∈ p, ∀ it ∈ s, P it.element)
    (motive_4 := fun s => ∀ it ∈ s, P it.element)
    symbol literal oneOf any group (fun _ _ h => h) (by simp) (by simp_all) (by simp)
    (by simp_all) e

/-! ## Unbounded patterns -/

mutual

/-- Does an item inside this element lack a greatest number of repetitions? -/
def Element.isUnbounded : Element → Bool
  | .group p => Pattern.isUnbounded p
  | .symbol _ | .literal _ | .oneOf _ | .any => false
termination_by structural e => e

/-- Does an item of this sequence, at any depth, lack a greatest number of repetitions? -/
def Sequence.isUnbounded : Sequence → Bool
  | [] => false
  | ⟨q, e⟩ :: rest => q.max?.isNone || e.isUnbounded || Sequence.isUnbounded rest
termination_by structural s => s

/-- Does an item of this pattern, at any depth, lack a greatest number of repetitions? -/
def Pattern.isUnbounded : Pattern → Bool
  | [] => false
  | s :: rest => Sequence.isUnbounded s || Pattern.isUnbounded rest
termination_by structural p => p

end

theorem Sequence.isUnbounded_eq_any (s : Sequence) :
    Sequence.isUnbounded s =
      s.any fun it => it.quantifier.max?.isNone || it.element.isUnbounded := by
  induction s with
  | nil => rfl
  | cons it rest ih =>
    obtain ⟨q, e⟩ := it
    simp [Sequence.isUnbounded, ih]

theorem Pattern.isUnbounded_eq_any (p : Pattern) :
    Pattern.isUnbounded p = p.any Sequence.isUnbounded := by
  induction p with
  | nil => rfl
  | cons s rest ih => simp [Pattern.isUnbounded, ih]

end Confection
