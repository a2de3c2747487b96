import Confection.Draw.Uniform
import Confection.Formula.Basic

/-!
# Random strings of a formula

A candidate is drawn by walking through the pattern and choosing at random wherever there is a
choice: an alternative, a member of a class, a printable character, the number of repetitions.
Candidates are drawn until one meets the length bounds or the attempts are used up; the last one
then counts, and the sample says that it does not satisfy the bounds.  At the end every symbol of
the candidate gets a value of its own, drawn from left to right.

The bounds are on the length of the candidate.

## Order of the draws

A pattern draws its alternative and then what that holds from left to right.  An item draws its
number of repetitions first, also where only one is possible.  A literal and a symbol draw nothing.
-/

namespace Confection

variable {σ : Type} [WordSource σ]

/-- The atoms written so far, last first, and the source that is left. -/
abbrev Writing (σ : Type) := List Atom × σ

namespace Writing

/-- Writes an atom that has been drawn. -/
def add (w : Writing σ) (drawn : σ → Option Atom × σ) : Writing σ :=
  match drawn w.2 with
  | (some a, s) => (a :: w.1, s)
  | (none, s) => (w.1, s)

end Writing

/-- The number of repetitions of a quantifier, at most `limit` or the least number where it gives no
greatest one. -/
def Quantifier.draw (limit : Nat) (q : Quantifier) (s : σ) : Nat × σ :=
  Draw.between q.min (q.max?.getD (max limit q.min)) s

mutual

/-- Writes the element once. -/
def Element.write (limit : Nat) : Element → Writing σ → Writing σ
  | .symbol i, (written, s) => (.symbol i :: written, s)
  | .literal c, (written, s) => (.literal c :: written, s)
  | .oneOf members, w => w.add (Draw.choose members)
  | .any, w => w.add fun s => (Draw.printable s).map (·.map .literal) id
  | .group p, (written, s) =>
    let (i, s) := Draw.choose (List.range p.length) s
    Pattern.writeAlternative limit p (i.getD 0) (written, s)
termination_by structural e => e

/-- Writes the items of the sequence, each as often as is drawn. -/
def Sequence.write (limit : Nat) : Sequence → Writing σ → Writing σ
  | [], w => w
  | ⟨q, e⟩ :: rest, (written, s) =>
    let (n, s) := q.draw limit s
    Sequence.write limit rest (Nat.repeat (e.write limit) n (written, s))
termination_by structural s => s

/-- Writes the alternative with the given number. -/
def Pattern.writeAlternative (limit : Nat) : Pattern → Nat → Writing σ → Writing σ
  | [], _, w => w
  | s :: _, 0, w => Sequence.write limit s w
  | _ :: rest, i + 1, w => Pattern.writeAlternative limit rest i w
termination_by structural p => p

end

/-- Writes an alternative of the pattern that is chosen at random. -/
def Pattern.draw (limit : Nat) (p : Pattern) (s : σ) : List Atom × σ :=
  let (written, s) := Element.write limit (.group p) ([], s)
  (written.reverse, s)

/-- A candidate, the number of attempts it took, and whether it meets the bounds. -/
structure Attempt where
  atoms : List Atom
  attempts : Nat
  satisfied : Bool

/-- Draws candidates until one has a length that fits, up to `further` times after the first one.
`made` attempts have been made before. -/
def Pattern.drawFitting (limit : Nat) (p : Pattern) (fits : Nat → Bool) :
    (further made : Nat) → σ → Attempt × σ
  | 0, made, s =>
    let (atoms, s) := p.draw limit s
    (⟨atoms, made + 1, fits atoms.length⟩, s)
  | further + 1, made, s =>
    let (atoms, s) := p.draw limit s
    if fits atoms.length then (⟨atoms, made + 1, true⟩, s)
    else p.drawFitting limit fits further (made + 1) s

/-- The text that an atom becomes. -/
def Atom.draw (values : List (List Text)) : Atom → σ → Text × σ
  | .symbol i, s => (Draw.choose (values.getD i []) s).map (·.getD []) id
  | .literal c, s => ([c], s)

/-- The texts that the atoms become, drawn from left to right; those before them come last first. -/
def drawTexts (values : List (List Text)) (atoms : List Atom) (s : σ) : List Text × σ :=
  atoms.foldl (fun (texts, s) a => (a.draw values s).map (· :: texts) id) ([], s)

/-- Bounds on a number of characters. -/
structure LengthBounds where
  min : Option Nat := none
  max : Option Nat := none

/-- Does a number of characters lie within the bounds? -/
def LengthBounds.admit (b : LengthBounds) (length : Nat) : Bool :=
  b.min.all (· ≤ length) && b.max.all (length ≤ ·)

/-- A random string. -/
structure Sample where
  /-- The string. -/
  text : Text
  /-- The candidate that it was made from. -/
  candidate : Text
  /-- How many candidates were drawn. -/
  attempts : Nat
  /-- Whether the candidate meets the length bounds. -/
  satisfied : Bool

/-- The string, if the bounds are met. -/
def Sample.strict (s : Sample) : Except Error Text :=
  if s.satisfied then .ok s.text else .error (.exhausted s.attempts)

/-- The character that stands for the atom in a candidate. -/
def Legend.character (l : Legend) : Atom → Option Char
  | .symbol i => l.letterAt? i
  | .literal c => some c

/-- The sample that is made from a candidate: each symbol gets a value that is drawn from the
source. -/
def Formula.complete (f : Formula) (found : Attempt) (s : σ) : Sample × σ :=
  let (texts, s) := drawTexts f.legend.values found.atoms s
  let sample :=
    { text := texts.reverse.flatten
      candidate := found.atoms.filterMap f.legend.character
      attempts := found.attempts
      satisfied := found.satisfied }
  (sample, s)

/-- Draws a string of the formula. -/
def Formula.sample (f : Formula) (settings : Settings) (bounds : LengthBounds) (s : σ) :
    Sample × σ :=
  let (found, s) :=
    f.pattern.drawFitting settings.repeatLimit bounds.admit (settings.attempts - 1) 0 s
  f.complete found s

/-- Draws a number of strings, one after the other. -/
def Formula.samples (f : Formula) (settings : Settings) (bounds : LengthBounds) (n : Nat) (s : σ) :
    List Sample × σ :=
  let (drawn, s) := Nat.repeat
    (fun (drawn, s) => (f.sample settings bounds s).map (· :: drawn) id) n ([], s)
  (drawn.reverse, s)

end Confection
