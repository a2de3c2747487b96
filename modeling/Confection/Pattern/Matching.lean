import Confection.Pattern.Marks

/-!
# Matching a text

A pattern accepts a text when it leads from the text's start to its end.  Every part of a pattern is
turned into a *reader*, a step on sets of positions: from the positions where the part may begin to
those where it may then end.  A sequence composes the readers of its items, a choice joins those of
its alternatives.  What a part looks for is found once, when its reader is made, and not at every
step.

## Shape of a repetition

The least number of rounds is taken first, all positions together.  Then a frontier is pushed on:
each further round starts only from the positions that the round before reached for the first time,
and ends when there are none.  A text of `n` characters has `n + 1` positions, so without a greatest
number of repetitions `n + 1` rounds are enough, even for an element that matches the empty text.
-/

namespace Confection

namespace Positions

/-- Takes a step a number of times. -/
def rounds (step : Positions → Positions) : Nat → Positions → Positions
  | 0, s => s
  | n + 1, s => if s = 0 then 0 else rounds step n (step s)

/-- Takes a step at most a number of times more.  All positions reached so far are kept, and only
the frontier, those that the last round reached for the first time, is pushed on. -/
def spread (step : Positions → Positions) : Nat → (reached frontier : Positions) → Positions
  | 0, reached, _ => reached
  | n + 1, reached, frontier =>
    if frontier = 0 then reached
    else
      let new := (step frontier).without reached
      spread step n (reached ||| new) new

/-- Takes a step as often as the quantifier says, in a text of the given length. -/
def repeated (step : Positions → Positions) (length : Nat) (q : Quantifier) (s : Positions) :
    Positions :=
  let reached := rounds step q.min s
  spread step ((q.max?.map (· - q.min)).getD (length + 1)) reached reached

end Positions

/-- How a part of a pattern reads a text. -/
structure Reader where
  /-- The positions where the part may end when it starts at one of the given positions. -/
  ends : Positions → Positions

namespace Reader

/-- Reads what is hopped over. -/
def ofHops (h : Hops) : Reader := ⟨h.reach⟩

/-- Reads nothing. -/
def nothing : Reader := ⟨id⟩

/-- Can read in no way. -/
def never : Reader := ⟨fun _ => 0⟩

/-- Reads with one reader and then with the other. -/
def andThen (a b : Reader) : Reader := ⟨fun s => b.ends (a.ends s)⟩

/-- Reads with one reader or with the other. -/
def orElse (a b : Reader) : Reader := ⟨fun s => a.ends s ||| b.ends s⟩

/-- Reads as often as the quantifier says, in a text of the given length. -/
def times (r : Reader) (length : Nat) (q : Quantifier) : Reader := ⟨.repeated r.ends length q⟩

end Reader

mutual

/-- The reader of an element, in a text with these marks and with the hops over the values of each
symbol. -/
def Element.reader (m : Marks) (symbols : List Hops) : Element → Reader
  | .symbol i => .ofHops (symbols.getD i [])
  | .literal c => .ofHops [(1, m.placesOf c)]
  | .oneOf members => .ofHops (m.hopsOverAtoms symbols members)
  | .any => .ofHops [(1, m.printable)]
  | .group p => Pattern.reader m symbols p
termination_by structural e => e

/-- The reader of a sequence. -/
def Sequence.reader (m : Marks) (symbols : List Hops) : Sequence → Reader
  | [] => .nothing
  | ⟨q, e⟩ :: rest =>
    ((e.reader m symbols).times m.length q).andThen (Sequence.reader m symbols rest)
termination_by structural s => s

/-- The reader of a pattern. -/
def Pattern.reader (m : Marks) (symbols : List Hops) : Pattern → Reader
  | [] => .never
  | s :: rest => (Sequence.reader m symbols s).orElse (Pattern.reader m symbols rest)
termination_by structural p => p

end

/-- Does the pattern accept the text, when symbols stand for the given values? -/
def Pattern.accepts (p : Pattern) (values : SymbolValues) (t : Text) : Bool :=
  let m := Marks.ofText t
  ((Pattern.reader m (values.map m.hopsOver) p).ends .start).has t.length

end Confection
