import Confection.Pattern.Lexeme

/-!
# Reading a pattern

The last step builds the pattern from its lexemes, one at a time and without looking ahead.  What
has been read so far is a `Draft`: the layer that is being written, the layers of the groups around
it, and what the next lexeme may do to the last item.

## Shape of the steps

* An element starts a new item, which is repeated once until a quantifier says otherwise.
* A quantifier applies to an item that has none yet.  After it a question mark is allowed, which
  asks for a lazy match and changes nothing, and then no further quantifier.
* A bar ends an alternative, an opening starts a layer inside the current one, and a closing makes
  the innermost layer an item of the one around it.
* The number of layers around the current one is the depth of nesting, and it has a limit.
-/

namespace Confection.Pattern

/-- A pattern that is being written: the alternatives that are complete and the items of the one
that is not, both last first. -/
structure Layer where
  complete : List Sequence
  items : Sequence

namespace Layer

/-- A pattern of which nothing is written yet. -/
def empty : Layer := ⟨[], []⟩

/-- Adds an item to the current alternative. -/
def push (l : Layer) (it : Item) : Layer := { l with items := it :: l.items }

/-- Gives the last item another quantifier. -/
def requantify (l : Layer) (q : Quantifier) : Layer :=
  match l.items with
  | [] => l
  | it :: rest => { l with items := ⟨q, it.element⟩ :: rest }

/-- Ends the current alternative and starts the next. -/
def nextAlternative (l : Layer) : Layer := ⟨l.items.reverse :: l.complete, []⟩

/-- The pattern that is written, with the current alternative as its last. -/
def toPattern (l : Layer) : Pattern := (l.items.reverse :: l.complete).reverse

end Layer

/-- What a quantifier would do here. -/
inductive Slot where
  /-- There is nothing that it could apply to. -/
  | closed
  /-- It would apply to the last item. -/
  | bare
  /-- The last item has one, and only a lazy suffix may follow. -/
  | quantified
deriving DecidableEq

/-- What has been read of a pattern. -/
structure Draft where
  /-- The layer that is being written. -/
  layer : Layer
  /-- The layers of the open groups, innermost first. -/
  around : List Layer
  /-- What the next lexeme may do to the last item. -/
  slot : Slot

namespace Draft

/-- Nothing has been read. -/
def empty : Draft := ⟨.empty, [], .closed⟩

/-- Reads one lexeme.  Groups may be nested at most `limit` deep. -/
def step (limit : Nat) (d : Draft) : Lexeme → Except Error Draft
  | .malformed e => .error e
  | .element e => .ok { d with layer := d.layer.push ⟨.once, e⟩, slot := .bare }
  | .repetition mark q =>
    match d.slot with
    | .closed => .error (.nothingToRepeat mark)
    | .bare => q.map fun q => { d with layer := d.layer.requantify q, slot := .quantified }
    | .quantified =>
      if mark = '?' then .ok { d with slot := .closed } else .error (.nothingToRepeat mark)
  | .bar => .ok { d with layer := d.layer.nextAlternative, slot := .closed }
  | .opening =>
    if d.around.length < limit then .ok ⟨.empty, d.layer :: d.around, .closed⟩
    else .error (.nestedTooDeep limit)
  | .closing =>
    match d.around with
    | [] => .error (.unexpectedChar ')')
    | outer :: around => .ok ⟨outer.push ⟨.once, .group d.layer.toPattern⟩, around, .bare⟩

/-- The pattern, if no group is open. -/
def finish (d : Draft) : Except Error Pattern :=
  if d.around.isEmpty then .ok d.layer.toPattern else .error .unclosedGroup

end Draft

/-- The pattern with these lexemes. -/
def ofLexemes (limit : Nat) (ls : List Lexeme) : Except Error Pattern := do
  (← ls.foldlM (Draft.step limit) Draft.empty).finish

/-- The pattern with these tokens. -/
def ofTokens (limit : Nat) (ts : List Token) : Except Error Pattern :=
  ofLexemes limit (lexemes ts)

/-- Reads a pattern from its text.  The `i`-th of the characters `symbols` stands for symbol `i`,
and groups may be nested at most `limit` deep. -/
def parse (t : Text) (symbols : List Char) (limit : Nat) : Except Error Pattern :=
  ofTokens limit (tokens symbols t)

end Confection.Pattern
