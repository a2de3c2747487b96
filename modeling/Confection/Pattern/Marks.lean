import Std.Data.HashMap
import Confection.Pattern.Basic
import Confection.Pattern.Positions

/-!
# Where things stand in a text

Before a text is matched, the places of its characters are marked once, and from them the places of
everything that a pattern looks for without looking inside: the values of a symbol and the members
of a class.  What is found is kept by length, as *hops*: from each of some positions a hop of that
length is possible.

## Shape of the lemmas

`has_startsOf` says that a text of its own starts exactly where its characters stand one after the
other, and `reach_add` that adding hops adds the positions they lead to.
-/

namespace Confection

/-- The values that each symbol stands for, by the symbol's number. -/
abbrev SymbolValues := List (List Text)

/-! ## Marks -/

/-- Where the characters of a text stand. -/
structure Marks where
  /-- The number of characters. -/
  length : Nat
  /-- All positions. -/
  all : Positions
  /-- For every character that occurs, the positions in front of it. -/
  places : Std.HashMap Char Positions
  /-- The positions in front of printable ASCII characters. -/
  printable : Positions

namespace Marks

/-- Marks the characters of a text, the first of which stands at position `i`. -/
def placesFrom (i : Nat) (places : Std.HashMap Char Positions) : Text → Std.HashMap Char Positions
  | [] => places
  | c :: rest => placesFrom (i + 1) (places.insert c (places.getD c 0 ||| 1 <<< i)) rest

/-- The marks of a text. -/
def ofText (t : Text) : Marks where
  length := t.length
  all := .upTo t.length
  places := placesFrom 0 ∅ t
  printable := t.occurrences fun c => 0x20 ≤ c.toNat && c.toNat ≤ 0x7E

/-- The positions in front of the character `c`. -/
def placesOf (m : Marks) (c : Char) : Positions := m.places.getD c 0

/-- The positions at which the text `t` starts. -/
def startsOf (m : Marks) : Text → Positions
  | [] => m.all
  | c :: rest =>
    let here := m.placesOf c
    if here = 0 then 0 else here &&& (m.startsOf rest >>> 1)

private theorem has_placesFrom (t : Text) (i : Nat) (places : Std.HashMap Char Positions) (c : Char)
    (j : Nat) : Positions.has ((placesFrom i places t).getD c 0) j =
      (Positions.has (places.getD c 0) j || (decide (i ≤ j) && t[j - i]? == some c)) := by
  induction t generalizing i places with
  | nil => simp [placesFrom]
  | cons d rest ih =>
    rw [placesFrom, ih, Std.HashMap.getD_insert]
    rcases Nat.lt_trichotomy j i with h | h | h
    · have h1 : ¬ i ≤ j := by omega
      have h2 : ¬ i + 1 ≤ j := by omega
      by_cases hd : d = c
      · subst hd; simp [Positions.has, Nat.one_shiftLeft, Nat.testBit_two_pow, h1, h2]; omega
      · simp [hd, h1, h2]
    · subst h
      have h2 : ¬ j + 1 ≤ j := by omega
      by_cases hd : d = c
      · subst hd; simp [Positions.has, Nat.one_shiftLeft, h2]
      · simp [hd, h2]
    · obtain ⟨k, rfl⟩ : ∃ k, j = i + 1 + k := ⟨j - (i + 1), by omega⟩
      have h1 : i + 1 + k - i = k + 1 := by omega
      have h2 : i + 1 + k - (i + 1) = k := by omega
      have h3 : i ≤ i + 1 + k := by omega
      by_cases hd : d = c
      · subst hd
        have h4 : ¬ i = i + 1 + k := by omega
        simp [Positions.has, Nat.one_shiftLeft, h1, h2, h3, h4]
      · simp [hd, h1, h2, h3]

/-- A character's places are the positions in front of it. -/
theorem has_placesOf (t : Text) (c : Char) (i : Nat) :
    ((ofText t).placesOf c).has i = (t[i]? == some c) := by
  simp only [placesOf, ofText, has_placesFrom]
  simp [Positions.has]

/-- A text starts where it is the beginning of the rest. -/
theorem has_startsOf (t u : Text) (i : Nat) :
    ((ofText t).startsOf u).has i = (decide (i ≤ t.length) && u.isPrefixOf (t.drop i)) := by
  induction u generalizing i with
  | nil => simp [startsOf, ofText, Positions.has_upTo]
  | cons c rest ih =>
    have hc := has_placesOf t c i
    have hstep : ((ofText t).startsOf (c :: rest)).has i =
        (((ofText t).placesOf c).has i && ((ofText t).startsOf rest).has (i + 1)) := by
      rw [startsOf]
      split
      · next h => simp [h, Positions.has]
      · simp [Positions.has, Nat.testBit_shiftRight, Nat.add_comm]
    rw [hstep, hc, ih]
    by_cases hi : i < t.length
    · have h1 : i + 1 ≤ t.length := hi
      have h2 : i ≤ t.length := by omega
      rw [List.drop_eq_getElem_cons hi]
      simp [hi, h1, h2, List.isPrefixOf, Bool.beq_comm]
    · have h1 : ¬ i + 1 ≤ t.length := by omega
      have h2 : t.drop i = [] := List.drop_eq_nil_of_le (by omega)
      simp [h1, h2]

end Marks

/-! ## Hops -/

/-- Hops by their length: the positions from which a hop of that length is possible. -/
abbrev Hops := List (Nat × Positions)

namespace Hops

/-- Puts the starts of further hops of one length under that length. -/
def put (length : Nat) (starts : Positions) : Hops → Hops
  | [] => [(length, starts)]
  | (l, s) :: rest =>
    if l = length then (l, s ||| starts) :: rest else (l, s) :: put length starts rest

/-- Adds further hops of one length. -/
def add (length : Nat) (starts : Positions) (h : Hops) : Hops :=
  if starts = 0 then h else h.put length starts

/-- Adds further hops. -/
def addAll (h further : Hops) : Hops := further.foldl (fun h (l, starts) => h.add l starts) h

/-- The positions that one hop from the given positions leads to. -/
def reach (h : Hops) (s : Positions) : Positions :=
  h.foldr (fun (l, starts) reached => reached ||| s.hop starts l) 0

@[simp] theorem reach_nil (s : Positions) : reach [] s = 0 := rfl

@[simp] theorem reach_cons (l : Nat) (starts : Positions) (h : Hops) (s : Positions) :
    reach ((l, starts) :: h) s = reach h s ||| s.hop starts l := rfl

private theorem hop_or (s a b : Positions) (l : Nat) :
    s.hop (a ||| b) l = s.hop a l ||| s.hop b l := by
  simp only [Positions.hop, Nat.and_or_distrib_left, Nat.shiftLeft_or_distrib]

/-- Hops that are added lead where they lead. -/
theorem reach_add (l : Nat) (starts : Positions) (h : Hops) (s : Positions) :
    (h.add l starts).reach s = h.reach s ||| s.hop starts l := by
  rw [add]
  split
  · next h0 => simp [h0, Positions.hop]
  · induction h with
    | nil => rfl
    | cons p rest ih =>
      obtain ⟨l', s'⟩ := p
      rw [put]
      split
      · next hl => rw [reach_cons, reach_cons, hop_or, hl, Nat.or_assoc]
      · rw [reach_cons, reach_cons, ih, Nat.or_assoc, Nat.or_comm (s.hop starts l), Nat.or_assoc]

/-- All hops that are added lead where they lead. -/
theorem reach_addAll (h further : Hops) (s : Positions) :
    (h.addAll further).reach s = h.reach s ||| further.reach s := by
  induction further generalizing h with
  | nil => simp [addAll]
  | cons p rest ih =>
    have := ih (h.add p.1 p.2)
    rw [addAll] at this ⊢
    rw [List.foldl_cons, this, reach_add, reach_cons, Nat.or_assoc, Nat.or_comm (s.hop _ _)]

end Hops

namespace Marks

/-- The hops over one of the texts. -/
def hopsOver (m : Marks) (ts : List Text) : Hops :=
  ts.foldl (fun h t => h.add t.length (m.startsOf t)) []

/-- The hops over one of the atoms, with those over the values of each symbol given. -/
def hopsOverAtoms (m : Marks) (symbols : List Hops) (atoms : List Atom) : Hops :=
  atoms.foldl (fun h a =>
    match a with
    | .symbol i => h.addAll (symbols.getD i [])
    | .literal c => h.add 1 (m.placesOf c)) []

end Marks

end Confection
