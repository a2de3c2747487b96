import Confection.Text.Basic

/-!
# Sets of positions in a text

A position in a text is the number of characters before it.  A set of positions is kept as the bits
of one natural number, so that a step from many positions at once is one operation on that number:
`Positions.hop` moves all positions from which a hop of some length is possible by that length.
`has_hop` says so bit by bit.
-/

namespace Confection

/-- A set of positions: bit `i` says whether position `i` belongs to it. -/
abbrev Positions := Nat

/-- The positions in front of the characters for which `p` holds. -/
def Text.occurrences (p : Char → Bool) (t : Text) : Positions :=
  t.foldr (fun c marks => 2 * marks + (p c).toNat) 0

namespace Positions

/-- The start of a text alone. -/
def start : Positions := 1

/-- All positions in a text of the given length. -/
def upTo (length : Nat) : Positions := (1 <<< (length + 1)) - 1

/-- Does the position belong to the set? -/
def has (s : Positions) (i : Nat) : Bool := s.testBit i

/-- The positions that belong to the first set and not to the second. -/
def without (s t : Positions) : Positions := s ^^^ (s &&& t)

/-- The positions `length` characters further than those that are among the marked ones. -/
def hop (s marks : Positions) (length : Nat) : Positions := (s &&& marks) <<< length

theorem has_upTo (length i : Nat) : (upTo length).has i = decide (i ≤ length) := by
  rw [has, upTo, Nat.one_shiftLeft, Nat.testBit_two_pow_sub_one]
  exact decide_eq_decide.2 Nat.lt_succ_iff

theorem has_without (s t : Positions) (i : Nat) :
    (s.without t).has i = (s.has i && !t.has i) := by
  simp only [has, without, Nat.testBit_xor, Nat.testBit_and]
  cases s.testBit i <;> cases t.testBit i <;> rfl

/-- A position after a hop is a marked one before it. -/
theorem has_hop (s marks : Positions) (length i : Nat) :
    (s.hop marks length).has i =
      (decide (length ≤ i) && (s.has (i - length) && marks.has (i - length))) := by
  simp [has, hop, Nat.testBit_shiftLeft]

/-- Sets with the same positions are equal. -/
theorem eq_of_has_eq {s t : Positions} (h : ∀ i, s.has i = t.has i) : s = t :=
  Nat.eq_of_testBit_eq h

end Positions

/-- A position is marked when a character of that kind stands there. -/
theorem Text.has_occurrences (p : Char → Bool) (t : Text) (i : Nat) :
    (t.occurrences p).has i = t[i]?.any p := by
  induction t generalizing i with
  | nil => simp [occurrences, Positions.has]
  | cons c rest ih =>
    have hb : occurrences p (c :: rest) = 2 * occurrences p rest + (p c).toNat := rfl
    cases i with
    | zero =>
      rw [hb]
      cases h : p c <;> simp [Positions.has, Nat.testBit_zero, h]
    | succ i =>
      have half (n : Nat) (b : Bool) : (2 * n + b.toNat) / 2 = n := by cases b <;> simp; omega
      rw [hb, Positions.has, Nat.testBit_succ, half]
      simpa [Positions.has] using ih i

end Confection
