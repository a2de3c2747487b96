import Confection.Pattern.Basic
import Confection.Pattern.Token

/-!
# Bounds in braces

A quantifier in braces gives the least and the greatest number of repetitions: `n` for exactly `n`,
`n,m` for a range, and either number may be left out beside the comma.  Numbers are decimal and must
fit into 64 bits.
-/

namespace Confection.Pattern

/-- Numbers in a pattern lie below this bound. -/
def numberBound : Nat := UInt64.size

namespace Bounds

/-- The value of a run of digits, each given by its token. -/
def valueOf (digits : List Token) : Nat :=
  digits.foldl (fun n t => 10 * n + (t.lead.toNat - '0'.toNat)) 0

/-- The number that the tokens start with, if there is one, and the tokens after it. -/
def readNumber (ts : List Token) : Except Error (Option Nat × List Token) :=
  let digits := ts.takeWhile Token.isDigit
  let rest := ts.dropWhile Token.isDigit
  if digits.isEmpty then .ok (none, rest)
  else if numberBound ≤ valueOf digits then .error .numberTooLarge
  else .ok (some (valueOf digits), rest)

/-- The tokens after the first one, which must be the unescaped character `c`. -/
def expect (c : Char) : List Token → Except Error (List Token)
  | [] => .error .unexpectedEnd
  | t :: rest => if t.isMark c then .ok rest else .error (.unexpectedChar t.lead)

/-- The quantifier with these numbers before and after the comma. -/
def ofPair : Option Nat → Option Nat → Except Error Quantifier
  | none, none => .ok .zeroOrMore
  | some n, none => .ok (.atLeast n)
  | none, some m => .ok (.between 0 m)
  | some n, some m => if n ≤ m then .ok (.between n m) else .error .invalidBounds

/-- The quantifier whose opening brace comes before these tokens, and the tokens after its end. -/
def read (ts : List Token) : Except Error (Quantifier × List Token) := do
  let (first, rest) ← readNumber ts
  if rest.head?.any (·.isMark '\x7d') then
    match first with
    | some n => .ok (.exactly n, rest.tail)
    | none => .error .invalidBounds
  else do
    let rest ← expect ',' rest
    let (second, rest) ← readNumber rest
    let rest ← expect '\x7d' rest
    return (← ofPair first second, rest)

/-- A number ends with its digits. -/
theorem dropWhile_of_readNumber {ts rest : List Token} {n : Option Nat}
    (h : readNumber ts = .ok (n, rest)) : ts.dropWhile Token.isDigit = rest := by
  simp only [readNumber] at h
  split at h
  · cases h; rfl
  · split at h
    · cases h
    · cases h; rfl

private theorem length_readNumber {ts rest : List Token} {n : Option Nat}
    (h : readNumber ts = .ok (n, rest)) : rest.length ≤ ts.length := by
  rw [← dropWhile_of_readNumber h]
  exact (List.dropWhile_suffix _).length_le

theorem expect_eq_ok_iff {c : Char} {ts rest : List Token} :
    expect c ts = .ok rest ↔ ∃ t, t.isMark c = true ∧ ts = t :: rest := by
  constructor
  · intro h
    cases ts with
    | nil => cases h
    | cons t ts =>
      rw [expect] at h
      split at h
      · next hmark => cases h; exact ⟨t, hmark, rfl⟩
      · cases h
  · rintro ⟨t, hmark, rfl⟩
    exact if_pos hmark

/-- Expecting a character uses it up. -/
theorem length_expect {c : Char} {ts rest : List Token} (h : expect c ts = .ok rest) :
    rest.length < ts.length := by
  obtain ⟨t, -, rfl⟩ := expect_eq_ok_iff.1 h
  exact Nat.lt_succ_self _

/-- Reading bounds uses up at least the closing brace. -/
theorem length_read {ts rest : List Token} {q : Quantifier} (h : read ts = .ok (q, rest)) :
    rest.length < ts.length := by
  simp only [read, bind, Except.bind, pure, Except.pure] at h
  split at h
  · simp at h
  next p hfirst =>
  obtain ⟨first, rest₁⟩ := p
  have h₁ := length_readNumber hfirst
  simp only at h
  split at h
  · next hclose =>
    split at h
    · cases rest₁ with
      | nil => simp at hclose
      | cons t rest₁ =>
        simp only [Except.ok.injEq, Prod.mk.injEq, List.tail_cons] at h
        rw [← h.2]
        exact h₁
    · simp at h
  · split at h
    · simp at h
    next rest₂ hcomma =>
    have h₂ := length_expect hcomma
    split at h
    · simp at h
    next p hsecond =>
    obtain ⟨second, rest₃⟩ := p
    have h₃ := length_readNumber hsecond
    simp only at h
    split at h
    · simp at h
    next rest₄ hclose =>
    have h₄ := length_expect hclose
    split at h
    · simp at h
    · simp only [Except.ok.injEq, Prod.mk.injEq] at h
      obtain ⟨_, rfl⟩ := h
      omega

end Bounds

end Confection.Pattern
