import Confection.FirstOccurrences
import Confection.Pattern.Basic
import Confection.Pattern.Token

/-!
# Character classes

What stands between brackets is a list of members: characters, escapes and ranges.  A member that
stands alone and unescaped may be a symbol; an escaped character and every character of a range are
literal.  A hyphen makes a range of its two neighbours, and is a member itself at the end of the
class.  Of members that occur twice the first is kept.
-/

namespace Confection.Pattern

/-- The atom for a character that may stand for a symbol. -/
def atomOf (c : Char) : Option Nat → Atom
  | some i => .symbol i
  | none => .literal c

namespace CharClass

/-- What one token can be inside a class. -/
inductive Part where
  /-- The bracket that ends the class. -/
  | close
  /-- A character, with the atom that it is when it stands alone. -/
  | single (c : Char) (alone : Atom)
  /-- An escape for a set of characters. -/
  | set (members : List Char)
  /-- A malformed escape. -/
  | wrong (e : Error)

/-- What the token is inside a class. -/
def Part.ofToken : Token → Part
  | .char c i => if c = ']' then .close else .single c (atomOf c i)
  | .escape (.char c) => .single c (.literal c)
  | .escape (.set cs) => .set cs
  | .malformed e => .wrong e

/-- Is there a hyphen here that would make a range, since it does not end the class? -/
def startsRange : List Token → Bool
  | hyphen :: next :: _ => hyphen.isMark '-' && !next.isMark ']'
  | _ => false

/-- The members of a range, each a literal. -/
def range (lo hi : Char) : List Atom := (Text.scalarsBetween lo.toNat hi.toNat).map .literal

/-- Puts members in front of those that were read after them. -/
def after (members : List Atom) (r : Except Error (List Atom × List Token)) :
    Except Error (List Atom × List Token) :=
  r.map fun (following, rest) => (members ++ following, rest)

/-- The members up to the bracket that ends the class, and the tokens after it. -/
def readMembers : List Token → Except Error (List Atom × List Token)
  | [] => .error .unclosedClass
  | first :: rest =>
    match Part.ofToken first with
    | .wrong e => .error e
    | .close => .ok ([], rest)
    | .set cs =>
      if startsRange rest then .error .setInRange else after (cs.map .literal) (readMembers rest)
    | .single lo alone =>
      match rest with
      | [] => .error .unclosedClass
      | second :: beyond =>
        if second.isMark '-' then
          match beyond with
          | [] => .error .unclosedClass
          | third :: beyond =>
            match Part.ofToken third with
            | .wrong e => .error e
            | .close => .ok ([alone, .literal '-'], beyond)
            | .set _ => .error .setInRange
            | .single hi _ =>
              if hi < lo then .error (.descendingRange lo hi)
              else after (range lo hi) (readMembers beyond)
        else after [alone] (readMembers (second :: beyond))
termination_by structural ts => ts

private theorem after_eq_ok {members all : List Atom} {r : Except Error (List Atom × List Token)}
    {rest : List Token} (h : after members r = .ok (all, rest)) :
    ∃ following, r = .ok (following, rest) := by
  cases r with
  | error e => simp [after, Except.map] at h
  | ok p =>
    obtain ⟨following, rest'⟩ := p
    simp only [after, Except.map, Except.ok.injEq, Prod.mk.injEq] at h
    exact ⟨following, by rw [h.2]⟩

/-- Reading a class uses up at least its closing bracket. -/
theorem length_readMembers {ts rest : List Token} {members : List Atom}
    (h : readMembers ts = .ok (members, rest)) : rest.length < ts.length := by
  fun_induction readMembers ts generalizing members with
  | case3 => simp_all
  | case5 first rest cs _ _ ih =>
    obtain ⟨_, h⟩ := after_eq_ok h
    have := ih h
    simp; omega
  | case9 => simp_all; omega
  | case12 first rest lo alone _ second _ third beyond _ _ _ ih =>
    obtain ⟨_, h⟩ := after_eq_ok h
    have := ih h
    simp; omega
  | case13 first rest lo alone _ second _ ih =>
    obtain ⟨_, h⟩ := after_eq_ok h
    have := ih h
    simp at this ⊢; omega
  | _ => simp at h

end CharClass

/-- The members of the class whose opening bracket comes before these tokens, and the tokens after
the class. -/
def readClass (ts : List Token) : Except Error (List Atom × List Token) :=
  if ts.head?.any (·.isMark '^') then .error .negatedClass
  else do
    let (members, rest) ← CharClass.readMembers ts
    if members.isEmpty then .error .emptyClass else .ok (firstOccurrences members, rest)

/-- Reading a class uses up at least its closing bracket. -/
theorem length_readClass {ts rest : List Token} {members : List Atom}
    (h : readClass ts = .ok (members, rest)) : rest.length < ts.length := by
  simp only [readClass, bind, Except.bind] at h
  split at h
  · simp at h
  · split at h
    · simp at h
    next p hp =>
    obtain ⟨found, rest'⟩ := p
    have := CharClass.length_readMembers hp
    simp only at h
    split at h
    · simp at h
    · simp_all

end Confection.Pattern
