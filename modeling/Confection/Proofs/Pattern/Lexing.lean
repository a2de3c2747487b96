import Confection.Proofs.Pattern.WellFormed

/-!
# Equations of the readers

One equation for each way in which the lexemes of a pattern and the members of a class can start,
and an induction principle for lexemes.  Most tokens are a lexeme of their own, `Token.alone?`; what
is left are mistakes and the three openings, which read further tokens.
-/

namespace Confection.Pattern

open CharClass

/-- The lexeme that is read from this token alone, whatever comes after it. -/
def Token.alone? : Token → Option Lexeme
  | .malformed _ => none
  | .escape (.char c) => some (.element (.literal c))
  | .escape (.set cs) => some (.element (.oneOf (cs.map .literal)))
  | .char c i =>
    match c with
    | '(' | '[' | '\x7b' => none
    | ')' => some .closing
    | '|' => some .bar
    | '.' => some (.element .any)
    | '?' => some (.repetition '?' (.ok .optional))
    | '*' => some (.repetition '*' (.ok .zeroOrMore))
    | '+' => some (.repetition '+' (.ok .oneOrMore))
    | c => some (.element (atomOf c i).toElement)

/-- The characters that an element cannot be written with. -/
def marks : List Char := ['(', ')', '|', '[', '.', '?', '*', '+', '\x7b']

theorem Token.alone?_char {c : Char} (hc : c ∉ marks) (i : Option ℕ) :
    (Token.char c i).alone? = some (.element (atomOf c i).toElement) := by
  unfold Token.alone?
  simp only [marks, List.mem_cons, List.not_mem_nil, or_false, not_or] at hc
  obtain ⟨h₁, h₂, h₃, h₄, h₅, h₆, h₇, h₈, h₉⟩ := hc
  split <;> simp_all

section

variable {i : Option ℕ} {rest : List Token}

theorem lexemes_nil : lexemes [] = [] := by rw [lexemes]

theorem lexemes_malformed {e : Error} : lexemes (.malformed e :: rest) = [.malformed e] := by
  rw [lexemes]

theorem lexemes_alone {t : Token} {x : Lexeme} (h : t.alone? = some x) :
    lexemes (t :: rest) = x :: lexemes rest := by
  unfold Token.alone? at h
  split at h
  · cases h
  · cases h; rw [lexemes]
  · cases h; rw [lexemes]
  · split at h
    · cases h
    · cases h
    · cases h
    all_goals cases h; rw [lexemes]
    all_goals assumption

theorem lexemes_opening : lexemes (.char '(' i :: rest) = match readOpening rest with
    | .ok beyond => .opening :: lexemes beyond
    | .error e => [.malformed e] := by
  rw [lexemes]
  split <;> simp [*]

theorem lexemes_class : lexemes (.char '[' i :: rest) = match readClass rest with
    | .ok (members, beyond) => .element (.oneOf members) :: lexemes beyond
    | .error e => [.malformed e] := by
  rw [lexemes]
  split <;> simp [*]

theorem lexemes_braces : lexemes (.char '\x7b' i :: rest) = match Bounds.read rest with
    | .ok (q, beyond) => .repetition '\x7b' (.ok q) :: lexemes beyond
    | .error e => [.repetition '\x7b' (.error e)] := by
  rw [lexemes]
  split <;> simp [*]

end

/-- Induction along the lexemes of a list of tokens. -/
theorem lexemesInduction {P : List Token → Prop} (nil : P [])
    (malformed : ∀ e rest, P (.malformed e :: rest))
    (alone : ∀ t x rest, t.alone? = some x → P rest → P (t :: rest))
    (opening : ∀ i rest, (∀ beyond, readOpening rest = .ok beyond → P beyond) →
      P (.char '(' i :: rest))
    (charClass : ∀ i rest, (∀ members beyond, readClass rest = .ok (members, beyond) → P beyond) →
      P (.char '[' i :: rest))
    (braces : ∀ i rest, (∀ q beyond, Bounds.read rest = .ok (q, beyond) → P beyond) →
      P (.char '\x7b' i :: rest)) (ts : List Token) : P ts := by
  induction ts using lexemes.induct with
  | case1 => exact nil
  | case2 e rest => exact malformed e rest
  | case3 c rest ih | case4 c rest ih => exact alone _ _ rest rfl ih
  | case5 i rest beyond hread ih =>
    refine opening i rest fun beyond' hread' => ?_
    rw [hread] at hread'
    cases hread'
    exact ih
  | case6 i rest e hread =>
    exact opening i rest fun _ hread' => by rw [hread] at hread'; cases hread'
  | case9 i rest members beyond hread ih =>
    refine charClass i rest fun members' beyond' hread' => ?_
    rw [hread] at hread'
    cases hread'
    exact ih
  | case10 i rest e hread =>
    exact charClass i rest fun _ _ hread' => by rw [hread] at hread'; cases hread'
  | case15 i rest q beyond hread ih =>
    refine braces i rest fun q' beyond' hread' => ?_
    rw [hread] at hread'
    cases hread'
    exact ih
  | case16 i rest e hread =>
    exact braces i rest fun _ _ hread' => by rw [hread] at hread'; cases hread'
  | case7 i rest ih | case8 i rest ih | case11 i rest ih | case12 i rest ih | case13 i rest ih
  | case14 i rest ih => exact alone _ _ rest rfl ih
  | case17 i rest c h₁ h₂ h₃ h₄ h₅ h₆ h₇ h₈ h₉ ih =>
    refine alone _ _ rest (Token.alone?_char ?_ i) ih
    simp only [marks, List.mem_cons, List.not_mem_nil, or_false, not_or]
    exact ⟨h₁, h₂, h₃, h₄, h₅, h₆, h₇, h₈, h₉⟩

/-! ## Classes -/

namespace CharClass

variable {t u v : Token} {rest : List Token}

theorem readMembers_wrong {e : Error} (h : Part.ofToken t = .wrong e) :
    readMembers (t :: rest) = .error e := by
  rw [readMembers.eq_def]
  simp only [h]

theorem readMembers_close (h : Part.ofToken t = .close) :
    readMembers (t :: rest) = .ok ([], rest) := by
  rw [readMembers.eq_def]
  simp only [h]

theorem readMembers_set {cs : List Char} (h : Part.ofToken t = .set cs) :
    readMembers (t :: rest) = if startsRange rest then .error .setInRange
      else after (cs.map .literal) (readMembers rest) := by
  rw [readMembers.eq_def]
  simp only [h]

section

variable {lo hi : Char} {alone other : Atom}

theorem readMembers_single_nil (h : Part.ofToken t = .single lo alone) :
    readMembers [t] = .error .unclosedClass := by
  rw [readMembers.eq_def]
  simp only [h]

theorem readMembers_single (h : Part.ofToken t = .single lo alone) (hu : u.isMark '-' = false) :
    readMembers (t :: u :: rest) = after [alone] (readMembers (u :: rest)) := by
  rw [readMembers.eq_def]
  simp only [h, hu, Bool.false_eq_true, if_false]

theorem readMembers_hyphen_nil (h : Part.ofToken t = .single lo alone)
    (hu : u.isMark '-' = true) : readMembers [t, u] = .error .unclosedClass := by
  rw [readMembers.eq_def]
  simp only [h, hu, if_true]

theorem readMembers_hyphen_wrong {e : Error} (h : Part.ofToken t = .single lo alone)
    (hu : u.isMark '-' = true) (hv : Part.ofToken v = .wrong e) :
    readMembers (t :: u :: v :: rest) = .error e := by
  rw [readMembers.eq_def]
  simp only [h, hu, hv, if_true]

theorem readMembers_hyphen_close (h : Part.ofToken t = .single lo alone)
    (hu : u.isMark '-' = true) (hv : Part.ofToken v = .close) :
    readMembers (t :: u :: v :: rest) = .ok ([alone, .literal '-'], rest) := by
  rw [readMembers.eq_def]
  simp only [h, hu, hv, if_true]

theorem readMembers_hyphen_set {cs : List Char} (h : Part.ofToken t = .single lo alone)
    (hu : u.isMark '-' = true) (hv : Part.ofToken v = .set cs) :
    readMembers (t :: u :: v :: rest) = .error .setInRange := by
  rw [readMembers.eq_def]
  simp only [h, hu, hv, if_true]

theorem readMembers_range (h : Part.ofToken t = .single lo alone) (hu : u.isMark '-' = true)
    (hv : Part.ofToken v = .single hi other) :
    readMembers (t :: u :: v :: rest) = if hi < lo then .error (.descendingRange lo hi)
      else after (range lo hi) (readMembers rest) := by
  rw [readMembers.eq_def]
  simp only [h, hu, hv, if_true]

end

end CharClass

end Confection.Pattern
