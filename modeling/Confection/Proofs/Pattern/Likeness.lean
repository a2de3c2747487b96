import Confection.Proofs.Pattern.Lexing
import Confection.Spelling

/-!
# Tokens that are read alike

Different tokens can mean the same in their place: an escaped letter and the letter, two letters for
one symbol, and in braces any two tokens that do not belong there.  `Alike` relates two lists of
tokens that differ in no other way, following what surrounds each token.  Alike lists are read as
the same pattern, or both have a mistake (`ofTokens_alike`).

The letter of a symbol does count in one place, at an end of a range in a class.  So the symbols
must be kept apart from hyphens there, which is what `symbolsApart` asks for.
-/

namespace Confection

/-- What surrounds the next token.  Only characters that stand for themselves change that. -/
def Surroundings.afterToken (s : Surroundings) : Pattern.Token → Surroundings
  | .char c none => s.after c
  | _ => s

/-- What surrounds the place after the tokens. -/
def Surroundings.afterTokens (s : Surroundings) (ts : List Pattern.Token) : Surroundings :=
  ts.foldl Surroundings.afterToken s

theorem Surroundings.afterTokens_append (s : Surroundings) (ts us : List Pattern.Token) :
    s.afterTokens (ts ++ us) = (s.afterTokens ts).afterTokens us := List.foldl_append

/-- Tokens that change nothing around them change nothing together. -/
theorem Surroundings.afterTokens_eq_self {s : Surroundings} {ts : List Pattern.Token}
    (h : ∀ t ∈ ts, s.afterToken t = s) : s.afterTokens ts = s := by
  induction ts with
  | nil => rfl
  | cons t ts ih =>
    obtain ⟨ht, hts⟩ := List.forall_mem_cons.1 h
    show (s.afterToken t).afterTokens ts = s
    rw [ht, ih hts]

/-- The characters that can change what surrounds the next place. -/
def brackets : List Char := ['[', ']', '\x7b', '\x7d']

theorem Surroundings.after_eq_self {s : Surroundings} {c : Char} (hc : c ∉ brackets) :
    s.after c = s := by
  simp only [brackets, List.mem_cons, List.not_mem_nil, or_false, not_or] at hc
  unfold Surroundings.after
  split <;> simp_all

/-- A digit changes nothing around it. -/
theorem Surroundings.after_of_isDigit (s : Surroundings) {c : Char} (hc : c.isDigit = true) :
    s.after c = s := by
  have hno : brackets.all (!Char.isDigit ·) = true := by decide
  refine after_eq_self fun hmem => ?_
  have hc' := List.all_eq_true.1 hno c hmem
  rw [hc] at hc'
  cases hc'

namespace Pattern

/-- The characters that mean something in a pattern, digits included. -/
def signs : List Char :=
  marks ++ [']', '^', '-', ':', ',', '\x7d', '0', '1', '2', '3', '4', '5', '6', '7', '8', '9']

theorem not_mem_marks_of_not_mem_signs {c : Char} (hc : c ∉ signs) : c ∉ marks :=
  fun h => hc (List.mem_append_left _ h)

/-- A digit is a sign. -/
theorem mem_signs_of_isDigit {c : Char} (hc : c.isDigit = true) : c ∈ signs := by
  have hcode : c.toNat ∈ List.range' 48 10 := by
    simp only [Char.isDigit, Bool.and_eq_true, decide_eq_true_eq, UInt32.le_iff_toNat_le] at hc
    simp only [List.mem_range'_1]
    exact ⟨hc.1, Nat.lt_succ_of_le hc.2⟩
  have hall : ∀ n ∈ List.range' 48 10, Char.ofNat n ∈ signs := by decide
  simpa using hall _ hcode

namespace Token

/-- The symbol that an unescaped character stands for. -/
def symbol? : Token → Option ℕ
  | char _ i => i
  | escape _ | malformed _ => none

/-- The two tokens mean the same in these surroundings. -/
inductive Alike : Surroundings → Token → Token → Prop
  | same {s t} (h : t.symbol? = none) : Alike s t t
  | literal {s c} (hs : s ≠ .inBraces) (hc : c ∉ signs) :
      Alike s (.escape (.char c)) (.char c none)
  | symbol {s c d i} (hs : s ≠ .inBraces) (hc : c ∉ signs) (hd : d ∉ signs) :
      Alike s (.char c (some i)) (.char d (some i))
  | misplaced {c d i j} (hc : c ∉ signs) (hd : d ∉ signs) :
      Alike .inBraces (.char c i) (.char d j)

namespace Alike

variable {s : Surroundings} {t u : Token} {c : Char}

/-- Where one token is a sign, the other is the same one. -/
theorem eq_of_isMark (h : Alike s t u) (hc : c ∈ signs) (hu : u.isMark c = true) :
    t = .char c none ∧ u = .char c none := by
  cases h with
  | same hsymbol =>
    cases t with
    | char d i =>
      rw [isMark, beq_iff_eq] at hu
      cases hu
      cases hsymbol
      exact ⟨rfl, rfl⟩
    | escape | malformed => cases hu
  | literal _ hd | symbol _ _ hd | misplaced _ hd =>
    rw [isMark, beq_iff_eq] at hu
    exact absurd (hu ▸ hc) hd

theorem isMark_eq (h : Alike s t u) (hc : c ∈ signs) : t.isMark c = u.isMark c := by
  have hne {d : Char} (hd : d ∉ signs) : (d == c) = false := by
    rw [beq_eq_false_iff_ne]
    rintro rfl
    exact hd hc
  cases h with
  | same => rfl
  | literal _ hd => simp [isMark, hne hd]
  | symbol _ hc hd | misplaced hc hd => simp [isMark, hne hc, hne hd]

theorem isDigit_eq (h : Alike s t u) : t.isDigit = u.isDigit := by
  have hno {d : Char} (hd : d ∉ signs) : d.isDigit = false := by
    rw [← Bool.not_eq_true]
    exact fun hdigit => hd (mem_signs_of_isDigit hdigit)
  cases h with
  | same => rfl
  | literal _ hd => simp [isDigit, hno hd]
  | symbol _ hc hd | misplaced hc hd => simp [isDigit, hno hc, hno hd]

/-- Alike tokens that are digits are the same. -/
theorem eq_of_isDigit (h : Alike s t u) (hu : u.isDigit = true) : t = u := by
  cases u with
  | char c i =>
    obtain ⟨ht, hu⟩ := h.eq_of_isMark (mem_signs_of_isDigit hu) (beq_self_eq_true c)
    rw [ht, hu]
  | escape | malformed => cases hu

/-- In the open, alike tokens are the same lexeme, if they are one alone. -/
theorem alone?_eq (h : Alike .plain t u) : t.alone? = u.alone? := by
  cases h with
  | same => rfl
  | literal _ hc => rw [alone?_char (not_mem_marks_of_not_mem_signs hc)]; rfl
  | symbol _ hc hd =>
    rw [alone?_char (not_mem_marks_of_not_mem_signs hc),
      alone?_char (not_mem_marks_of_not_mem_signs hd)]
    rfl

/-- In a class, alike tokens are the same part, except for the letters of symbols. -/
theorem ofToken_eq_or (h : Alike .inClass t u) :
    CharClass.Part.ofToken t = CharClass.Part.ofToken u ∨
      u.symbol?.isSome = true ∧ ∃ c d a, CharClass.Part.ofToken t = .single c a ∧
        CharClass.Part.ofToken u = .single d a := by
  have hne {d : Char} (hd : d ∉ signs) : d ≠ ']' := by
    rintro rfl
    exact hd (by decide)
  cases h with
  | same => exact .inl rfl
  | literal _ hc => exact .inl (by simp [CharClass.Part.ofToken, hne hc, atomOf])
  | @symbol _ c d i _ hc hd =>
    exact .inr ⟨rfl, c, d, .symbol i, by simp [CharClass.Part.ofToken, hne hc, atomOf],
      by simp [CharClass.Part.ofToken, hne hd, atomOf]⟩

theorem ofToken_eq (h : Alike .inClass t u)
    (hu : ∀ c a, CharClass.Part.ofToken u ≠ .single c a) :
    CharClass.Part.ofToken t = CharClass.Part.ofToken u := by
  obtain heq | ⟨-, _, d, a, -, hsingle⟩ := h.ofToken_eq_or
  · exact heq
  · exact absurd hsingle (hu d a)

theorem ofToken_single {a : Atom} (h : Alike .inClass t u)
    (hu : CharClass.Part.ofToken u = .single c a) :
    ∃ d, CharClass.Part.ofToken t = .single d a ∧ (u.symbol?.isSome = false → d = c) := by
  obtain heq | ⟨hsymbol, d, _, _, ht, hsingle⟩ := h.ofToken_eq_or
  · exact ⟨c, heq.trans hu, fun _ => rfl⟩
  · rw [hu] at hsingle
    cases hsingle
    exact ⟨d, ht, fun hnone => by rw [hsymbol] at hnone; cases hnone⟩

end Alike

end Token

/-- The two lists consist of tokens that mean the same. -/
inductive Alike : Surroundings → List Token → List Token → Prop
  | nil {s} : Alike s [] []
  | cons {s t u ts us} (h : Token.Alike s t u) (hrest : Alike (s.afterToken u) ts us) :
      Alike s (t :: ts) (u :: us)

/-- Has no symbol in a class an unescaped hyphen for a neighbour? -/
def symbolsApart (s : Surroundings) : List Token → Bool
  | t :: u :: rest =>
    !(s == .inClass && (t.symbol?.isSome && u.isMark '-' || t.isMark '-' && u.symbol?.isSome)) &&
      symbolsApart (s.afterToken t) (u :: rest)
  | _ => true

/-- The two lists are alike, and the letters of their symbols do not count. -/
structure Similar (s : Surroundings) (ts us : List Token) : Prop where
  alike : Alike s ts us
  apart : symbolsApart s us = true

namespace Similar

variable {s : Surroundings} {t u : Token} {ts us : List Token}

theorem nil (h : Similar s ts []) : ts = [] := by
  obtain ⟨h, -⟩ := h
  cases h
  rfl

theorem cons (h : Similar s ts (u :: us)) :
    ∃ t ts', ts = t :: ts' ∧ Token.Alike s t u ∧ Similar (s.afterToken u) ts' us := by
  obtain ⟨h, hapart⟩ := h
  cases h with
  | @cons _ t _ ts _ htu hrest =>
    refine ⟨t, ts, rfl, htu, hrest, ?_⟩
    cases us with
    | nil => rfl
    | cons v us =>
      rw [symbolsApart, Bool.and_eq_true] at hapart
      exact hapart.2

/-- In a class, a symbol and a hyphen are no neighbours. -/
theorem not_neighbours {v : Token} (h : Similar .inClass ts (u :: v :: us)) :
    (u.symbol?.isSome = true → v.isMark '-' = false) ∧
      (u.isMark '-' = true → v.symbol?.isSome = false) := by
  have hapart := h.apart
  rw [symbolsApart, Bool.and_eq_true] at hapart
  have hneighbours := hapart.1
  simp only [beq_self_eq_true, Bool.true_and, Bool.not_eq_true', Bool.or_eq_false_iff,
    Bool.and_eq_false_iff] at hneighbours
  obtain ⟨hbefore, hafter⟩ := hneighbours
  exact ⟨fun hu => hbefore.resolve_left (by simp [hu]),
    fun hu => hafter.resolve_left (by simp [hu])⟩

end Similar

/-! ## Readers on alike tokens -/

section

variable {α β : Type} {R : α → α → Prop} {S : β → β → Prop}

/-- Both computations fail, or both give values that are related. -/
inductive Agree (R : α → α → Prop) : Except Error α → Except Error α → Prop
  | error (e e' : Error) : Agree R (.error e) (.error e')
  | ok {a b} (h : R a b) : Agree R (.ok a) (.ok b)

theorem Agree.bind {x y : Except Error α} {f g : α → Except Error β} (h : Agree R x y)
    (hfg : ∀ a b, R a b → Agree S (f a) (g b)) : Agree S (x >>= f) (y >>= g) := by
  cases h with
  | error e e' => exact .error e e'
  | ok h => exact hfg _ _ h

/-- The same has been read, and similar tokens are left. -/
inductive SameRead (s : Surroundings) : α × List Token → α × List Token → Prop
  | intro (a : α) {ts us} (h : Similar s ts us) : SameRead s (a, ts) (a, us)

end

section

variable {s : Surroundings} {ts us : List Token}

theorem expect_similar {c : Char} (hc : c ∈ signs) (h : Similar s ts us) :
    Agree (Similar (s.after c)) (Bounds.expect c ts) (Bounds.expect c us) := by
  cases us with
  | nil => rw [h.nil]; exact .error _ _
  | cons u us =>
    obtain ⟨t, ts, rfl, htu, hrest⟩ := h.cons
    rw [Bounds.expect, Bounds.expect, htu.isMark_eq hc]
    split
    · next hu =>
      obtain ⟨-, rfl⟩ := htu.eq_of_isMark hc hu
      exact .ok hrest
    · exact .error _ _

theorem takeWhile_isDigit_similar (h : Similar .inBraces ts us) :
    ts.takeWhile Token.isDigit = us.takeWhile Token.isDigit ∧
      Similar .inBraces (ts.dropWhile Token.isDigit) (us.dropWhile Token.isDigit) := by
  induction us generalizing ts with
  | nil => cases h.nil; exact ⟨rfl, h⟩
  | cons u us ih =>
    obtain ⟨t, ts, rfl, htu, hrest⟩ := h.cons
    cases hu : u.isDigit with
    | true =>
      have hafter : Surroundings.inBraces.afterToken u = .inBraces := by
        unfold Surroundings.afterToken
        split
        · exact Surroundings.after_of_isDigit _ hu
        · rfl
      rw [hafter] at hrest
      obtain ⟨htake, hdrop⟩ := ih hrest
      rw [htu.eq_of_isDigit hu, List.takeWhile_cons_of_pos hu, List.takeWhile_cons_of_pos hu,
        List.dropWhile_cons_of_pos hu, List.dropWhile_cons_of_pos hu, htake]
      exact ⟨rfl, hdrop⟩
    | false =>
      have ht : t.isDigit = false := htu.isDigit_eq.trans hu
      simp only [List.takeWhile_cons, List.dropWhile_cons, ht, hu, Bool.false_eq_true, if_false]
      exact ⟨trivial, h⟩

theorem readNumber_similar (h : Similar .inBraces ts us) :
    Agree (SameRead .inBraces) (Bounds.readNumber ts) (Bounds.readNumber us) := by
  obtain ⟨htake, hdrop⟩ := takeWhile_isDigit_similar h
  simp only [Bounds.readNumber, htake]
  split
  · exact .ok (.intro none hdrop)
  split
  · exact .error _ _
  · exact .ok (.intro _ hdrop)

/-- Similar tokens after an opening brace are the same bounds. -/
theorem read_similar (h : Similar .inBraces ts us) :
    Agree (SameRead .plain) (Bounds.read ts) (Bounds.read us) := by
  unfold Bounds.read
  refine (readNumber_similar h).bind ?_
  rintro _ _ ⟨first, h⟩
  rename_i ts us
  have hclose : ts.head?.any (·.isMark '\x7d') = us.head?.any (·.isMark '\x7d') := by
    cases us with
    | nil => rw [h.nil]
    | cons u us =>
      obtain ⟨t, ts, rfl, htu, -⟩ := h.cons
      exact htu.isMark_eq (by decide)
  simp only [hclose]
  split
  · next hmark =>
    cases first with
    | none => exact .error _ _
    | some n =>
      cases us with
      | nil => cases hmark
      | cons u us =>
        obtain ⟨t, ts, rfl, htu, hrest⟩ := h.cons
        obtain ⟨-, rfl⟩ := htu.eq_of_isMark (by decide) hmark
        exact .ok (.intro _ hrest)
  · refine (expect_similar (by decide) h).bind fun ts us h => ?_
    refine (readNumber_similar h).bind ?_
    rintro _ _ ⟨second, h⟩
    refine (expect_similar (by decide) h).bind fun ts us h => ?_
    cases Bounds.ofPair first second with
    | error e => exact .error e e
    | ok q => exact .ok (.intro q h)

/-- Similar tokens after an opening parenthesis are the same opening. -/
theorem readOpening_similar (h : Similar .plain ts us) :
    Agree (Similar .plain) (readOpening ts) (readOpening us) := by
  cases us with
  | nil => cases h.nil; exact .ok h
  | cons u us =>
    obtain ⟨t, ts, rfl, htu, hrest⟩ := h.cons
    rw [readOpening, readOpening, htu.isMark_eq (c := '?') (by decide)]
    split
    · next hu =>
      obtain ⟨-, rfl⟩ := htu.eq_of_isMark (c := '?') (by decide) hu
      exact expect_similar (c := ':') (by decide) hrest
    · exact .ok h

/-! ### Classes -/

open CharClass

theorem afterToken_inClass {u : Token} (hu : Part.ofToken u ≠ .close) :
    Surroundings.inClass.afterToken u = .inClass := by
  cases u with
  | char c i =>
    cases i with
    | some i => rfl
    | none =>
      have hc : c ≠ ']' := by
        rintro rfl
        exact hu rfl
      simp [Surroundings.afterToken, Surroundings.after, hc]
  | escape | malformed => rfl

theorem isMark_of_ofToken_eq_close {u : Token} (hu : Part.ofToken u = .close) :
    u.isMark ']' = true := by
  unfold Part.ofToken at hu
  split at hu
  · next c i =>
    by_cases hc : c = ']'
    · rw [Token.isMark, hc, beq_self_eq_true]
    · rw [if_neg hc] at hu
      cases hu
  all_goals cases hu

theorem after_similar {members : List Atom} {x y : Except Error (List Atom × List Token)}
    (h : Agree (SameRead s) x y) : Agree (SameRead s) (after members x) (after members y) := by
  cases h with
  | error e e' => exact .error e e'
  | ok h =>
    obtain ⟨following, h⟩ := h
    exact .ok (.intro (members ++ following) h)

theorem startsRange_similar (h : Similar .inClass ts us) : startsRange ts = startsRange us := by
  cases us with
  | nil => rw [h.nil]
  | cons u us =>
    obtain ⟨t, ts, rfl, htu, hrest⟩ := h.cons
    cases us with
    | nil => rw [hrest.nil]; rfl
    | cons v us =>
      obtain ⟨w, ts, rfl, hwv, -⟩ := hrest.cons
      rw [startsRange, startsRange, htu.isMark_eq (by decide), hwv.isMark_eq (by decide)]

/-- After the same character and a hyphen, similar tokens make the same range or the same mistake,
if what comes after the range is read alike. -/
theorem readMembers_hyphen_similar {t u v w : Token} {c : Char} {a : Atom}
    (ht : Part.ofToken t = .single c a) (hu : Part.ofToken u = .single c a)
    (hw : w.isMark '-' = true) (hv : v.isMark '-' = true) (h : Similar .inClass ts us)
    (hnext : ∀ x ∈ us.head?, x.symbol?.isSome = false)
    (ih : ∀ {ts' us' : List Token}, us'.length < us.length → Similar .inClass ts' us' →
      Agree (SameRead .plain) (readMembers ts') (readMembers us')) :
    Agree (SameRead .plain) (readMembers (t :: w :: ts)) (readMembers (u :: v :: us)) := by
  rcases us with _ | ⟨x, us⟩
  · rw [h.nil, readMembers_hyphen_nil ht hw, readMembers_hyphen_nil hu hv]
    exact .error _ _
  obtain ⟨y, ts, rfl, hyx, hrest⟩ := h.cons
  cases hx : Part.ofToken x with
  | wrong e =>
    have hy := hyx.ofToken_eq (by simp [hx])
    rw [readMembers_hyphen_wrong ht hw (hy.trans hx), readMembers_hyphen_wrong hu hv hx]
    exact .error e e
  | close =>
    have hy := hyx.ofToken_eq (by simp [hx])
    obtain ⟨-, rfl⟩ := hyx.eq_of_isMark (c := ']') (by decide) (isMark_of_ofToken_eq_close hx)
    rw [readMembers_hyphen_close ht hw (hy.trans hx), readMembers_hyphen_close hu hv hx]
    exact .ok (.intro _ hrest)
  | set cs =>
    have hy := hyx.ofToken_eq (by simp [hx])
    rw [readMembers_hyphen_set ht hw (hy.trans hx), readMembers_hyphen_set hu hv hx]
    exact .error _ _
  | single hi b =>
    obtain ⟨hi', hy, hhi⟩ := hyx.ofToken_single hx
    obtain rfl := hhi (hnext x rfl)
    rw [afterToken_inClass (by simp [hx])] at hrest
    rw [readMembers_range ht hw hy, readMembers_range hu hv hx]
    split
    · exact .error _ _
    · exact after_similar (ih (Nat.lt_succ_self _) hrest)

/-- Similar tokens after an opening bracket are the same members. -/
theorem readMembers_similar (h : Similar .inClass ts us) :
    Agree (SameRead .plain) (readMembers ts) (readMembers us) := by
  -- members are read one to three tokens at a time, so the induction is on the length
  induction hn : us.length using Nat.strongRecOn generalizing ts us with
  | ind n ih =>
  subst hn
  rcases us with _ | ⟨u, us⟩
  · rw [h.nil]; exact .error _ _
  obtain ⟨t, ts, rfl, htu, hrest⟩ := h.cons
  cases hu : Part.ofToken u with
  | wrong e =>
    have ht := htu.ofToken_eq (by simp [hu])
    rw [readMembers_wrong (ht.trans hu), readMembers_wrong hu]
    exact .error e e
  | close =>
    have ht := htu.ofToken_eq (by simp [hu])
    obtain ⟨-, rfl⟩ := htu.eq_of_isMark (c := ']') (by decide) (isMark_of_ofToken_eq_close hu)
    rw [readMembers_close (ht.trans hu), readMembers_close hu]
    exact .ok (.intro [] hrest)
  | set cs =>
    have ht := htu.ofToken_eq (by simp [hu])
    rw [afterToken_inClass (by simp [hu])] at hrest
    rw [readMembers_set (ht.trans hu), readMembers_set hu, startsRange_similar hrest]
    split
    · exact .error _ _
    · exact after_similar (ih _ (by simp) hrest rfl)
  | single c a =>
    obtain ⟨d, ht, hd⟩ := htu.ofToken_single hu
    rw [afterToken_inClass (by simp [hu])] at hrest
    rcases us with _ | ⟨v, us⟩
    · rw [hrest.nil, readMembers_single_nil ht, readMembers_single_nil hu]
      exact .error _ _
    obtain ⟨w, ts, rfl, hwv, hrest'⟩ := hrest.cons
    have hhyphen := hwv.isMark_eq (c := '-') (by decide)
    cases hv : v.isMark '-' with
    | false =>
      rw [readMembers_single ht (hhyphen.trans hv), readMembers_single hu hv]
      exact after_similar (ih _ (by simp) hrest rfl)
    | true =>
      have hw := hhyphen.trans hv
      obtain ⟨-, rfl⟩ := hwv.eq_of_isMark (by decide) hv
      -- a symbol is not next to a hyphen, so the ends of the range are the same characters
      have hu' : u.symbol?.isSome = false := by
        by_contra hsymbol
        rw [Bool.not_eq_false] at hsymbol
        rw [h.not_neighbours.1 hsymbol] at hv
        cases hv
      obtain rfl := hd hu'
      replace hrest' : Similar .inClass ts us := hrest'
      refine readMembers_hyphen_similar ht hu hw hv hrest' (fun x hx => ?_)
        fun hlength h => ih _ (by simp; omega) h rfl
      cases us with
      | nil => cases hx
      | cons y us =>
        cases hx
        exact hrest.not_neighbours.2 hv

/-- Similar tokens after an opening bracket are the same class. -/
theorem readClass_similar (h : Similar .inClass ts us) :
    Agree (SameRead .plain) (readClass ts) (readClass us) := by
  have hnegation : ts.head?.any (·.isMark '^') = us.head?.any (·.isMark '^') := by
    cases us with
    | nil => rw [h.nil]
    | cons u us =>
      obtain ⟨t, ts, rfl, htu, -⟩ := h.cons
      exact htu.isMark_eq (by decide)
  rw [readClass, readClass, hnegation]
  split
  · exact .error _ _
  refine (readMembers_similar h).bind ?_
  rintro _ _ ⟨members, h⟩
  dsimp only
  split
  · exact .error _ _
  · exact .ok (.intro _ h)

end

/-! ## Patterns of alike tokens -/

/-- The lexeme, with mistakes of all kinds taken for one. -/
def Lexeme.blur : Lexeme → Lexeme
  | .malformed _ => .malformed .unexpectedEnd
  | .repetition mark (.error _) => .repetition mark (.error .unexpectedEnd)
  | l => l

theorem afterToken_plain {u : Token} {x : Lexeme} (hx : u.alone? = some x) :
    Surroundings.plain.afterToken u = .plain := by
  unfold Surroundings.afterToken
  split
  · unfold Surroundings.after
    split
    · cases hx
    · cases hx
    all_goals rfl
  · rfl

/-- Similar tokens are the same lexemes, if all mistakes are taken for one. -/
theorem map_blur_lexemes_eq {ts us : List Token} (h : Similar .plain ts us) :
    (lexemes ts).map Lexeme.blur = (lexemes us).map Lexeme.blur := by
  induction us using lexemesInduction generalizing ts with
  | nil => rw [h.nil]
  | malformed e rest =>
    obtain ⟨t, ts, rfl, htu, -⟩ := h.cons
    cases htu
    rw [lexemes_malformed, lexemes_malformed]
  | alone u x rest hx ih =>
    obtain ⟨t, ts, rfl, htu, hrest⟩ := h.cons
    rw [afterToken_plain hx] at hrest
    rw [lexemes_alone hx, lexemes_alone (htu.alone?_eq.trans hx), List.map_cons, List.map_cons,
      ih hrest]
  | opening i rest ih =>
    obtain ⟨t, ts, rfl, htu, hrest⟩ := h.cons
    obtain ⟨rfl, hu⟩ := htu.eq_of_isMark (c := '(') (by decide) rfl
    cases hu
    have hread := readOpening_similar hrest
    rw [lexemes_opening, lexemes_opening]
    generalize readOpening ts = x at hread ⊢
    generalize readOpening rest = y at hread ih ⊢
    cases hread with
    | error => rfl
    | ok hbeyond => simp only [List.map_cons, ih _ rfl hbeyond]
  | charClass i rest ih =>
    obtain ⟨t, ts, rfl, htu, hrest⟩ := h.cons
    obtain ⟨rfl, hu⟩ := htu.eq_of_isMark (c := '[') (by decide) rfl
    cases hu
    have hread := readClass_similar hrest
    rw [lexemes_class, lexemes_class]
    generalize readClass ts = x at hread ⊢
    generalize readClass rest = y at hread ih ⊢
    cases hread with
    | error => rfl
    | ok hread =>
      obtain ⟨members, hbeyond⟩ := hread
      simp only [List.map_cons, ih _ _ rfl hbeyond]
  | braces i rest ih =>
    obtain ⟨t, ts, rfl, htu, hrest⟩ := h.cons
    obtain ⟨rfl, hu⟩ := htu.eq_of_isMark (c := '\x7b') (by decide) rfl
    cases hu
    have hread := read_similar hrest
    rw [lexemes_braces, lexemes_braces]
    generalize Bounds.read ts = x at hread ⊢
    generalize Bounds.read rest = y at hread ih ⊢
    cases hread with
    | error => rfl
    | ok hread =>
      obtain ⟨q, hbeyond⟩ := hread
      simp only [List.map_cons, ih _ _ rfl hbeyond]

/-- A step fails on a lexeme or comes to the same draft when mistakes are taken for one. -/
theorem Draft.step_blur (limit : ℕ) (d : Draft) (l : Lexeme) :
    (d.step limit l.blur).toOption = (d.step limit l).toOption := by
  unfold Lexeme.blur
  split
  · rfl
  · next mark e =>
    unfold Draft.step
    cases d.slot with
    | closed | bare => rfl
    | quantified => rfl
  · rfl

/-- Which mistakes there are does not change the pattern that is read. -/
theorem toOption_ofLexemes_blur (limit : ℕ) (ls : List Lexeme) :
    (ofLexemes limit (ls.map Lexeme.blur)).toOption = (ofLexemes limit ls).toOption := by
  have hbind {α β : Type} (x : Except Error α) (f : α → Except Error β) :
      (x >>= f).toOption = x.toOption.bind fun a => (f a).toOption := by cases x <;> rfl
  unfold ofLexemes
  generalize Draft.empty = d
  induction ls generalizing d with
  | nil => rfl
  | cons l ls ih =>
    rw [List.map_cons, List.foldlM_cons, List.foldlM_cons, bind_assoc, bind_assoc, hbind, hbind,
      Draft.step_blur]
    simp only [ih]

/-- Tokens that are alike are the same pattern, or both have a mistake. -/
theorem ofTokens_alike {limit : ℕ} {ts us : List Token} (h : Alike .plain ts us)
    (hapart : symbolsApart .plain us = true) :
    (ofTokens limit ts).toOption = (ofTokens limit us).toOption := by
  rw [ofTokens, ofTokens, ← toOption_ofLexemes_blur, map_blur_lexemes_eq ⟨h, hapart⟩,
    toOption_ofLexemes_blur]

end Pattern

end Confection
