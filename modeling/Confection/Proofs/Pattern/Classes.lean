import Mathlib
import Confection.Proofs.Pattern.Phrases
import Confection.Proofs.Spelling.Tokens

/-!
# Classes as they are written

A class is written as its members one after the other, perhaps with a hyphen at its end, and is read
as what the members stand for, in this order (`parse_class`).  Members do not get in the way of each
other: a hyphen makes a range of its two neighbours, but no member starts with one.

## Shape of the proof

The members are read in two steps, as everything in a pattern is.  In tokens they are the clauses of
a phrase, and `readMembers_clauses` reads clauses by induction on their list.  What a character is
spelled as matters only in the first step, which makes one token of each spelling.
-/

namespace Confection.Pattern

/-! ## Clauses -/

/-- Does the character stand for itself inside a class, as its end and a hyphen do not? -/
def Written.Inside : Written → Prop
  | plain c _ => c ≠ ']' ∧ c ≠ '-'
  | escaped _ => True

/-- Can the clause be told apart from what is around it? -/
def Clause.Inside : Clause → Prop
  | lone x => x.Inside
  | set cs => cs ≠ []
  | range lo hi => lo.Inside ∧ hi.Inside

/-- The ends of a range that runs downwards. -/
def Clause.descending? : Clause → Option (Char × Char)
  | range lo hi => if hi.char < lo.char then some (lo.char, hi.char) else none
  | lone _ | set _ => none

/-- The end of a class, which may be a hyphen before the bracket. -/
def classEnd (hyphen : Bool) : Text := if hyphen then ['-', ']'] else [']']

/-- The member that a hyphen at the end of a class is. -/
def hyphenMember (hyphen : Bool) : List Atom := if hyphen then [.literal '-'] else []

/-- What a class with these clauses is read as, with the tokens after it. -/
def classResult (clauses : List Clause) (hyphen : Bool) (rest : List Token) :
    Except Error (List Atom × List Token) :=
  match clauses.findSome? Clause.descending? with
  | some (lo, hi) => .error (.descendingRange lo hi)
  | none => .ok (clauses.flatMap Clause.members ++ hyphenMember hyphen, rest)

theorem classResult_cons {cl : Clause} (h : cl.descending? = none) (clauses : List Clause)
    (hyphen : Bool) (rest : List Token) :
    classResult (cl :: clauses) hyphen rest =
      CharClass.after cl.members (classResult clauses hyphen rest) := by
  simp only [classResult, List.findSome?_cons, h]
  cases clauses.findSome? Clause.descending? with
  | none => simp [CharClass.after, Except.map]
  | some p => rfl

namespace CharClass

variable {clauses : List Clause} {hyphen : Bool} {rest : List Token}

theorem ofToken_token {x : Written} (h : x.Inside) :
    Part.ofToken x.token = .single x.char x.atom := by
  cases x with
  | plain c i => exact if_neg h.1
  | escaped c => rfl

theorem isMark_token {x : Written} (h : x.Inside) : x.token.isMark '-' = false := by
  cases x with
  | plain c i => exact beq_eq_false_iff_ne.2 h.2
  | escaped c => rfl

/-- Only the hyphen at the end starts with a hyphen. -/
theorem exists_tokens_eq_cons (hclauses : ∀ cl ∈ clauses, cl.Inside)
    (h : clauses = [] → hyphen = false) (rest : List Token) :
    ∃ t ts, clauses.flatMap Clause.tokens ++ (plainTokens (classEnd hyphen) ++ rest) = t :: ts ∧
      t.isMark '-' = false := by
  cases clauses with
  | nil =>
    rw [h rfl]
    exact ⟨_, _, rfl, rfl⟩
  | cons cl clauses =>
    have hcl := (List.forall_mem_cons.1 hclauses).1
    cases cl with
    | lone x => exact ⟨_, _, rfl, isMark_token hcl⟩
    | set cs => exact ⟨_, _, rfl, rfl⟩
    | range lo hi => exact ⟨_, _, rfl, isMark_token hcl.1⟩

/-- What follows a set in a class does not make a range of it. -/
theorem startsRange_clauses (hclauses : ∀ cl ∈ clauses, cl.Inside) :
    startsRange (clauses.flatMap Clause.tokens ++ (plainTokens (classEnd hyphen) ++ rest)) =
      false := by
  by_cases h : clauses = [] → hyphen = false
  · obtain ⟨t, ts, htokens, hmark⟩ := exists_tokens_eq_cons hclauses h rest
    rw [htokens]
    cases ts with
    | nil => rfl
    | cons u ts => simp [startsRange, hmark]
  · obtain ⟨rfl, hhyphen⟩ := Classical.not_imp.1 h
    rw [Bool.eq_true_of_not_eq_false hhyphen]
    rfl

/-- The clauses of a class stand for their members, up to a range that runs downwards. -/
theorem readMembers_clauses (hclauses : ∀ cl ∈ clauses, cl.Inside) :
    readMembers (clauses.flatMap Clause.tokens ++ (plainTokens (classEnd hyphen) ++ rest)) =
      classResult clauses hyphen rest := by
  induction clauses with
  | nil =>
    cases hyphen with
    | false => exact readMembers_close rfl
    | true =>
      refine (readMembers_single rfl rfl).trans ?_
      rw [readMembers_close rfl]
      rfl
  | cons cl clauses ih =>
    obtain ⟨hcl, hrest⟩ := List.forall_mem_cons.1 hclauses
    cases cl with
    | lone x =>
      by_cases hend : clauses = [] → hyphen = false
      · obtain ⟨t, ts, htokens, hmark⟩ := exists_tokens_eq_cons hrest hend rest
        show readMembers (x.token :: (clauses.flatMap Clause.tokens ++ _)) = _
        rw [classResult_cons rfl, ← ih hrest, htokens,
          readMembers_single (ofToken_token hcl) hmark]
        rfl
      · -- the hyphen at the end comes right after this member
        obtain ⟨rfl, hhyphen⟩ := Classical.not_imp.1 hend
        rw [Bool.eq_true_of_not_eq_false hhyphen]
        exact readMembers_hyphen_close (ofToken_token hcl) rfl rfl
    | set cs =>
      show readMembers (.escape (.set cs) ::
        (clauses.flatMap Clause.tokens ++ (plainTokens (classEnd hyphen) ++ rest))) = _
      rw [classResult_cons rfl, ← ih hrest, readMembers_set rfl, startsRange_clauses hrest]
      rfl
    | range lo hi =>
      refine (readMembers_range (ofToken_token hcl.1) rfl (ofToken_token hcl.2)).trans ?_
      by_cases hle : hi.char < lo.char
      · rw [if_pos hle, classResult, List.findSome?_cons, Clause.descending?, if_pos hle]
      · have hnone : (Clause.range lo hi).descending? = none := if_neg hle
        rw [if_neg hle, classResult_cons hnone]
        exact congrArg (after _) (ih hrest)

theorem members_ne_nil {cl : Clause} (hcl : cl.Inside) (hle : cl.descending? = none) :
    cl.members ≠ [] := by
  cases cl with
  | lone x => exact List.cons_ne_nil _ _
  | set cs => exact mt List.map_eq_nil_iff.1 hcl
  | range lo hi =>
    have hle : ¬ hi.char < lo.char := fun h => by simp [Clause.descending?, h] at hle
    have hmem : lo.char ∈ Text.scalarsBetween lo.char.toNat hi.char.toNat :=
      Text.mem_scalarsBetween_iff.2 ⟨le_rfl, Char.not_lt.1 hle⟩
    simpa [Clause.members, range] using List.ne_nil_of_mem hmem

/-- A class is not empty if it has a clause or a hyphen. -/
theorem allMembers_ne_nil (hclauses : ∀ cl ∈ clauses, cl.Inside)
    (hne : clauses ≠ [] ∨ hyphen = true) (hle : clauses.findSome? Clause.descending? = none) :
    clauses.flatMap Clause.members ++ hyphenMember hyphen ≠ [] := by
  obtain hne | rfl := hne
  · obtain ⟨cl, clauses, rfl⟩ := List.exists_cons_of_ne_nil hne
    have hcl : cl ∈ cl :: clauses := List.mem_cons_self
    rw [List.flatMap_cons, List.append_assoc]
    exact List.append_ne_nil_of_left_ne_nil
      (members_ne_nil (hclauses cl hcl) (List.findSome?_eq_none_iff.1 hle cl hcl)) _
  · exact List.append_ne_nil_of_right_ne_nil _ (List.cons_ne_nil _ _)

end CharClass

open CharClass

section

variable {clauses : List Clause} {hyphen : Bool} {rest : List Token}
  (hclauses : ∀ cl ∈ clauses, cl.Inside) (hne : clauses ≠ [] ∨ hyphen = true)
  (hcaret : ∀ t ∈ (clauses.flatMap Clause.tokens).head?, t.isMark '^' = false)

include hclauses hne hcaret

/-- A class is read as its members, each of them once. -/
theorem readClass_clauses :
    readClass (clauses.flatMap Clause.tokens ++ (plainTokens (classEnd hyphen) ++ rest)) =
      (classResult clauses hyphen rest).map (Prod.map List.eraseDups id) := by
  have hnegated : ¬ (clauses.flatMap Clause.tokens ++
      (plainTokens (classEnd hyphen) ++ rest)).head?.any (·.isMark '^') = true := by
    cases htokens : clauses.flatMap Clause.tokens with
    | nil => cases hyphen <;> simp [plainTokens, classEnd, Token.isMark]
    | cons t ts => simp [hcaret t (by rw [htokens]; rfl)]
  rw [readClass, if_neg hnegated, readMembers_clauses hclauses, classResult]
  cases hrange : clauses.findSome? Clause.descending? with
  | some p => rfl
  | none =>
    have hmembers := allMembers_ne_nil hclauses hne hrange
    rw [← List.isEmpty_iff.ne] at hmembers
    refine (if_neg hmembers).trans ?_
    rw [firstOccurrences_eq_eraseDups]
    rfl

/-- The lexeme of a class: its members, or the mistake in its first range that runs downwards. -/
theorem lexemes_clauses {i : Option ℕ} :
    lexemes (.char '[' i ::
        (clauses.flatMap Clause.tokens ++ (plainTokens (classEnd hyphen) ++ rest))) =
      match clauses.findSome? Clause.descending? with
      | some (lo, hi) => [.malformed (.descendingRange lo hi)]
      | none => .element (.oneOf
          (clauses.flatMap Clause.members ++ hyphenMember hyphen).eraseDups) :: lexemes rest := by
  rw [lexemes_class, readClass_clauses hclauses hne hcaret, classResult]
  cases clauses.findSome? Clause.descending? <;> rfl

end

/-! ## Spellings -/

/-- The letters and the digit that make an escape for another character. -/
def controlEscapes : List (Char × Char) :=
  [('t', '\t'), ('n', '\n'), ('r', '\r'), ('f', '\x0c'), ('v', '\x0b'), ('0', '\x00')]

/-- The letters that make an escape for a set of characters. -/
def setEscapes : List (Char × List Char) :=
  [('d', "0123456789".toList),
    ('w', "abcdefghijklmnopqrstuvwxyzABCDEFGHIJKLMNOPQRSTUVWXYZ0123456789_".toList),
    ('s', " \t\n\r\x0b\x0c".toList)]

/-- A character as it is spelled in a class. -/
inductive Spelled where
  /-- The character itself. -/
  | plain (c : Char) (h : c ∉ [']', '\\', '-'])
  /-- A backslash before the character. -/
  | escaped (c : Char) (h : c.isAlphanum = false)
  /-- A backslash before a letter or digit that means another character. -/
  | control (e : Char × Char) (h : e ∈ controlEscapes)
  /-- The code of the character in two hexadecimal digits, which have the given values. -/
  | hex (a b : Char) (m n : ℕ) (ha : Text.hexDigit? a = some m) (hb : Text.hexDigit? b = some n)

namespace Spelled

/-- How the character is spelled. -/
def text : Spelled → Text
  | plain c _ => [c]
  | escaped c _ => ['\\', c]
  | control e _ => ['\\', e.1]
  | hex a b _ _ _ _ => ['\\', 'x', a, b]

/-- The character that is meant. -/
def char : Spelled → Char
  | plain c _ | escaped c _ => c
  | control e _ => e.2
  | hex _ _ m n _ _ => Char.ofNat (16 * m + n)

/-- What the character is when it stands alone: only the letter of a symbol that is written as it is
stands for the symbol. -/
def atom (symbols : List Char) : Spelled → Atom
  | plain c _ =>
    match symbols.idxOf? c with
    | some i => .symbol i
    | none => .literal c
  | x => .literal x.char

/-- The token of the spelling. -/
def written (symbols : List Char) : Spelled → Written
  | plain c _ => .plain c (symbols.idxOf? c)
  | x => .escaped x.char

variable {symbols : List Char}

theorem char_written (x : Spelled) : (x.written symbols).char = x.char := by cases x <;> rfl

theorem atom_written (x : Spelled) : (x.written symbols).atom = x.atom symbols := by
  cases x with
  | plain c h =>
    show atomOf c (symbols.idxOf? c) = _
    rw [atom]
    cases symbols.idxOf? c <;> rfl
  | escaped | control | hex => rfl

theorem inside_written (x : Spelled) : (x.written symbols).Inside := by
  cases x with
  | plain c h => exact ⟨fun hc => h (by simp [hc]), fun hc => h (by simp [hc])⟩
  | escaped | control | hex => trivial

/-- The escape of anything but a letter or a digit is that character. -/
theorem ofEscape_of_not_isAlphanum {c : Char} (h : c.isAlphanum = false) :
    Token.ofEscape c = .escape (.char c) := by
  unfold Token.ofEscape Escape.ofChar?
  split
  · next e he =>
    split at he
    case h_10 => rw [h] at he; cases he; rfl
    all_goals cases h
  · next he =>
    split at he
    case h_10 => rw [h] at he; cases he
    all_goals cases he

/-- A spelling is read as one token. -/
theorem tokens_text (x : Spelled) (rest : Text) :
    tokens symbols (x.text ++ rest) = (x.written symbols).token :: tokens symbols rest := by
  cases x with
  | plain c h => exact tokens_char fun hc => h (by simp [hc])
  | escaped c h =>
    have hx : c ≠ 'x' := by rintro rfl; cases h
    refine (tokens_escape hx).trans ?_
    rw [ofEscape_of_not_isAlphanum h]
    rfl
  | control e h =>
    simp only [controlEscapes, List.mem_cons, List.not_mem_nil, or_false] at h
    obtain rfl | rfl | rfl | rfl | rfl | rfl := h <;> exact tokens_escape (by decide)
  | hex a b m n ha hb =>
    refine tokens_hex.trans ?_
    rw [Token.ofHex, ha, hb]
    rfl

end Spelled

/-- A member of a class as it is written. -/
inductive Member where
  | lone (x : Spelled)
  | set (e : Char × List Char) (h : e ∈ setEscapes)
  | range (lo hi : Spelled)

namespace Member

/-- How the member is written. -/
def text : Member → Text
  | lone x => x.text
  | set e _ => ['\\', e.1]
  | range lo hi => lo.text ++ '-' :: hi.text

/-- What the member stands for. -/
def atoms (symbols : List Char) : Member → List Atom
  | lone x => [x.atom symbols]
  | set e _ => e.2.map .literal
  | range lo hi => (Text.scalarsBetween lo.char.toNat hi.char.toNat).map .literal

/-- The ends of a range that runs downwards. -/
def descending? : Member → Option (Char × Char)
  | range lo hi => if hi.char < lo.char then some (lo.char, hi.char) else none
  | lone _ | set _ _ => none

/-- The member in tokens. -/
def clause (symbols : List Char) : Member → Clause
  | lone x => .lone (x.written symbols)
  | set e _ => .set e.2
  | range lo hi => .range (lo.written symbols) (hi.written symbols)

variable {symbols : List Char}

theorem members_clause (m : Member) : (m.clause symbols).members = m.atoms symbols := by
  cases m with
  | lone x => exact congrArg ([·]) x.atom_written
  | set => rfl
  | range lo hi => simp only [clause, Clause.members, CharClass.range, Spelled.char_written, atoms]

theorem descending?_clause (m : Member) : (m.clause symbols).descending? = m.descending? := by
  cases m with
  | lone | set => rfl
  | range lo hi => simp only [clause, Clause.descending?, Spelled.char_written, descending?]

theorem inside_clause (m : Member) : (m.clause symbols).Inside := by
  cases m with
  | lone x => exact x.inside_written
  | set e h =>
    simp only [setEscapes, List.mem_cons, List.not_mem_nil, or_false] at h
    obtain rfl | rfl | rfl := h <;> exact List.cons_ne_nil _ _
  | range lo hi => exact ⟨lo.inside_written, hi.inside_written⟩

theorem tokens_text (hhyphen : symbols.idxOf? '-' = none) (m : Member) (rest : Text) :
    tokens symbols (m.text ++ rest) = (m.clause symbols).tokens ++ tokens symbols rest := by
  cases m with
  | lone x => exact x.tokens_text rest
  | set e h =>
    simp only [setEscapes, List.mem_cons, List.not_mem_nil, or_false] at h
    obtain rfl | rfl | rfl := h <;> exact tokens_escape (by decide)
  | range lo hi =>
    rw [text, List.append_assoc, lo.tokens_text, List.cons_append, tokens_char (by decide), hhyphen,
      hi.tokens_text]
    rfl

/-- The characters of a range, ascending: all from the one end to the other. -/
theorem exists_atoms_range (symbols : List Char) (lo hi : Spelled) :
    ∃ cs : List Char, (range lo hi).atoms symbols = cs.map .literal ∧ cs.Pairwise (· < ·) ∧
      ∀ c, c ∈ cs ↔ lo.char ≤ c ∧ c ≤ hi.char :=
  ⟨_, rfl, Text.pairwise_scalarsBetween _ _, fun _ => Text.mem_scalarsBetween_iff⟩

end Member

variable {symbols : List Char} {members : List Member} {hyphen : Bool}

/-- The tokens of members are those of their clauses. -/
theorem tokens_members (hhyphen : symbols.idxOf? '-' = none) (members : List Member) (rest : Text) :
    tokens symbols (members.flatMap Member.text ++ rest) =
      (members.map (Member.clause symbols)).flatMap Clause.tokens ++ tokens symbols rest := by
  induction members with
  | nil => rfl
  | cons m members ih =>
    rw [List.flatMap_cons, List.append_assoc, m.tokens_text hhyphen, ih, List.map_cons,
      List.flatMap_cons, List.append_assoc]

/-- A token is a mark only if the text has the character there. -/
theorem head?_of_isMark (symbols : List Char) {c : Char} {t : Text}
    (h : (tokens symbols t).head?.any (·.isMark c) = true) : t.head? = some c := by
  have hescape (d : Char) : (Token.ofEscape d).isMark c = false := by
    unfold Token.ofEscape
    split <;> rfl
  have hhex (a b : Char) : (Token.ofHex a b).isMark c = false := by
    unfold Token.ofHex
    split <;> rfl
  revert h
  fun_cases tokens symbols t with
  | case7 d rest hd =>
    intro h
    rw [List.head?_cons, Option.any_some, Token.isMark, beq_iff_eq] at h
    rw [h, List.head?_cons]
  | case5 => simp [hhex]
  | case6 => simp [hescape]
  | _ => simp [Token.isMark]

/-- If the text of the members does not start with a circumflex, their tokens do not either. -/
theorem isMark_head?_clauses (hhyphen : symbols.idxOf? '-' = none)
    (hcaret : (members.flatMap Member.text).head? ≠ some '^') :
    ∀ t ∈ ((members.map (Member.clause symbols)).flatMap Clause.tokens).head?,
      t.isMark '^' = false := by
  have htokens := tokens_members hhyphen members []
  rw [List.append_nil, tokens_nil, List.append_nil] at htokens
  intro t ht
  rw [← Bool.not_eq_true]
  intro hmark
  exact hcaret (head?_of_isMark symbols (by rw [htokens, ht]; exact hmark))

/-- The tokens of a class are those of its members between its brackets, which are no symbols. -/
theorem tokens_class (hsigns : ∀ c ∈ ['[', '-', ']'], symbols.idxOf? c = none) :
    tokens symbols ('[' :: (members.flatMap Member.text ++ classEnd hyphen)) =
      .char '[' none :: ((members.map (Member.clause symbols)).flatMap Clause.tokens ++
        (plainTokens (classEnd hyphen) ++ [])) := by
  simp only [List.forall_mem_cons] at hsigns
  obtain ⟨hopen, hhyphen, hclose, -⟩ := hsigns
  have hend : tokens symbols (classEnd hyphen) = plainTokens (classEnd hyphen) ++ [] := by
    cases hyphen <;> simp [classEnd, tokens_char, tokens_nil, hhyphen, hclose, plainTokens]
  rw [tokens_char (by decide), hopen, tokens_members hhyphen, hend]

/-- A class is read as what its members stand for, with later repetitions dropped, or refused for its
first range that runs downwards. -/
theorem parse_class (hsymbols : ∀ c ∈ symbols, c.isAlpha = true)
    (hcaret : (members.flatMap Member.text).head? ≠ some '^') (hne : members ≠ [] ∨ hyphen = true)
    (limit : ℕ) :
    (parse ('[' :: (members.flatMap Member.text ++ classEnd hyphen)) symbols limit =
      match members.findSome? Member.descending? with
      | some (lo, hi) => .error (.descendingRange lo hi)
      | none => .ok [[⟨.once, .oneOf
          (members.flatMap (Member.atoms symbols) ++ hyphenMember hyphen).eraseDups⟩]]) ∧
    ∀ lo hi, ∃ cs : List Char, (Member.range lo hi).atoms symbols = cs.map .literal ∧
      cs.Pairwise (· < ·) ∧ ∀ c, c ∈ cs ↔ lo.char ≤ c ∧ c ≤ hi.char := by
  refine ⟨?_, Member.exists_atoms_range symbols⟩
  let clauses : List Clause := members.map (Member.clause symbols)
  have hsigns : ∀ c ∈ ['[', '-', ']'], symbols.idxOf? c = none := by
    have hall : ['[', '-', ']'].all (!·.isAlpha) = true := rfl
    intro c hc
    refine List.idxOf?_eq_none_iff.2 fun hmem => ?_
    simpa [hsymbols c hmem] using List.all_eq_true.1 hall c hc
  have hinside : ∀ cl ∈ clauses, cl.Inside := by
    intro cl hcl
    obtain ⟨m, -, rfl⟩ := List.mem_map.1 hcl
    exact m.inside_clause
  have hmark : ∀ t ∈ (clauses.flatMap Clause.tokens).head?, t.isMark '^' = false :=
    isMark_head?_clauses (hsigns '-' (by simp)) hcaret
  have hdescending : clauses.findSome? Clause.descending? = members.findSome? Member.descending? := by
    rw [List.findSome?_map]
    exact congrArg (members.findSome? ·) (funext Member.descending?_clause)
  have hatoms : clauses.flatMap Clause.members = members.flatMap (Member.atoms symbols) := by
    rw [List.flatMap_map]
    exact congrArg (members.flatMap ·) (funext Member.members_clause)
  rw [parse, tokens_class hsigns, ofTokens,
    lexemes_clauses hinside (hne.imp_left (mt List.map_eq_nil_iff.1)) hmark, hdescending, hatoms,
    lexemes_nil]
  cases members.findSome? Member.descending? <;> rfl

/-- Members of every kind next to each other, some of them twice, with a hyphen at the end, and the
same with a range that runs downwards. -/
theorem parse_class_mixed :
    parse "[a\\s\\x61_-b\\-b-]".toList ['a', 'b'] 0 = .ok [[⟨.once, .oneOf
      [.symbol 0, .literal ' ', .literal '\t', .literal '\n', .literal '\r', .literal '\x0b',
        .literal '\x0c', .literal 'a', .literal '_', .literal '`', .literal 'b', .literal '-',
        .symbol 1]⟩]] ∧
    parse "[a\\s\\x61_-b\\-b\\t-\\n^-0-]".toList ['a', 'b'] 0 =
      .error (.descendingRange '^' '0') := by
  let members : List Member := [.lone (.plain 'a' (by decide)),
    .set setEscapes[2] (List.getElem_mem _), .lone (.hex '6' '1' 6 1 rfl rfl),
    .range (.plain '_' (by decide)) (.plain 'b' (by decide)), .lone (.escaped '-' rfl),
    .lone (.plain 'b' (by decide))]
  let more : List Member := [.range (.control ('t', '\t') (by decide))
    (.control ('n', '\n') (by decide)), .range (.plain '^' (by decide)) (.plain '0' (by decide))]
  have hsymbols : ∀ c ∈ ['a', 'b'], c.isAlpha = true := List.all_eq_true.1 rfl
  have hok := (@parse_class ['a', 'b'] members true hsymbols (by decide) (.inr rfl) 0).1
  have herror := (@parse_class ['a', 'b'] (members ++ more) true hsymbols (by decide) (.inr rfl) 0).1
  exact ⟨hok.trans (by cbv), herror.trans (by cbv)⟩

end Confection.Pattern
