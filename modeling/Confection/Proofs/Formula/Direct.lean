import Mathlib
import Confection.Proofs.Formula.Basic
import Confection.Proofs.Pattern.Respelling
import Confection.Proofs.Spelling.Tokens

/-!
# Reading a pattern line directly

A formula is made by spelling its line in letters and reading the text that this gives.  Here is the
short way, which no letter takes part in: `Direct.tokens` scans the line itself, and a name is a
token by its number from the start.  The tokens of the long way are these with the letters put in,
`Legend.Lettered.flatMap_tokens_eq`, and `ofLine_iff_ofTokens` says that they give the same pattern.

## Where the two ways differ

A letter is a character, and the ends of a range in a class are characters.  So a name that stands
next to a hyphen in a class must be excluded, and also the escape `\x`, whose digits are spelled as
a word.
-/

namespace Confection

open Pattern Text

theorem afterToken_ofEscape (s : Surroundings) (d : Char) : s.afterToken (.ofEscape d) = s := by
  unfold Token.ofEscape
  split <;> rfl

theorem symbol?_ofEscape (d : Char) : (Token.ofEscape d).symbol? = none := by
  unfold Token.ofEscape
  split <;> rfl

namespace Direct

/-- The character of a token that stands for a name. -/
def placeholder : Char := '\uFFFC'

/-- The tokens of a word: one for a name, and otherwise one for each character. -/
def wordTokens (names : List Text) (w : Text) : List Token :=
  match names.idxOf? w with
  | some i => [.char placeholder (some i)]
  | none => w.map (.char · none)

/-- The tokens of a text in the given surroundings.  Blanks are dropped, a backslash escapes the
character after it, and outside braces a word is taken whole at its first character, so nothing is
left to be done where one has been entered. -/
def tokensIn (names : List Text) (s : Surroundings) (entered : Bool) : Text → List Token
  | [] => []
  | c :: rest =>
    if c = '\\' then
      match rest with
      | [] => [.malformed .unexpectedEnd]
      | d :: rest => .ofEscape d :: tokensIn names s false rest
    else if isBlank c then tokensIn names s false rest
    else if s ≠ .inBraces && isIdentifierChar c then
      if entered then tokensIn names s true rest
      else wordTokens names (c :: rest.takeWhile isIdentifierChar) ++ tokensIn names s true rest
    else .char c none :: tokensIn names (s.after c) false rest

/-- The tokens of a pattern line in which the given names stand for symbols. -/
def tokens (names : List Text) (line : Text) : List Token := tokensIn names .plain false line

section

variable {names : List Text} {s : Surroundings} {entered : Bool} {rest : Text}

theorem tokensIn_nil : tokensIn names s entered [] = [] := by rw [tokensIn.eq_def]

theorem tokensIn_lone : tokensIn names s entered ['\\'] = [.malformed .unexpectedEnd] := by
  rw [tokensIn.eq_def]
  rfl

theorem tokensIn_escape {d : Char} :
    tokensIn names s entered ('\\' :: d :: rest) = .ofEscape d :: tokensIn names s false rest := by
  rw [tokensIn.eq_def]
  rfl

theorem tokensIn_cons {c : Char} (hc : c ≠ '\\') :
    tokensIn names s entered (c :: rest) =
      if isBlank c then tokensIn names s false rest
      else if s ≠ .inBraces && isIdentifierChar c then
        if entered then tokensIn names s true rest
        else wordTokens names (c :: rest.takeWhile isIdentifierChar) ++ tokensIn names s true rest
      else .char c none :: tokensIn names (s.after c) false rest := by
  rw [tokensIn.eq_def]
  exact if_neg hc

/-- Where no word goes on, it does not matter whether one has been entered. -/
theorem tokensIn_entered (hend : ¬ startsWord rest) :
    tokensIn names s true rest = tokensIn names s false rest := by
  match rest with
  | [] => rw [tokensIn_nil, tokensIn_nil]
  | c :: rest =>
    have hc : isIdentifierChar c = false := by
      rw [← Bool.not_eq_true]
      exact fun hc => hend ⟨c, rfl, hc⟩
    by_cases hescape : c = '\\'
    · subst hescape
      cases rest with
      | nil => rw [tokensIn_lone, tokensIn_lone]
      | cons d rest => rw [tokensIn_escape, tokensIn_escape]
    · simp only [tokensIn_cons hescape, hc, Bool.and_false, Bool.false_eq_true, if_false]

/-- The rest of a word that has been entered gives no tokens. -/
theorem tokensIn_append {w : Text} (hs : s ≠ .inBraces)
    (hw : ∀ c ∈ w, isIdentifierChar c = true) :
    tokensIn names s true (w ++ rest) = tokensIn names s true rest := by
  induction w with
  | nil => rfl
  | cons c w ih =>
    obtain ⟨hc, hw⟩ := List.forall_mem_cons.1 hw
    rw [List.cons_append, tokensIn_cons (ne_backslash_of_isIdentifierChar hc),
      isBlank_eq_false_of_isIdentifierChar hc, if_neg Bool.false_ne_true, if_pos (by simp [hs, hc]),
      if_pos rfl, ih hw]

theorem tokensIn_word {w : Text} (hs : s ≠ .inBraces) (hne : w ≠ [])
    (hword : ∀ c ∈ w, isIdentifierChar c = true) (hend : ¬ startsWord rest) :
    tokensIn names s false (w ++ rest) = wordTokens names w ++ tokensIn names s false rest := by
  obtain ⟨c, w, rfl⟩ := List.exists_cons_of_ne_nil hne
  obtain ⟨hc, hw⟩ := List.forall_mem_cons.1 hword
  have hstop : rest.takeWhile isIdentifierChar = [] := by
    cases rest with
    | nil => rfl
    | cons d rest => exact List.takeWhile_cons_of_neg fun hd => hend ⟨d, rfl, hd⟩
  rw [List.cons_append, tokensIn_cons (ne_backslash_of_isIdentifierChar hc),
    isBlank_eq_false_of_isIdentifierChar hc, if_neg Bool.false_ne_true, if_pos (by simp [hs, hc]),
    if_neg Bool.false_ne_true, List.takeWhile_append_of_pos hw, hstop, List.append_nil,
    tokensIn_append hs hw, tokensIn_entered hend]

/-- What a token of a line can be: an escape, an unfinished one, a literal character, or the number
of a name. -/
inductive IsToken (names : List Text) : Token → Prop
  | escape (d : Char) : IsToken names (.ofEscape d)
  | lone : IsToken names (.malformed .unexpectedEnd)
  | literal (c : Char) : IsToken names (.char c none)
  | name {i : ℕ} (hi : i < names.length) : IsToken names (.char placeholder (some i))

theorem isToken_of_mem_wordTokens {w : Text} {tok : Token} (h : tok ∈ wordTokens names w) :
    IsToken names tok := by
  unfold wordTokens at h
  split at h
  · next i hi =>
    obtain ⟨hlt, -, -⟩ := List.idxOf?_eq_some_iff.1 hi
    rw [List.mem_singleton.1 h]
    exact .name hlt
  · obtain ⟨c, -, rfl⟩ := List.mem_map.1 h
    exact .literal c

theorem isToken_of_mem_tokensIn {t : Text} {tok : Token} (h : tok ∈ tokensIn names s entered t) :
    IsToken names tok := by
  fun_induction tokensIn names s entered t
  case case1 => cases h
  case case2 =>
    rw [List.mem_singleton.1 h]
    exact .lone
  case case3 d rest ih =>
    rcases List.mem_cons.1 h with rfl | h
    · exact .escape d
    · exact ih h
  case case4 ih | case5 ih => exact ih h
  case case6 ih => exact (List.mem_append.1 h).elim isToken_of_mem_wordTokens ih
  case case7 ih =>
    rcases List.mem_cons.1 h with rfl | h
    · exact .literal _
    · exact ih h

end

end Direct

/-! ## The two ways compared -/

open Direct

variable {l : Legend} (hl : l.Lettered)

include hl

/-- The tokens of a word are those that it has by its number, spelled. -/
theorem Legend.Lettered.tokens_word {s : Surroundings} (hs : s ≠ .inBraces) {w : Text}
    (hw : ∀ c ∈ w, isIdentifierChar c = true) (ts : List Token) :
    Piece.tokens l (.word w) ++ spellTokens l.symbols s ts =
      spellTokens l.symbols s (wordTokens l.names w ++ ts) := by
  unfold Piece.tokens wordTokens
  cases hname : l.names.idxOf? w with
  | some i =>
    obtain ⟨c, -, hletter, hindex⟩ := hl.exists_letter hname
    obtain ⟨hi, hat, -⟩ := List.idxOf?_eq_some_iff.1 hindex
    have hspell : Token.spell l.symbols s (.char placeholder (some i)) = .char c (some i) := by
      rw [Token.spell, List.getD_eq_getElem?_getD, List.getElem?_eq_getElem hi, hat, Option.getD_some]
    simp only [hletter, hindex]
    exact congrArg (· :: spellTokens l.symbols s ts) hspell.symm
  | none =>
    simp only [letterOf?_eq_none hname]
    clear hname
    induction w with
    | nil => rfl
    | cons c w ih =>
      obtain ⟨hc, hw⟩ := List.forall_mem_cons.1 hw
      have hliteral : l.literalToken c = Token.spell l.symbols s (.char c none) := by
        by_cases hmem : c ∈ l.symbols
        · rw [Token.spell_of_mem hs hmem]
          exact if_pos (List.isSome_idxOf?.2 hmem)
        · rw [Token.spell_of_notMem hmem, literalToken, indexOf?, List.idxOf?_eq_none_iff.2 hmem]
          rfl
      have hsame : s.afterToken (.char c none) = s :=
        Surroundings.after_eq_self (notMem_brackets_of_isIdentifierChar hc)
      rw [List.map_cons, List.map_cons, List.cons_append, List.cons_append, ih hw, spellTokens,
        hsame, hliteral]

/-- The tokens of the pieces of a line are those that the line has directly, spelled. -/
theorem Legend.Lettered.flatMap_tokens_eq {s : Surroundings} {t : Text} {ps : List Piece}
    (h : Cuts s t ps) :
    ps.flatMap (Piece.tokens l) = spellTokens l.symbols s (tokensIn l.names s false t) := by
  induction h with
  | nil => rw [tokensIn_nil]; rfl
  | lone => rw [tokensIn_lone]; rfl
  | @escape s d rest ps _ ih =>
    rw [tokensIn_escape, spellTokens, afterToken_ofEscape, Token.spell_ofEscape, ← ih]
    rfl
  | @blank s c rest ps hblank _ ih =>
    rwa [tokensIn_cons (ne_backslash_of_isBlank hblank), if_pos hblank]
  | @word s w rest ps hs hne hword hend _ ih =>
    rw [tokensIn_word hs hne hword hend, ← hl.tokens_word hs hword, ← ih]
    rfl
  | @verbatim s c rest ps hescape hblank hword _ ih =>
    have hstep : ¬ (decide (s ≠ .inBraces) && isIdentifierChar c) = true := by
      rcases hword with rfl | hword <;> simp [*]
    have hspell : Token.spell l.symbols s (.char c none) = .char c (l.indexOf? c) := by
      rcases hword with rfl | hword
      · exact Token.spell_inBraces c
      · have hnone := hl.indexOf?_eq_none hword
        rw [hnone, Token.spell_of_notMem (List.idxOf?_eq_none_iff.1 hnone)]
    rw [tokensIn_cons hescape, hblank, if_neg Bool.false_ne_true, if_neg hstep, spellTokens, hspell]
    exact congrArg _ ih

/-- A line means the same spelled and scanned directly. -/
theorem Legend.Lettered.alike_tokensIn {s : Surroundings} {t : Text} {ps : List Piece}
    (h : Cuts s t ps) : Alike s (ps.flatMap (Piece.tokens l)) (tokensIn l.names s false t) := by
  have hlength : l.names.length = l.symbols.length := by simp [names, symbols]
  have hplaceholder : placeholder ∉ signs := by decide
  rw [hl.flatMap_tokens_eq h]
  refine alike_spellTokens (fun c hc => hl.not_mem_signs hc) fun d i hmem => ?_
  have htoken := isToken_of_mem_tokensIn hmem
  generalize htok : Token.char d (some i) = tok at htoken
  cases htoken with
  | escape e =>
    have hsymbol := symbol?_ofEscape e
    rw [← htok] at hsymbol
    cases hsymbol
  | lone | literal => cases htok
  | name hi =>
    cases htok
    exact ⟨hplaceholder, hlength ▸ hi⟩

omit hl

namespace Formula

/-- The pattern of a line is the one that is read from its tokens directly.  The line must be free
of the escape `\x`, and no name next to a hyphen in a class. -/
theorem ofLine_iff_ofTokens {line : Text} {pantry : Pantry} {settings : Settings}
    (hl : Legend.ofPantry pantry = .ok l) (hx : .escape (some 'x') ∉ Piece.ofLine line)
    (hapart : symbolsApart .plain (Direct.tokens l.names line) = true) (p : Pattern) :
    (∃ f, ofLine line pantry settings = .ok f ∧ f.pattern = p) ↔
      ofTokens settings.maxNesting (Direct.tokens l.names line) = .ok p := by
  have hlettered := Legend.lettered_of_ofPantry hl
  have hread : (Pattern.parse (l.spell line) l.symbols settings.maxNesting).toOption =
      (ofTokens settings.maxNesting (Direct.tokens l.names line)).toOption := by
    rw [Pattern.parse, hlettered.tokens_spell hx]
    exact ofTokens_alike (hlettered.alike_tokensIn (Piece.cuts_ofLine line)) hapart
  have hok (x : Except Pattern.Error Pattern) : x.toOption = some p ↔ x = .ok p := by
    cases x <;> simp [Except.toOption]
  rw [← hok, ← hread, hok]
  constructor
  · rintro ⟨f, hf, rfl⟩
    obtain ⟨hlegend, htext, hparse⟩ := ofLine_eq_ok_iff.1 hf
    obtain rfl := Except.ok.inj (hlegend.symm.trans hl)
    rwa [← htext]
  · intro hparse
    exact ⟨⟨l.spell line, p, l⟩, ofLine_eq_ok_iff.2 ⟨hl, rfl, hparse⟩, rfl⟩

/-- A literal that is the letter in use, a name in a class beside a range, and an escaped hyphen. -/
theorem ofLine_iff_ofTokens_letterInUse :
    let line : Text := "ab a[ab c-d\\-]\x7b1, 2\x7d abc".toList
    let i : Ingredient := ⟨['a', 'b'], [['x']]⟩
    .escape (some 'x') ∉ Piece.ofLine line ∧
      symbolsApart .plain (Direct.tokens [i.name] line) = true ∧
      ∃ f, ofLine line (Pantry.ofList [i]) {} = .ok f ∧ f.pattern =
        [[⟨.once, .symbol 0⟩, ⟨.once, .literal 'a'⟩,
          ⟨.between 1 2, .oneOf [.symbol 0, .literal 'c', .literal 'd', .literal '-']⟩,
          ⟨.once, .literal 'a'⟩, ⟨.once, .literal 'b'⟩, ⟨.once, .literal 'c'⟩]] := by
  intro line i
  have hl : Legend.ofPantry (Pantry.ofList [i]) = .ok ⟨[('a', i)]⟩ :=
    Legend.ofPantry_singleton (by simp [i])
  have hx : .escape (some 'x') ∉ Piece.ofLine line := by decide +kernel
  have hapart : symbolsApart .plain (Direct.tokens [i.name] line) = true := by decide +kernel
  have htokens : Direct.tokens [i.name] line =
      [.char placeholder (some 0), .char 'a' none, .char '[' none, .char placeholder (some 0),
        .char 'c' none, .char '-' none, .char 'd' none, .escape (.char '-'), .char ']' none,
        .char '\x7b' none, .char '1' none, .char ',' none, .char '2' none, .char '\x7d' none,
        .char 'a' none, .char 'b' none, .char 'c' none] := by
    decide +kernel
  refine ⟨hx, hapart, (ofLine_iff_ofTokens hl hx hapart _).2 ?_⟩
  show ofTokens 64 (Direct.tokens [i.name] line) = _
  rw [htokens]
  cbv

end Formula

end Confection
