import Mathlib
import Confection.Proofs.Formula.Basic
import Confection.Proofs.Pattern.Joining
import Confection.Proofs.Spelling.Tokens

/-!
# Hexadecimal escapes on a pattern line

Only the `x` of an escape `\x` belongs to its piece.  The two digits are the start of a word, which
goes on with whatever identifier characters follow.  So the escape means the character with that
code where the word is not a name and neither digit is a letter in use, `ofLine_hexEscape`.  A digit
that is a letter in use is escaped itself, and then the escape is a mistake.  A name that stands
right after the digits is no word of its own there, and is taken as it is written.  And where the
word is a name, its letter takes the place of the digits.
-/

namespace Confection

open Pattern Text

namespace Legend

variable {l : Legend}

/-- The word that a text starts with is spelled as literals if it is no name. -/
theorem spell_eq_append {t : Text}
    (ht : startsWord t → t.takeWhile isIdentifierChar ∉ l.names) :
    l.spell t = (t.takeWhile isIdentifierChar).flatMap (Piece.spellLiteral l) ++
      l.spell (t.dropWhile isIdentifierChar) := by
  have hsplit := List.takeWhile_append_dropWhile (p := isIdentifierChar) (l := t)
  by_cases hne : t.takeWhile isIdentifierChar = []
  · rw [hne, List.nil_append] at hsplit
    rw [hne, hsplit]
    rfl
  · have hword : ∀ c ∈ t.takeWhile isIdentifierChar, isIdentifierChar c = true :=
      fun c hc => List.mem_takeWhile_imp hc
    have hstart : startsWord t := by
      cases t with
      | nil => exact absurd rfl hne
      | cons c t => exact ⟨c, rfl, by_contra fun hc => hne (List.takeWhile_cons_of_neg hc)⟩
    have hpieces : Piece.ofLine t =
        .word (t.takeWhile isIdentifierChar) :: Piece.ofLine (t.dropWhile isIdentifierChar) := by
      conv_lhs => rw [← hsplit]
      exact Piece.cut_word (by decide) hne hword (not_startsWord_dropWhile t)
    have hletter := letterOf?_eq_none (List.idxOf?_eq_none_iff.2 (ht hstart))
    rw [spell, hpieces, List.flatMap_cons, Piece.spell, hletter]
    rfl

end Legend

/-- The escape `\x` is spelled as it stands, and its digits are the start of a word. -/
theorem Legend.spell_hexEscape {l : Legend} {a b : Char} {r : Text}
    (ha : isIdentifierChar a = true) (hb : isIdentifierChar b = true)
    (hrun : a :: b :: r.takeWhile isIdentifierChar ∉ l.names) :
    l.spell ('\\' :: 'x' :: a :: b :: r) =
      '\\' :: 'x' :: (Piece.spellLiteral l a ++ (Piece.spellLiteral l b ++
        ((r.takeWhile isIdentifierChar).flatMap (Piece.spellLiteral l) ++
          l.spell (r.dropWhile isIdentifierChar)))) := by
  have hpieces : Piece.ofLine ('\\' :: 'x' :: a :: b :: r) =
      .escape (some 'x') :: Piece.ofLine (a :: b :: r) := Piece.cut_escape
  have htake : (a :: b :: r).takeWhile isIdentifierChar =
      a :: b :: r.takeWhile isIdentifierChar := by
    rw [List.takeWhile_cons_of_pos ha, List.takeWhile_cons_of_pos hb]
  have hdrop : (a :: b :: r).dropWhile isIdentifierChar = r.dropWhile isIdentifierChar := by
    rw [List.dropWhile_cons_of_pos ha, List.dropWhile_cons_of_pos hb]
  have hword := spell_eq_append (l := l) (t := a :: b :: r) fun _ => by rwa [htake]
  rw [htake, hdrop] at hword
  rw [spell, hpieces, List.flatMap_cons]
  simp only [spell, Piece.spell] at hword ⊢
  rw [hword]
  simp

theorem Piece.spellLiteral_of_not_mem {l : Legend} {c : Char} (hc : c ∉ l.symbols) :
    Piece.spellLiteral l c = [c] := by
  rw [spellLiteral, Legend.indexOf?, List.idxOf?_eq_none_iff.2 hc]
  rfl

theorem Piece.spellLiteral_of_mem {l : Legend} {c : Char} (hc : c ∈ l.symbols) :
    Piece.spellLiteral l c = '\\' :: 'x' :: twoHexDigits c.toNat := by
  rw [spellLiteral, Legend.indexOf?, if_pos (List.isSome_idxOf?.2 hc)]

namespace Formula

/-- The escape `\x` for a character in front of a line that makes a formula, where the digits and
the word after them are no name together.  If neither digit is a letter in use and the line does not
start with a name, the character is put in front of the pattern.  If one of the digits is a letter in
use, the escape is a mistake. -/
theorem ofLine_hexEscape {a b : Char} {m n : ℕ} {r : Text} {pantry : Pantry} {settings : Settings}
    {f : Formula} (ha : hexDigit? a = some m) (hb : hexDigit? b = some n)
    (hf : ofLine r pantry settings = .ok f)
    (hrun : a :: b :: r.takeWhile isIdentifierChar ∉ f.legend.names) :
    (a ∉ f.legend.symbols → b ∉ f.legend.symbols →
      (startsWord r → r.takeWhile isIdentifierChar ∉ f.legend.names) →
      ∃ g, ofLine ('\\' :: 'x' :: a :: b :: r) pantry settings = .ok g ∧
        g.pattern = f.pattern.modifyHead (⟨.once, .literal (Char.ofNat (16 * m + n))⟩ :: ·)) ∧
    (a ∈ f.legend.symbols ∨ b ∈ f.legend.symbols →
      ofLine ('\\' :: 'x' :: a :: b :: r) pantry settings =
        .error (.pattern (.unexpectedChar '\\'))) := by
  obtain ⟨hlegend, htext, hparse⟩ := ofLine_eq_ok_iff.1 hf
  have hspell := Legend.spell_hexEscape (isIdentifierChar_of_hexDigit? ha)
    (isIdentifierChar_of_hexDigit? hb) hrun
  constructor
  · intro ha' hb' hr
    rw [Piece.spellLiteral_of_not_mem ha', Piece.spellLiteral_of_not_mem hb',
      ← Legend.spell_eq_append hr, ← htext] at hspell
    have htokens : tokens f.legend.symbols ('\\' :: 'x' :: a :: b :: f.text) =
        .escape (.char (Char.ofNat (16 * m + n))) :: tokens f.legend.symbols f.text := by
      rw [tokens_hex, Token.ofHex, ha, hb]
    refine ⟨⟨'\\' :: 'x' :: a :: b :: f.text, _, f.legend⟩,
      ofLine_eq_ok_iff.2 ⟨hlegend, hspell.symm, ?_⟩, rfl⟩
    show parse ('\\' :: 'x' :: a :: b :: f.text) f.legend.symbols settings.maxNesting = _
    rw [parse, htokens, ofTokens, lexemes_alone rfl]
    exact ofLexemes_element _ hparse
  · intro hdigit
    have hmistake {x y : Char} {rest : Text}
        (h : Token.ofHex x y = .malformed (.unexpectedChar '\\')) :
        parse ('\\' :: 'x' :: x :: y :: rest) f.legend.symbols settings.maxNesting =
          .error (.unexpectedChar '\\') := by
      rw [parse, tokens_hex, h, ofTokens, lexemes_malformed]
      rfl
    refine ofLine_eq_error hlegend ?_
    rw [hspell]
    by_cases ha' : a ∈ f.legend.symbols
    · rw [Piece.spellLiteral_of_mem ha']
      exact hmistake rfl
    · rw [Piece.spellLiteral_of_not_mem ha', Piece.spellLiteral_of_mem (hdigit.resolve_left ha')]
      exact hmistake (by rw [Token.ofHex, ha]; rfl)

/-- Neither digit is a letter in use, and the line goes on with a group and a quantifier. -/
theorem ofLine_hexEscape_plus :
    let i : Ingredient := ⟨['X'], [['x']]⟩
    ∃ f, ofLine "(X)?|X".toList (Pantry.ofList [i]) {} = .ok f ∧
      ∃ g, ofLine "\\x2b(X)?|X".toList (Pantry.ofList [i]) {} = .ok g ∧ g.pattern =
        [[⟨.once, .literal '+'⟩, ⟨.optional, .group [[⟨.once, .symbol 0⟩]]⟩],
          [⟨.once, .symbol 0⟩]] := by
  intro i
  have hlegend := Legend.ofPantry_singleton (i := i) (by simp [i])
  have hline : ofLine "(X)?|X".toList (Pantry.ofList [i]) {} = .ok ⟨"(a)?|a".toList,
      [[⟨.optional, .group [[⟨.once, .symbol 0⟩]]⟩], [⟨.once, .symbol 0⟩]], ⟨[('a', i)]⟩⟩ :=
    ofLine_eq_ok_iff.2 ⟨hlegend, by decide +kernel, by cbv⟩
  exact ⟨_, hline, (ofLine_hexEscape (a := '2') (b := 'b') rfl rfl hline (by decide +kernel)).1
    (by decide +kernel) (by decide +kernel) fun _ => by decide +kernel⟩

/-- The digit `a` is the letter of the only ingredient, and its escape is a mistake. -/
theorem ofLine_hexEscape_letterInUse :
    let i : Ingredient := ⟨['X'], [['x']]⟩
    (∃ f, ofLine "(X)".toList (Pantry.ofList [i]) {} = .ok f) ∧
      ofLine "\\x4a(X)".toList (Pantry.ofList [i]) {} =
        .error (.pattern (.unexpectedChar '\\')) := by
  intro i
  have hlegend := Legend.ofPantry_singleton (i := i) (by simp [i])
  have hline : ofLine "(X)".toList (Pantry.ofList [i]) {} = .ok ⟨"(a)".toList,
      [[⟨.once, .group [[⟨.once, .symbol 0⟩]]⟩]], ⟨[('a', i)]⟩⟩ :=
    ofLine_eq_ok_iff.2 ⟨hlegend, by decide +kernel, by cbv⟩
  have hspell : Legend.spell ⟨[('a', i)]⟩ "\\x4a(X)".toList = "\\x4\\x61(a)".toList := by
    decide +kernel
  refine ⟨⟨_, hline⟩, ofLine_eq_error hlegend ?_⟩
  rw [hspell]
  cbv

/-- The digits and the name after them are one word, which is no name, so the name is literal. -/
theorem ofLine_hexEscape_nameAfter :
    let i : Ingredient := ⟨['X'], [['x']]⟩
    (∃ f, ofLine "X".toList (Pantry.ofList [i]) {} = .ok f ∧
      f.pattern = [[⟨.once, .symbol 0⟩]]) ∧
    ∃ g, ofLine "\\x4bX".toList (Pantry.ofList [i]) {} = .ok g ∧
      g.pattern = [[⟨.once, .literal 'K'⟩, ⟨.once, .literal 'X'⟩]] := by
  intro i
  have hlegend := Legend.ofPantry_singleton (i := i) (by simp [i])
  have hname : ofLine "X".toList (Pantry.ofList [i]) {} =
      .ok ⟨['a'], [[⟨.once, .symbol 0⟩]], ⟨[('a', i)]⟩⟩ :=
    ofLine_eq_ok_iff.2 ⟨hlegend, by decide +kernel, by cbv⟩
  have hline : ofLine "\\x4bX".toList (Pantry.ofList [i]) {} = .ok ⟨"\\x4bX".toList,
      [[⟨.once, .literal 'K'⟩, ⟨.once, .literal 'X'⟩]], ⟨[('a', i)]⟩⟩ :=
    ofLine_eq_ok_iff.2 ⟨hlegend, by decide +kernel, by cbv⟩
  exact ⟨⟨_, hname, rfl⟩, _, hline, rfl⟩

/-- The two digits are a name, so its letter takes their place in the escape. -/
theorem ofLine_hexEscape_digitsName :
    let i : Ingredient := ⟨['4', 'b'], [['x']]⟩
    (∃ f, ofLine ['.'] (Pantry.ofList [i]) {} = .ok f) ∧
      ofLine "\\x4b.".toList (Pantry.ofList [i]) {} =
        .error (.pattern (.unexpectedChar '.')) := by
  intro i
  have hlegend := Legend.ofPantry_singleton (i := i) (by simp [i])
  have hline : ofLine ['.'] (Pantry.ofList [i]) {} =
      .ok ⟨['.'], [[⟨.once, .any⟩]], ⟨[('a', i)]⟩⟩ :=
    ofLine_eq_ok_iff.2 ⟨hlegend, by decide +kernel, by cbv⟩
  have hspell : Legend.spell ⟨[('a', i)]⟩ "\\x4b.".toList = "\\xa.".toList := by decide +kernel
  refine ⟨⟨_, hline⟩, ofLine_eq_error hlegend ?_⟩
  rw [hspell]
  cbv

end Formula

end Confection
