import Mathlib
import Confection.Proofs.Formula.Direct
import Confection.Proofs.Pattern.Elements
import Confection.Proofs.Pattern.Respelling
import Confection.Proofs.Spelling.Tokens

/-!
# What becomes of the letters of a legend

A formula's text is read as phrases, and the letter that a name is spelled with has its place in one
of them: it is an element, a member of a class, or an end of a range.  In the first two it is read as
the symbol.  At an end of a range it is the letter that counts, as any character of a range does, so
a range between a name and a character has characters that neither the line nor a value has.

The letters bring nothing else with them.  The phrases of the text are phrases of the line, which
have no letters yet, spelled (`Formula.Origin`), so what an accepted text is made of is written on
the line, or is of a value, or is in such a range.

## Escapes `\x`

The digits of an escape `\x` are spelled as a word, so a name among the two tokens after it can put
its letter in the place of a digit.  `hexApart` excludes this.
-/

namespace Confection

open Pattern

theorem isMark_ofHex (a b c : Char) : (Token.ofHex a b).isMark c = false := by
  unfold Token.ofHex
  split <;> rfl

theorem isMark_ofEscape (c d : Char) : (Token.ofEscape d).isMark c = false := by
  unfold Token.ofEscape
  split <;> rfl

/-- No sign is a letter, so in no text a sign stands for a symbol. -/
theorem Legend.Lettered.signsPlain_tokens {l : Legend} (hl : l.Lettered) (t : Text) :
    SignsPlain (Pattern.tokens l.symbols t) := by
  unfold SignsPlain
  fun_induction Pattern.tokens l.symbols t with
  | case1 => simp
  | case2 => simp [Token.isMark]
  | case3 => simp [Token.isMark]
  | case4 => simp [Token.isMark]
  | case5 a b rest ih => exact List.forall_mem_cons.2 ⟨by simp [isMark_ofHex], ih⟩
  | case6 d rest _ ih => exact List.forall_mem_cons.2 ⟨by simp [isMark_ofEscape], ih⟩
  | case7 c rest _ ih =>
    refine List.forall_mem_cons.2 ⟨fun d hd hmark => ?_, ih⟩
    obtain rfl := beq_iff_eq.1 hmark
    have hindex : l.symbols.idxOf? c = none :=
      List.idxOf?_eq_none_iff.2 fun hmem => hl.not_mem_signs hmem hd
    rw [hindex]

/-! ## Escapes without names in them -/

/-- Is there no name among the two tokens after an escape `\x`? -/
def hexApart : List Token → Bool
  | [] => true
  | t :: rest =>
    !(t == .ofEscape 'x' && (rest.take 2).any (·.symbol?.isSome)) && hexApart rest

theorem hexApart_of_cons {t : Token} {ts : List Token} (h : hexApart (t :: ts) = true) :
    hexApart ts = true := by
  rw [hexApart, Bool.and_eq_true] at h
  exact h.2

/-- The two tokens after an escape `\x` are no names. -/
theorem symbol?_of_hexApart {t u : Token} {ts : List Token}
    (h : hexApart (.ofEscape 'x' :: t :: u :: ts) = true) :
    t.symbol? = none ∧ u.symbol? = none := by
  rw [hexApart, Bool.and_eq_true] at h
  simpa using h.1

/-- An escape that is not malformed has two digits. -/
theorem exists_hexDigits {a b : Char} (h : ∀ e, Token.ofHex a b ≠ .malformed e) :
    ∃ m n, Text.hexDigit? a = some m ∧ Text.hexDigit? b = some n := by
  unfold Token.ofHex at h
  split at h
  · next m n ha hb => exact ⟨m, n, ha, hb⟩
  · exact absurd rfl (h _)
  · exact absurd rfl (h _)

theorem afterToken_ofHex (s : Surroundings) (a b : Char) : s.afterToken (.ofHex a b) = s := by
  unfold Token.ofHex
  split <;> rfl

section

variable {symbols : List Char} {s : Surroundings} {ts : List Token}

/-- Where no letter comes into an escape `\x` that is not malformed, its digits stand on the line as
they stand in the text. -/
theorem exists_digits_of_joinHex (hapart : hexApart (.ofEscape 'x' :: ts) = true)
    (hok : ∀ e, .malformed e ∉ joinHex (.ofEscape 'x' :: spellTokens symbols s ts)) :
    ∃ a i b j rest, ts = .char a none :: .char b none :: rest ∧
      spellTokens symbols s ts = .char a i :: .char b j :: spellTokens symbols s rest := by
  obtain ⟨a, i, b, j, rest, hts⟩ := exists_of_joinHex hok
  rw [hts, joinHex_hex] at hok
  rcases ts with _ | ⟨t, _ | ⟨u, ts⟩⟩
  · cases hts
  · cases (List.cons.inj hts).2
  obtain ⟨ht, hu⟩ := symbol?_of_hexApart hapart
  rw [spellTokens, spellTokens, List.cons.injEq, List.cons.injEq] at hts
  obtain ⟨hta, hub, rfl⟩ := hts
  obtain rfl := Token.eq_of_spell_eq_char (.inr ht) hta
  obtain rfl := Token.eq_of_spell_eq_char (.inr hu) hub
  -- digits are no brackets, so the same surrounds what comes after them
  obtain ⟨m, n, ha, hb⟩ := exists_hexDigits fun e he => hok e (he ▸ List.mem_cons_self)
  have hstays {c : Char} {k : ℕ} (hc : Text.hexDigit? c = some k) :
      s.afterToken (.char c none) = s :=
    Surroundings.after_eq_self
      (Text.notMem_brackets_of_isIdentifierChar (Text.isIdentifierChar_of_hexDigit? hc))
  refine ⟨a, i, b, j, ts, rfl, ?_⟩
  rw [spellTokens, spellTokens, hta, hub, hstays ha, hstays hb]

/-- Where no letter comes into an escape `\x`, it makes no difference whether the digits are joined
with it before or after the letters are put in. -/
theorem joinHex_spellTokens (hapart : hexApart ts = true)
    (hok : ∀ e, .malformed e ∉ joinHex (spellTokens symbols s ts)) :
    joinHex (spellTokens symbols s ts) = spellTokens symbols s (joinHex ts) := by
  have later {u : Token} {us : List Token} (hok : ∀ e, .malformed e ∉ u :: us) :
      ∀ e, .malformed e ∉ us := fun e he => hok e (List.mem_cons_of_mem _ he)
  -- an escape takes two more tokens, so the induction is on the number of the tokens
  induction hn : ts.length using Nat.strong_induction_on generalizing s ts with
  | _ n ih =>
    subst hn
    cases ts with
    | nil => rw [spellTokens, joinHex_nil, spellTokens]
    | cons t ts =>
      rw [spellTokens] at hok ⊢
      by_cases ht : t = .ofEscape 'x'
      · subst ht
        rw [Token.spell_ofEscape, afterToken_ofEscape] at hok ⊢
        obtain ⟨a, i, b, j, rest, rfl, hdigits⟩ := exists_digits_of_joinHex hapart hok
        rw [hdigits, joinHex_hex] at hok ⊢
        have hrest := ih rest.length (by simp only [List.length_cons]; omega)
          (hexApart_of_cons (hexApart_of_cons (hexApart_of_cons hapart))) (later hok) rfl
        rw [hrest, joinHex_hex, spellTokens, Token.spell_ofHex, afterToken_ofHex]
      · have hne : t.spell symbols s ≠ .ofEscape 'x' :=
          fun h => ht (Token.eq_of_spell_eq_malformed h)
        rw [joinHex_cons hne] at hok ⊢
        have hrest := ih ts.length (Nat.lt_succ_self _) (hexApart_of_cons hapart) (later hok) rfl
        rw [hrest, joinHex_cons ht, spellTokens]

end

/-- Where no name comes into an escape `\x` and no escape is malformed, the tokens of a line's text
are those of the line, joined with their digits and spelled. -/
theorem Legend.Lettered.tokens_spell_eq_spellTokens {l : Legend} (hl : l.Lettered) {line : Text}
    (hapart : hexApart (Direct.tokens l.names line) = true)
    (hok : ∀ e, .malformed e ∉ Pattern.tokens l.symbols (l.spell line)) :
    Pattern.tokens l.symbols (l.spell line) =
      spellTokens l.symbols .plain (joinHex (Direct.tokens l.names line)) := by
  have hjoined : Pattern.tokens l.symbols (l.spell line) =
      joinHex (spellTokens l.symbols .plain (Direct.tokens l.names line)) :=
    (hl.tokens_spell_eq_joinHex hok).trans
      (congrArg joinHex (hl.flatMap_tokens_eq (Piece.cuts_ofLine line)))
  rw [hjoined] at hok ⊢
  exact joinHex_spellTokens hapart hok

/-- A name comes into an escape here, and its letter is the second digit. -/
example :
    let l : Legend := ⟨[('a', ⟨['X'], [['p']]⟩)]⟩
    hexApart (Direct.tokens l.names "\\x6 X".toList) = false ∧
      l.spell "\\x6 X".toList = "\\x6a".toList := by
  decide +kernel

/-! ## The phrases of a formula -/

namespace Formula

/-- The phrases of a formula's text as its line writes them, where a name is no letter yet. -/
structure Origin (line : Text) (f : Formula) (phrases written : List Phrase) : Prop where
  /-- They are written with the tokens of the line. -/
  tokens : joinHex (Direct.tokens f.legend.names line) = written.flatMap Phrase.tokens
  /-- Put in letters, they are the phrases of the text. -/
  spelled : phrases = written.map (Phrase.spell f.legend.symbols)
  /-- A character of an accepted text is of a value, or the line writes it, or it is in a range that
  has a name at one of its ends. -/
  texts : ∀ t, f.accepts t = true → ∀ c ∈ t, c ∈ valueChars f.legend.values ∨
    ∃ ph ∈ written, ph.Writes c ∨ ph.InNamedRange f.legend.symbols c

/-- How a formula's text is made up of phrases, and what becomes there of the letters that the names
on its line are spelled with. -/
structure Phrasing (line : Text) (limit : ℕ) (f : Formula) (phrases : List Phrase) : Prop where
  /-- The phrases are written with the tokens of the text. -/
  tokens : Pattern.tokens f.legend.symbols f.text = phrases.flatMap Phrase.tokens
  /-- The phrases are read as the pattern. -/
  pattern : ofLexemes limit (phrases.map Phrase.lexeme) = .ok f.pattern
  /-- The letter for a name is a token for its symbol, if an escape before it is complete. -/
  names : ∀ before w after i, Piece.ofLine line = before ++ .word w :: after →
    f.legend.names.idxOf? w = some i →
    endsInEscape (before.flatMap (Piece.spell f.legend)) = false →
    ∃ c ∈ f.legend.symbols, Pattern.tokens f.legend.symbols f.text =
      Pattern.tokens f.legend.symbols (before.flatMap (Piece.spell f.legend)) ++
        .char c (some i) :: Pattern.tokens f.legend.symbols (after.flatMap (Piece.spell f.legend))
  /-- A token for a symbol is an element, a member of a class or an end of a range. -/
  letters : ∀ ph ∈ phrases, ∀ c i, .char c (some i) ∈ ph.tokens → ph.HasLetter c i
  /-- Where no name comes into an escape `\x`, the phrases are those of the line. -/
  origin : hexApart (Direct.tokens f.legend.names line) = true →
    ∃ written, f.Origin line phrases written

/-- The text of a formula is made up of phrases, and the letter for a name is read as its symbol in
them, or is an end of a range.  Where no name comes into an escape `\x`, the phrases are those of
the line, and only in such a range there are characters that it does not write. -/
theorem exists_phrasing {line : Text} {pantry : Pantry} {settings : Settings} {f : Formula}
    (hf : ofLine line pantry settings = .ok f) :
    ∃ phrases, f.Phrasing line settings.maxNesting phrases := by
  obtain ⟨hlegend, htext, hparse⟩ := ofLine_eq_ok_iff.1 hf
  have hl := Legend.lettered_of_ofPantry hlegend
  obtain ⟨d, hd, -⟩ := bind_eq_ok.1 hparse
  obtain ⟨phrases, htokens, hlexemes, hclosed⟩ := exists_phrases (hl.signsPlain_tokens _) hd
  have hread : ofLexemes settings.maxNesting (phrases.map Phrase.lexeme) = .ok f.pattern := by
    rw [← hlexemes]
    exact hparse
  refine ⟨phrases, htokens, hread, fun before w after i hpieces hw hbefore => ?_,
    fun ph _ c i h => Phrase.hasLetter_of_mem_tokens h, fun hapart => ?_⟩
  · obtain ⟨c, hc, hspell, hchar⟩ := hl.exists_spell_word hw
    refine ⟨c, hc, ?_⟩
    rw [htext, Legend.spell, hpieces, List.flatMap_append, List.flatMap_cons, hspell,
      tokens_append hbefore]
    exact congrArg _ (hchar _)
  · have hok : ∀ e, .malformed e ∉ Pattern.tokens f.legend.symbols f.text := by
      intro e he
      rw [htokens, List.mem_flatMap] at he
      obtain ⟨ph, -, he⟩ := he
      exact ph.malformed_notMem_tokens e he
    rw [htext] at htokens hok
    have hline := htokens.symm.trans (hl.tokens_spell_eq_spellTokens hapart hok)
    obtain ⟨written, hwritten, rfl⟩ := exists_of_flatMap_tokens
      (fun c hc => hl.notMem_brackets hc) hclosed hline
    refine ⟨written, hwritten, rfl, fun t ht c hc => ?_⟩
    have hmem := Pattern.mem_of_mem_language hread (((wellFormed_of_ofLine hf).accepts_iff t).1 ht) hc
    refine hmem.imp_right fun ⟨ph, hph, hc⟩ => ?_
    obtain ⟨q, hq, rfl⟩ := List.mem_map.1 hph
    exact ⟨q, hq, Phrase.writes_or_inNamedRange hc⟩

/-- A complete escape in front of a name that is a member of a class. -/
theorem exists_phrasing_member :
    let i : Ingredient := ⟨['X'], [['p'], ['q', 'r']]⟩
    let line : Text := "\\x2b [X 0-2-]".toList
    let f : Formula := ⟨"\\x2b[a0-2-]".toList,
      [[⟨.once, .literal '+'⟩, ⟨.once,
        .oneOf [.symbol 0, .literal '0', .literal '1', .literal '2', .literal '-']⟩]],
      ⟨[('a', i)]⟩⟩
    ofLine line (Pantry.ofList [i]) {} = .ok f ∧
      (∃ phrases, f.Phrasing line 64 phrases ∧ ∃ written, f.Origin line phrases written) ∧
      ∃ c ∈ f.legend.symbols, Pattern.tokens f.legend.symbols f.text =
        [.escape (.char '+'), .char '[' none] ++ .char c (some 0) ::
          Pattern.tokens f.legend.symbols "0-2-]".toList := by
  intro i line f
  have hline : ofLine line (Pantry.ofList [i]) {} = .ok f :=
    ofLine_eq_ok_iff.2 ⟨Legend.ofPantry_singleton (by simp [i]), by decide +kernel, by cbv⟩
  obtain ⟨phrases, h⟩ := exists_phrasing hline
  refine ⟨hline, ⟨phrases, h, h.origin (by decide +kernel)⟩, ?_⟩
  exact h.names [.escape (some 'x'), .word ['2', 'b'], .verbatim '['] ['X']
    [.word ['0'], .verbatim '-', .word ['2'], .verbatim '-', .verbatim ']'] 0
    (by decide +kernel) rfl (by decide +kernel)

/-- In a range between a name and a character, it is the name's letter that counts: it is accepted,
though it is neither on the line nor in a value. -/
theorem letter_in_range :
    let i : Ingredient := ⟨['X'], [['x']]⟩
    let line : Text := "[X-b]".toList
    ∃ f, ofLine line (Pantry.ofList [i]) {} = .ok f ∧ f.legend.letterOf? ['X'] = some 'a' ∧
      f.text = "[a-b]".toList ∧
      f.pattern = [[⟨.once, .oneOf [.literal 'a', .literal 'b']⟩]] ∧ f.accepts ['a'] = true := by
  intro i line
  have hlegend := Legend.ofPantry_singleton (i := i) (by simp [i])
  have hline : ofLine line (Pantry.ofList [i]) {} = .ok ⟨"[a-b]".toList,
      [[⟨.once, .oneOf [.literal 'a', .literal 'b']⟩]], ⟨[('a', i)]⟩⟩ :=
    ofLine_eq_ok_iff.2 ⟨hlegend, by decide +kernel, by cbv⟩
  refine ⟨_, hline, rfl, rfl, rfl, ((wellFormed_of_ofLine hline).accepts_iff _).2 (.inl ?_)⟩
  refine Language.mem_mul.2 ⟨['a'], ?_, [], Language.nil_mem_one, rfl⟩
  rw [Quantifier.powers_once]
  exact ⟨.literal 'a', by simp, List.mem_singleton_self _⟩

end Formula

end Confection
