import Confection.Proofs.Legend
import Confection.Proofs.Pattern.Likeness
import Confection.Proofs.Spelling.Pieces
import Confection.Proofs.Text.Hex

/-!
# The tokens of a spelled line

A line is spelled piece by piece, and the text that this gives is read back token by token.  The
tokens come piece by piece too: a name is one token, its symbol, and a literal that had to be
written as an escape is a token for that character.

The escape `\x` is an exception.  The two digits after it are no part of its piece, so they are
spelled as a word, and need not be the digits of the escape any more.  `Spells` takes `\x` for an
escape like others, with two characters after it.  On a line without `\x` the tokens of its pieces
are those of its text, `tokens_spell`, and where no escape is malformed they only have to be joined
with their digits, `tokens_eq_joinHex`.
-/

namespace Confection

namespace Pattern

variable {symbols : List Char} {rest : Text}

theorem tokens_nil : tokens symbols [] = [] := by rw [tokens.eq_def]

theorem tokens_char {c : Char} (hc : c ≠ '\\') :
    tokens symbols (c :: rest) = .char c (symbols.idxOf? c) :: tokens symbols rest := by
  rw [tokens.eq_def]
  exact if_neg hc

theorem tokens_lone : tokens symbols ['\\'] = [.malformed .unexpectedEnd] := by
  rw [tokens.eq_def]
  rfl

theorem tokens_escape {d : Char} (hd : d ≠ 'x') :
    tokens symbols ('\\' :: d :: rest) = .ofEscape d :: tokens symbols rest := by
  rw [tokens.eq_def]
  exact if_neg hd

theorem tokens_hex {a b : Char} :
    tokens symbols ('\\' :: 'x' :: a :: b :: rest) = .ofHex a b :: tokens symbols rest := by
  rw [tokens.eq_def]
  rfl

/-- The escape that a character is written as is read as the character. -/
theorem tokens_twoHexDigits {c : Char} (hc : c.toNat < 256) :
    tokens symbols ('\\' :: 'x' :: (Text.twoHexDigits c.toNat ++ rest)) =
      .escape (.char c) :: tokens symbols rest := by
  have hcode : 16 * (c.toNat / 16 % 16) + c.toNat % 16 = c.toNat := by omega
  have hdigits : Token.ofHex (Nat.digitChar (c.toNat / 16 % 16)) (Nat.digitChar (c.toNat % 16)) =
      .escape (.char c) := by
    rw [Token.ofHex, Text.hexDigit?_digitChar (Nat.mod_lt _ (by decide)),
      Text.hexDigit?_digitChar (Nat.mod_lt _ (by decide))]
    simp only [hcode, Char.ofNat_toNat]
  rw [Text.twoHexDigits, ← hdigits]
  exact tokens_hex

/-- Does the text end before an escape in it is complete? -/
def endsInEscape : Text → Bool
  | [] => false
  | c :: rest =>
    if c = '\\' then
      match rest with
      | [] => true
      | d :: rest =>
        if d = 'x' then
          match rest with
          | [] | [_] => true
          | _ :: _ :: rest => endsInEscape rest
        else endsInEscape rest
    else endsInEscape rest

theorem endsInEscape_char {c : Char} (hc : c ≠ '\\') :
    endsInEscape (c :: rest) = endsInEscape rest := by
  rw [endsInEscape.eq_def]
  exact if_neg hc

theorem endsInEscape_escape {d : Char} (hd : d ≠ 'x') :
    endsInEscape ('\\' :: d :: rest) = endsInEscape rest := by
  rw [endsInEscape.eq_def]
  exact if_neg hd

/-- What comes after complete escapes is read as it is by itself. -/
theorem tokens_append {t : Text} (ht : endsInEscape t = false) (u : Text) :
    tokens symbols (t ++ u) = tokens symbols t ++ tokens symbols u := by
  fun_induction tokens symbols t with
  | case1 => rfl
  | case2 => cases ht
  | case3 => cases ht
  | case4 => cases ht
  | case5 a b rest ih => exact tokens_hex.trans (congrArg _ (ih ht))
  | case6 d rest hd ih =>
    refine (tokens_escape hd).trans (congrArg _ (ih ?_))
    rwa [← endsInEscape_escape hd]
  | case7 c rest hc ih =>
    refine (tokens_char hc).trans (congrArg _ (ih ?_))
    rwa [← endsInEscape_char hc]

/-- Only the escape `\x` has the token of `\x`. -/
theorem ofEscape_ne_x {d : Char} (hd : d ≠ 'x') : Token.ofEscape d ≠ .ofEscape 'x' := by
  have hx : Token.ofEscape 'x' = .malformed (.unsupportedEscape 'x') := rfl
  rw [hx, Token.ofEscape]
  split
  · nofun
  · rw [Ne, Token.malformed.injEq, Error.unsupportedEscape.injEq]
    exact hd

/-- Joins each escape `\x` among the tokens with the two characters after it. -/
def joinHex : List Token → List Token
  | [] => []
  | t :: rest =>
    if t = .ofEscape 'x' then
      match rest with
      | .char a _ :: .char b _ :: rest => .ofHex a b :: joinHex rest
      | rest => t :: joinHex rest
    else t :: joinHex rest

section

variable {t : Token} {ts rest : List Token}

theorem joinHex_nil : joinHex [] = [] := by rw [joinHex]

theorem joinHex_cons (ht : t ≠ .ofEscape 'x') : joinHex (t :: rest) = t :: joinHex rest := by
  rw [joinHex.eq_def]
  exact if_neg ht

theorem joinHex_hex {a b : Char} {i j : Option ℕ} :
    joinHex (.ofEscape 'x' :: .char a i :: .char b j :: rest) = .ofHex a b :: joinHex rest := by
  rw [joinHex.eq_def]
  exact if_pos rfl

/-- An escape `\x` is malformed unless it is joined with two characters. -/
theorem exists_of_joinHex (h : ∀ e, .malformed e ∉ joinHex (.ofEscape 'x' :: ts)) :
    ∃ a i b j rest, ts = .char a i :: .char b j :: rest := by
  by_contra hno
  apply h (.unsupportedEscape 'x')
  rw [joinHex.eq_def]
  dsimp only
  rw [if_pos rfl]
  split
  · exact absurd ⟨_, _, _, _, _, rfl⟩ hno
  · exact List.mem_cons_self

end

/-- The text is written with these tokens, if `\x` is an escape like others. -/
inductive Spells (symbols : List Char) : Text → List Token → Prop
  | nil : Spells symbols [] []
  | lone : Spells symbols ['\\'] [.malformed .unexpectedEnd]
  | char {c t ts} (hc : c ≠ '\\') (h : Spells symbols t ts) :
      Spells symbols (c :: t) (.char c (symbols.idxOf? c) :: ts)
  | escape {d t ts} (h : Spells symbols t ts) :
      Spells symbols ('\\' :: d :: t) (.ofEscape d :: ts)
  | hex {c t ts} (hc : c.toNat < 256) (h : Spells symbols t ts) :
      Spells symbols ('\\' :: 'x' :: (Text.twoHexDigits c.toNat ++ t)) (.escape (.char c) :: ts)

namespace Spells

variable {t : Text} {ts : List Token}

/-- Without the escape `\x` these are the tokens that are read. -/
theorem tokens_eq (h : Spells symbols t ts) (hx : .ofEscape 'x' ∉ ts) : tokens symbols t = ts := by
  induction h with
  | nil => exact tokens_nil
  | lone => exact tokens_lone
  | char hc _ ih =>
    rw [tokens_char hc, ih fun h => hx (List.mem_cons_of_mem _ h)]
  | @escape d _ _ _ ih =>
    have hd : d ≠ 'x' := by
      rintro rfl
      exact hx List.mem_cons_self
    rw [tokens_escape hd, ih fun h => hx (List.mem_cons_of_mem _ h)]
  | hex hc _ ih =>
    rw [tokens_twoHexDigits hc, ih fun h => hx (List.mem_cons_of_mem _ h)]

end Spells

/-- An escape `\x` is malformed unless two characters come after it that are no backslashes. -/
theorem exists_of_tokens_hex {t : Text} (h : ∀ e, .malformed e ∉ tokens symbols ('\\' :: 'x' :: t)) :
    ∃ a b rest, t = a :: b :: rest ∧ a ≠ '\\' ∧ b ≠ '\\' := by
  match t with
  | [] => exact absurd List.mem_cons_self (h .unexpectedEnd)
  | [a] => exact absurd List.mem_cons_self (h _)
  | a :: b :: rest =>
    rw [tokens_hex] at h
    refine ⟨a, b, rest, rfl, ?_, ?_⟩
    · rintro rfl
      exact h (.unexpectedChar '\\') List.mem_cons_self
    · rintro rfl
      apply h (.unexpectedChar (if (Text.hexDigit? a).isSome then '\\' else a))
      unfold Token.ofHex
      cases Text.hexDigit? a <;> exact List.mem_cons_self

/-- Where no escape is malformed, the tokens that are read are these, joined with their digits. -/
theorem Spells.tokens_eq_joinHex {t : Text} {ts : List Token} (h : Spells symbols t ts)
    (hok : ∀ e, .malformed e ∉ tokens symbols t) : tokens symbols t = joinHex ts := by
  have later {u : Token} {us : List Token} (hok : ∀ e, .malformed e ∉ u :: us) :
      ∀ e, .malformed e ∉ us := fun e he => hok e (List.mem_cons_of_mem _ he)
  -- an escape `\x` takes two more characters, so the induction is on the length of the text
  induction hn : t.length using Nat.strong_induction_on generalizing t ts with
  | _ n ih =>
    subst hn
    cases h with
    | nil => rw [tokens_nil, joinHex_nil]
    | lone => exact absurd List.mem_cons_self (hok .unexpectedEnd)
    | @char c t ts hc h =>
      rw [tokens_char hc] at hok ⊢
      rw [joinHex_cons (by nofun), ih t.length (Nat.lt_succ_self _) h (later hok) rfl]
    | @hex c t ts hc h =>
      rw [tokens_twoHexDigits hc] at hok ⊢
      rw [joinHex_cons (by nofun), ih t.length
        (by simp only [List.length_cons, List.length_append]; omega) h (later hok) rfl]
    | @escape d t ts h =>
      by_cases hd : d = 'x'
      · subst hd
        obtain ⟨a, b, rest, rfl, ha, hb⟩ := exists_of_tokens_hex hok
        cases h with
        | escape | hex => exact absurd rfl ha
        | char _ h =>
          cases h with
          | lone | escape | hex => exact absurd rfl hb
          | char _ h =>
            rw [tokens_hex] at hok ⊢
            rw [joinHex_hex, ih rest.length (by simp only [List.length_cons]; omega) h (later hok) rfl]
      · rw [tokens_escape hd] at hok ⊢
        rw [joinHex_cons (ofEscape_ne_x hd), ih t.length
          (Nat.lt_succ_of_lt (Nat.lt_succ_self _)) h (later hok) rfl]

end Pattern

open Pattern

/-! ## Identifiers and brackets -/

/-- A hexadecimal digit may occur in an identifier. -/
theorem Text.isIdentifierChar_of_hexDigit? {c : Char} {n : ℕ} (h : hexDigit? c = some n) :
    isIdentifierChar c = true := by
  have hcode : c.toNat ∈ List.range' 48 10 ++ List.range' 65 6 ++ List.range' 97 6 := by
    simp only [List.mem_append, List.mem_range'_1]
    unfold hexDigit? at h
    split at h
    · next hc => exact .inl (.inl ⟨hc.1, Nat.lt_succ_of_le hc.2⟩)
    split at h
    · next hc => exact .inr ⟨hc.1, Nat.lt_succ_of_le hc.2⟩
    split at h
    · next hc => exact .inl (.inr ⟨hc.1, Nat.lt_succ_of_le hc.2⟩)
    · cases h
  have hall : ∀ n ∈ List.range' 48 10 ++ List.range' 65 6 ++ List.range' 97 6,
      isIdentifierChar (Char.ofNat n) = true := by
    decide +kernel
  simpa using hall _ hcode

/-- No bracket occurs in an identifier. -/
theorem Text.notMem_brackets_of_isIdentifierChar {c : Char} (hc : isIdentifierChar c = true) :
    c ∉ brackets := by
  intro hbracket
  have hno : brackets.all (!isIdentifierChar ·) = true := by decide +kernel
  have hc' := List.all_eq_true.1 hno c hbracket
  rw [hc] at hc'
  cases hc'

/-! ## The letters of a legend -/

theorem isIdentifierChar_of_mem_letters {c : Char} (hc : c ∈ letters) :
    Text.isIdentifierChar c = true := by
  have hall : letters.all Text.isIdentifierChar = true := by decide +kernel
  exact List.all_eq_true.1 hall c hc

theorem toNat_lt_of_mem_letters {c : Char} (hc : c ∈ letters) : c.toNat < 256 := by
  have hall : letters.all (decide <| ·.toNat < 256) = true := by decide
  exact of_decide_eq_true (List.all_eq_true.1 hall c hc)

/-- What is not a character of an identifier is not a letter of the legend. -/
theorem Legend.Lettered.indexOf?_eq_none {l : Legend} (hl : l.Lettered) {c : Char}
    (hc : Text.isIdentifierChar c = false) : l.indexOf? c = none := by
  refine List.idxOf?_eq_none_iff.2 fun hmem => ?_
  rw [isIdentifierChar_of_mem_letters (hl.mem_letters c hmem)] at hc
  cases hc

/-! ## The tokens of a piece -/

/-- The token of a literal character: letters in use are written as escapes. -/
def Legend.literalToken (l : Legend) (c : Char) : Token :=
  if (l.indexOf? c).isSome then .escape (.char c) else .char c none

/-- The tokens of a piece, where `\x` is taken for an escape like others. -/
def Piece.tokens (l : Legend) : Piece → List Token
  | .escape none => [.malformed .unexpectedEnd]
  | .escape (some c) => [.ofEscape c]
  | .verbatim c => [.char c (l.indexOf? c)]
  | .word w =>
    match l.letterOf? w with
    | some c => [.char c (l.indexOf? c)]
    | none => w.map l.literalToken

/-- The token of `\x` belongs to the escape `\x`. -/
theorem Piece.eq_of_mem_tokens {l : Legend} {p : Piece} (h : .ofEscape 'x' ∈ p.tokens l) :
    p = .escape (some 'x') := by
  have hx : Token.ofEscape 'x' = .malformed (.unsupportedEscape 'x') := rfl
  cases p with
  | escape c =>
    cases c with
    | none => simp [tokens, hx] at h
    | some d =>
      by_contra hne
      have hd : d ≠ 'x' := by
        rintro rfl
        exact hne rfl
      exact ofEscape_ne_x hd (List.mem_singleton.1 h).symm
  | verbatim c => simp [tokens, hx] at h
  | word w =>
    simp only [tokens] at h
    split at h
    · simp [hx] at h
    · obtain ⟨c, -, hc⟩ := List.mem_map.1 h
      rw [hx, Legend.literalToken] at hc
      split at hc <;> cases hc

namespace Legend.Lettered

variable {l : Legend} (hl : l.Lettered)

include hl

theorem ne_backslash {c : Char} (hc : c ∈ l.symbols) : c ≠ '\\' :=
  Text.ne_backslash_of_isIdentifierChar (isIdentifierChar_of_mem_letters (hl.mem_letters c hc))

theorem notMem_brackets {c : Char} (hc : c ∈ l.symbols) : c ∉ brackets :=
  Text.notMem_brackets_of_isIdentifierChar (isIdentifierChar_of_mem_letters (hl.mem_letters c hc))

/-- A letter means nothing in a pattern but itself. -/
theorem not_mem_signs {c : Char} (hc : c ∈ l.symbols) : c ∉ signs := by
  have hall : letters.all (decide <| · ∉ signs) = true := by decide
  exact of_decide_eq_true (List.all_eq_true.1 hall c (hl.mem_letters c hc))

/-- A name is spelled as the letter that is the symbol with its number. -/
theorem exists_spell_word {w : Text} {i : ℕ} (hw : l.names.idxOf? w = some i) :
    ∃ c ∈ l.symbols, (Piece.word w).spell l = [c] ∧
      ∀ rest, Pattern.tokens l.symbols (c :: rest) =
        .char c (some i) :: Pattern.tokens l.symbols rest := by
  obtain ⟨c, hc, hletter, hindex⟩ := hl.exists_letter hw
  refine ⟨c, hc, by simp only [Piece.spell, hletter], fun rest => ?_⟩
  rw [← hindex]
  exact tokens_char (hl.ne_backslash hc)

/-- A literal is written with its token. -/
theorem spells_literal {c : Char} {t : Text} {ts : List Token} (hc : c ≠ '\\')
    (h : Spells l.symbols t ts) :
    Spells l.symbols (Piece.spellLiteral l c ++ t) (l.literalToken c :: ts) := by
  unfold Piece.spellLiteral literalToken
  cases hindex : l.indexOf? c with
  | none =>
    rw [Option.isSome_none, if_neg Bool.false_ne_true, if_neg Bool.false_ne_true, ← hindex]
    exact .char hc h
  | some i =>
    rw [Option.isSome_some, if_pos rfl, if_pos rfl]
    exact .hex (toNat_lt_of_mem_letters (hl.mem_letters c (mem_symbols_of_indexOf? hindex))) h

/-- The literals of a word are written with their tokens. -/
theorem spells_literals {w t : Text} {ts : List Token}
    (hw : ∀ c ∈ w, Text.isIdentifierChar c = true) (h : Spells l.symbols t ts) :
    Spells l.symbols (w.flatMap (Piece.spellLiteral l) ++ t) (w.map l.literalToken ++ ts) := by
  induction w with
  | nil => exact h
  | cons c w ih =>
    obtain ⟨hc, hw⟩ := List.forall_mem_cons.1 hw
    rw [List.flatMap_cons, List.append_assoc]
    exact hl.spells_literal (Text.ne_backslash_of_isIdentifierChar hc) (ih hw)

/-- A spelled line is written with the tokens of its pieces. -/
theorem spells {s : Surroundings} {t : Text} {ps : List Piece} (h : Cuts s t ps) :
    Spells l.symbols (ps.flatMap (Piece.spell l)) (ps.flatMap (Piece.tokens l)) := by
  induction h with
  | nil => exact .nil
  | lone => exact .lone
  | escape _ ih => exact .escape ih
  | blank _ _ ih => exact ih
  | verbatim hescape _ _ _ ih => exact .char hescape ih
  | @word s w rest ps _ _ hword _ _ ih =>
    rw [List.flatMap_cons, List.flatMap_cons]
    cases hletter : l.letterOf? w with
    | none =>
      simp only [Piece.spell, Piece.tokens, hletter]
      exact hl.spells_literals hword ih
    | some c =>
      simp only [Piece.spell, Piece.tokens, hletter]
      exact .char (hl.ne_backslash (mem_symbols_of_letterOf? hletter)) ih

/-- The text of a line without the escape `\x` is read back piece by piece. -/
theorem tokens_spell {line : Text} (hx : .escape (some 'x') ∉ Piece.ofLine line) :
    Pattern.tokens l.symbols (l.spell line) = (Piece.ofLine line).flatMap (Piece.tokens l) := by
  refine (hl.spells (Piece.cuts_ofLine line)).tokens_eq fun hmem => ?_
  obtain ⟨p, hp, hmem⟩ := List.mem_flatMap.1 hmem
  rw [Piece.eq_of_mem_tokens hmem] at hp
  exact hx hp

/-- The text of a line in which no escape is malformed is read back piece by piece, with each escape
`\x` joined with its digits. -/
theorem tokens_spell_eq_joinHex {line : Text}
    (hok : ∀ e, .malformed e ∉ Pattern.tokens l.symbols (l.spell line)) :
    Pattern.tokens l.symbols (l.spell line) =
      joinHex ((Piece.ofLine line).flatMap (Piece.tokens l)) :=
  (hl.spells (Piece.cuts_ofLine line)).tokens_eq_joinHex hok

end Legend.Lettered

end Confection
