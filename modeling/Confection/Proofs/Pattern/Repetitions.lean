import Confection.Proofs.Pattern.Joining
import Confection.Proofs.Spelling.Tokens

/-!
# Quantifiers as they are written

A quantifier may be written in eight ways, `Repetition`, and then be marked as lazy.  Every one of
them is a single lexeme, whatever comes after it, so after an element a written quantifier does what
it says and nothing else (`Suffix.run`).

A number is written with any digits, so with leading zeros as well, if it lies below the bound for
numbers.
-/

namespace Confection.Pattern

variable {symbols : List Char} {rest : List Token}

/-! ## Texts without escapes -/

/-- The token of a character that is written as it is. -/
def charToken (symbols : List Char) (c : Char) : Token := .char c (symbols.idxOf? c)

/-- The tokens of characters that are written as they are. -/
def charTokens (symbols : List Char) (t : Text) : List Token := t.map (charToken symbols)

theorem tokens_append_of_notMem {t : Text} (ht : '\\' ∉ t) (u : Text) :
    tokens symbols (t ++ u) = charTokens symbols t ++ tokens symbols u := by
  induction t with
  | nil => rfl
  | cons c t ih =>
    simp only [List.mem_cons, not_or] at ht
    rw [List.cons_append, tokens_char (Ne.symm ht.1), ih ht.2]
    rfl

/-! ## Numbers -/

/-- A number as it is written. -/
structure Numeral where
  /-- The digits, the first one first. -/
  digits : Text
  ne_nil : digits ≠ []
  isDigit : ∀ c ∈ digits, c.isDigit = true
  fits : Nat.ofDigitChars 10 digits 0 < numberBound

namespace Numeral

/-- The number that is meant. -/
def value (n : Numeral) : ℕ := Nat.ofDigitChars 10 n.digits 0

/-- The number in decimal, without leading zeros. -/
def ofNat (n : ℕ) (hn : n < numberBound) : Numeral where
  digits := Nat.toDigits 10 n
  ne_nil := Nat.toDigits_ne_nil
  isDigit _ hc := Nat.isDigit_of_mem_toDigits (by decide) le_rfl hc
  fits := by rwa [Nat.ofDigitChars_ten_toDigits]

theorem value_ofNat {n : ℕ} (hn : n < numberBound) : (ofNat n hn).value = n :=
  Nat.ofDigitChars_ten_toDigits

theorem backslash_notMem (n : Numeral) : '\\' ∉ n.digits :=
  fun h => absurd (n.isDigit _ h) (by decide)

end Numeral

namespace Bounds

theorem valueOf_charTokens (t : Text) : valueOf (charTokens symbols t) = Nat.ofDigitChars 10 t 0 := by
  rw [valueOf, charTokens, List.foldl_map]
  rfl

section

variable (symbols rest) {t : Token} (ht : t.isDigit = false)

include ht

/-- Digits are read up to the first token that is none. -/
theorem readNumber_numeral (n : Numeral) :
    readNumber (charTokens symbols n.digits ++ t :: rest) = .ok (some n.value, t :: rest) := by
  have hdigits : ∀ u ∈ charTokens symbols n.digits, u.isDigit = true := by
    intro u hu
    obtain ⟨c, hc, rfl⟩ := List.mem_map.1 hu
    exact n.isDigit c hc
  have hne : (charTokens symbols n.digits).isEmpty = false := by
    simpa [charTokens] using n.ne_nil
  have hfits : ¬ numberBound ≤ Nat.ofDigitChars 10 n.digits 0 := n.fits.not_ge
  simp [readNumber, List.takeWhile_append_of_pos hdigits, List.dropWhile_append_of_pos hdigits, ht,
    hne, valueOf_charTokens, hfits, Numeral.value]

/-- No number is read where there is no digit. -/
theorem readNumber_of_not_isDigit : readNumber (t :: rest) = .ok (none, t :: rest) := by
  simp [readNumber, ht]

/-- The digits of a number that may be left out. -/
def digitsOf (n : Option Numeral) : Text := (n.map Numeral.digits).getD []

theorem readNumber_digitsOf (n : Option Numeral) :
    readNumber (charTokens symbols (digitsOf n) ++ t :: rest) =
      .ok (n.map Numeral.value, t :: rest) := by
  cases n with
  | none => exact readNumber_of_not_isDigit rest ht
  | some n => exact readNumber_numeral symbols rest ht n

end

variable (symbols rest)

/-- A single number in braces. -/
theorem read_single (n : Numeral) :
    read (charTokens symbols (n.digits ++ ['\x7d']) ++ rest) = .ok (.exactly n.value, rest) := by
  have hnumber := readNumber_numeral symbols rest (t := charToken symbols '\x7d') rfl n
  rw [charTokens, List.map_append, List.append_assoc]
  exact bind_eq_ok.2 ⟨_, hnumber, rfl⟩

/-- Two numbers in braces, either of which may be left out. -/
theorem read_pair {n m : Option Numeral} {q : Quantifier}
    (hq : ofPair (n.map Numeral.value) (m.map Numeral.value) = .ok q) :
    read (charTokens symbols (digitsOf n ++ ',' :: digitsOf m ++ ['\x7d']) ++ rest) =
      .ok (q, rest) := by
  have hsecond := readNumber_digitsOf symbols rest (t := charToken symbols '\x7d') rfl m
  have hfirst := readNumber_digitsOf symbols (charTokens symbols (digitsOf m) ++
    charToken symbols '\x7d' :: rest) (t := charToken symbols ',') rfl n
  have htokens : charTokens symbols (digitsOf n ++ ',' :: digitsOf m ++ ['\x7d']) ++ rest =
      charTokens symbols (digitsOf n) ++ charToken symbols ',' ::
        (charTokens symbols (digitsOf m) ++ charToken symbols '\x7d' :: rest) := by
    simp [charTokens]
  rw [htokens]
  exact bind_eq_ok.2 ⟨_, hfirst, bind_eq_ok.2 ⟨_, rfl, bind_eq_ok.2 ⟨_, hsecond,
    bind_eq_ok.2 ⟨rest, rfl, bind_eq_ok.2 ⟨q, hq, rfl⟩⟩⟩⟩⟩

end Bounds

/-! ## Quantifiers -/

/-- A quantifier as it is written: a mark, or numbers in braces. -/
inductive Repetition where
  | optional
  | zeroOrMore
  | oneOrMore
  | exactly (n : Numeral)
  | atLeast (n : Numeral)
  | atMost (m : Numeral)
  | between (n m : Numeral) (h : n.value ≤ m.value)
  /-- A comma in braces, without numbers. -/
  | unrestricted

namespace Repetition

/-- How the quantifier is written. -/
def text : Repetition → Text
  | optional => ['?']
  | zeroOrMore => ['*']
  | oneOrMore => ['+']
  | exactly n => '\x7b' :: (n.digits ++ ['\x7d'])
  | atLeast n => '\x7b' :: (n.digits ++ [',', '\x7d'])
  | atMost m => '\x7b' :: ',' :: (m.digits ++ ['\x7d'])
  | between n m _ => '\x7b' :: (n.digits ++ ',' :: m.digits ++ ['\x7d'])
  | unrestricted => ['\x7b', ',', '\x7d']

/-- What the quantifier says. -/
def quantifier : Repetition → Quantifier
  | optional => .optional
  | zeroOrMore | unrestricted => .zeroOrMore
  | oneOrMore => .oneOrMore
  | exactly n => .exactly n.value
  | atLeast n => .atLeast n.value
  | atMost m => .between 0 m.value
  | between n m _ => .between n.value m.value

theorem backslash_notMem_text (r : Repetition) : '\\' ∉ r.text := by
  cases r <;> simp [text, Numeral.backslash_notMem]

/-- The numbers in braces are those of the quantifier. -/
theorem lexemes_of_read {t : Text} {q : Quantifier}
    (h : Bounds.read (charTokens symbols t ++ rest) = .ok (q, rest)) :
    lexemes (charTokens symbols ('\x7b' :: t) ++ rest) =
      .repetition '\x7b' (.ok q) :: lexemes rest := by
  show lexemes (.char '\x7b' _ :: (charTokens symbols t ++ rest)) = _
  rw [lexemes_braces, h]

variable (symbols rest)

/-- A written quantifier is one lexeme. -/
theorem lexemes_text (r : Repetition) : ∃ mark,
    lexemes (charTokens symbols r.text ++ rest) =
      .repetition mark (.ok r.quantifier) :: lexemes rest := by
  cases r with
  | optional | zeroOrMore | oneOrMore => exact ⟨_, lexemes_alone rfl⟩
  | exactly n => exact ⟨_, lexemes_of_read (Bounds.read_single symbols rest n)⟩
  | atLeast n =>
    have h := Bounds.read_pair symbols rest (n := some n) (m := none) rfl
    exact ⟨_, lexemes_of_read (by simpa [Bounds.digitsOf, quantifier] using h)⟩
  | atMost m =>
    have h := Bounds.read_pair symbols rest (n := none) (m := some m) rfl
    exact ⟨_, lexemes_of_read h⟩
  | between n m hle =>
    have hpair : Bounds.ofPair (some n.value) (some m.value) = .ok (.between n.value m.value) :=
      if_pos hle
    exact ⟨_, lexemes_of_read (Bounds.read_pair symbols rest (n := some n) (m := some m) hpair)⟩
  | unrestricted =>
    exact ⟨_, lexemes_of_read (Bounds.read_pair symbols rest (n := none) (m := none) rfl)⟩

end Repetition

/-! ## After an element -/

/-- What may be written after an element: nothing, or a quantifier, which may be marked as lazy. -/
inductive Suffix where
  | nothing
  | repeated (r : Repetition) (isLazy : Bool)

namespace Suffix

/-- How the suffix is written. -/
def text : Suffix → Text
  | nothing => []
  | repeated r isLazy => r.text ++ if isLazy then ['?'] else []

/-- How often the element is repeated. -/
def quantifier : Suffix → Quantifier
  | nothing => .once
  | repeated r _ => r.quantifier

variable (symbols)

/-- The lexemes of a suffix at the end of a pattern. -/
theorem lexemes_text (r : Repetition) (isLazy : Bool) : ∃ mark,
    lexemes (tokens symbols (repeated r isLazy).text) =
      .repetition mark (.ok r.quantifier) ::
        if isLazy then [.repetition '?' (.ok .optional)] else [] := by
  obtain ⟨mark, h⟩ := r.lexemes_text symbols (tokens symbols (if isLazy then ['?'] else []))
  refine ⟨mark, ?_⟩
  rw [text, tokens_append_of_notMem r.backslash_notMem_text, h]
  cases isLazy with
  | false => rw [if_neg Bool.false_ne_true, tokens_nil, lexemes_nil]; rfl
  | true =>
    rw [if_pos rfl, tokens_char (by decide), tokens_nil, lexemes_alone rfl, lexemes_nil]
    rfl

/-- After an element the suffix sets its quantifier. -/
theorem run (k : Suffix) (limit : ℕ) (l : Layer) (e : Element) (around : List Layer) :
    ∃ slot, (lexemes (tokens symbols k.text)).foldlM (Draft.step limit)
      ⟨l.push ⟨.once, e⟩, around, .bare⟩ = .ok ⟨l.push ⟨k.quantifier, e⟩, around, slot⟩ := by
  cases k with
  | nothing => exact ⟨.bare, by rw [text, tokens_nil, lexemes_nil]; rfl⟩
  | repeated r isLazy =>
    obtain ⟨mark, h⟩ := lexemes_text symbols r isLazy
    rw [h]
    cases isLazy with
    | false => exact ⟨.quantified, rfl⟩
    | true => exact ⟨.closed, rfl⟩

end Suffix

end Confection.Pattern
