import Confection.Proofs.Pattern.Phrases
import Confection.Proofs.Text.Hex

/-!
# Tokens and phrases spelled in letters

Where names are tokens by their numbers, nothing is written with letters.  `spellTokens` puts the
letters in: a symbol is written as its letter, and a character that is a letter in use is escaped.
`Phrase.spell` does the same to a phrase.

Whatever is read of spelled tokens can be said without the letters: if spelled tokens are those of
some phrases, these are phrases of the tokens as they were, spelled (`exists_of_flatMap_tokens`).  So
the letters make no phrase of their own.  Only what stands between the ends of a range depends on
them, and only if there is a symbol at one of its ends (`Phrase.writes_or_inNamedRange`).
-/

namespace Confection

namespace Pattern

section

variable (symbols : List Char)

/-- The token as it is written in letters.  Nothing is escaped in braces. -/
def Token.spell (s : Surroundings) : Token → Token
  | .char c none =>
    if s ≠ .inBraces ∧ c ∈ symbols then .escape (.char c) else .char c (symbols.idxOf? c)
  | .char d (some i) => .char (symbols.getD i d) (some i)
  | .escape e => .escape e
  | .malformed e => .malformed e

/-- The tokens as they are written in letters. -/
def spellTokens (s : Surroundings) : List Token → List Token
  | [] => []
  | t :: ts => t.spell symbols s :: spellTokens (s.afterToken t) ts

/-- The character as it is written in letters. -/
def Written.spell : Written → Written
  | plain c none => if c ∈ symbols then escaped c else plain c none
  | plain d (some i) => plain (symbols.getD i d) (some i)
  | escaped c => escaped c

/-- The clause as it is written in letters. -/
def Clause.spell : Clause → Clause
  | lone x => lone (x.spell symbols)
  | set cs => set cs
  | range lo hi => range (lo.spell symbols) (hi.spell symbols)

/-- The phrase as it is written in letters. -/
def Phrase.spell : Phrase → Phrase
  | character x => character (x.spell symbols)
  | charClass clauses hyphen => charClass (clauses.map (Clause.spell symbols)) hyphen
  | set cs => set cs
  | any => any
  | opening marked => opening marked
  | closing => closing
  | bar => bar
  | repetition mark written q => repetition mark written q

end

variable {symbols : List Char} {s : Surroundings}

/-! ## Spelled tokens -/

theorem Token.spell_ofEscape (d : Char) : (Token.ofEscape d).spell symbols s = .ofEscape d := by
  unfold ofEscape
  split <;> rfl

theorem Token.spell_ofHex (a b : Char) : (Token.ofHex a b).spell symbols s = .ofHex a b := by
  unfold ofHex
  split <;> rfl

theorem Token.spell_of_notMem {c : Char} (hc : c ∉ symbols) :
    (Token.char c none).spell symbols s = .char c none := by
  rw [spell, if_neg fun h => hc h.2, List.idxOf?_eq_none_iff.2 hc]

theorem Token.spell_of_mem {c : Char} (hs : s ≠ .inBraces) (hc : c ∈ symbols) :
    (Token.char c none).spell symbols s = .escape (.char c) := if_pos ⟨hs, hc⟩

theorem Token.spell_inBraces (c : Char) :
    (Token.char c none).spell symbols .inBraces = .char c (symbols.idxOf? c) := by
  rw [spell, if_neg fun h => h.1 rfl]

/-- Letters put in where none of them is a sign leave the meaning of the tokens as it is. -/
theorem alike_spellTokens {ts : List Token} (hsymbols : ∀ c ∈ symbols, c ∉ signs)
    (hts : ∀ d i, .char d (some i) ∈ ts → d ∉ signs ∧ i < symbols.length) :
    Alike s (spellTokens symbols s ts) ts := by
  induction ts generalizing s with
  | nil => exact .nil
  | cons t ts ih =>
    refine .cons ?_ (ih fun d i h => hts d i (List.mem_cons_of_mem _ h))
    cases t with
    | escape | malformed => exact .same rfl
    | char c i =>
      cases i with
      | none =>
        by_cases hc : c ∈ symbols
        · by_cases hs : s = .inBraces
          · subst hs
            rw [Token.spell_inBraces]
            exact .misplaced (hsymbols c hc) (hsymbols c hc)
          · rw [Token.spell_of_mem hs hc]
            exact .literal hs (hsymbols c hc)
        · rw [Token.spell_of_notMem hc]
          exact .same rfl
      | some i =>
        obtain ⟨hd, hi⟩ := hts c i List.mem_cons_self
        have hletter : symbols.getD i c ∉ signs := by
          rw [List.getD_eq_getElem?_getD, List.getElem?_eq_getElem hi, Option.getD_some]
          exact hsymbols _ (List.getElem_mem hi)
        by_cases hs : s = .inBraces
        · subst hs
          exact .misplaced hletter hd
        · exact .symbol hs hletter hd

/-- A token that is spelled as a character is the character, unless it is a symbol. -/
theorem Token.eq_of_spell_eq_char {t : Token} {c : Char} {i : Option ℕ}
    (ht : i = none ∨ t.symbol? = none) (h : t.spell symbols s = .char c i) : t = .char c none := by
  cases t with
  | escape | malformed => cases h
  | char d j =>
    cases j with
    | none =>
      rw [spell] at h
      split at h
      · cases h
      · rw [(Token.char.inj h).1]
    | some j =>
      rcases ht with rfl | ht
      · cases h
      · cases ht

theorem Token.eq_of_spell_eq_set {t : Token} {cs : List Char}
    (h : t.spell symbols s = .escape (.set cs)) : t = .escape (.set cs) := by
  cases t with
  | malformed => cases h
  | escape => exact h
  | char c i =>
    cases i with
    | none => rw [spell] at h; split at h <;> cases h
    | some i => cases h

theorem Token.eq_of_spell_eq_malformed {t : Token} {e : Error}
    (h : t.spell symbols s = .malformed e) : t = .malformed e := by
  cases t with
  | escape => cases h
  | malformed => exact h
  | char c i =>
    cases i with
    | none => rw [spell] at h; split at h <;> cases h
    | some i => cases h

/-- Outside braces, a token that is spelled as a written character is one. -/
theorem Written.exists_of_spell {t : Token} {x : Written} (hs : s ≠ .inBraces)
    (h : t.spell symbols s = x.token) : ∃ y : Written, t = y.token ∧ x = y.spell symbols := by
  cases t with
  | malformed => cases x <;> cases h
  | escape e =>
    cases x with
    | plain => cases h
    | escaped c => cases h; exact ⟨.escaped c, rfl, rfl⟩
  | char c i =>
    refine ⟨.plain c i, rfl, ?_⟩
    cases i with
    | none =>
      by_cases hc : c ∈ symbols
      · rw [Token.spell_of_mem hs hc] at h
        rw [Written.spell, if_pos hc]
        cases x with
        | plain => cases h
        | escaped => cases h; rfl
      · rw [Token.spell_of_notMem hc] at h
        rw [Written.spell, if_neg hc]
        cases x with
        | plain => cases h; rfl
        | escaped => cases h
    | some i =>
      cases x with
      | plain => cases h; rfl
      | escaped => cases h

/-! ## What surrounds spelled tokens -/

/-- Spelling a token in letters that are no brackets does not change what surrounds the next one. -/
theorem afterToken_spell (hsymbols : ∀ c ∈ symbols, c ∉ brackets) (r : Surroundings) (t : Token) :
    r.afterToken (t.spell symbols s) = r.afterToken t := by
  cases t with
  | escape | malformed => rfl
  | char c i =>
    cases i with
    | some i => rfl
    | none =>
      by_cases hc : c ∈ symbols
      · have hstays : r.afterToken (.char c none) = r := Surroundings.after_eq_self (hsymbols c hc)
        obtain ⟨i, hi⟩ := Option.isSome_iff_exists.1 (List.isSome_idxOf?.2 hc)
        rw [hstays, Token.spell, hi]
        split <;> rfl
      · rw [Token.spell_of_notMem hc]

theorem afterTokens_spellTokens (hsymbols : ∀ c ∈ symbols, c ∉ brackets) (r : Surroundings)
    (ts : List Token) : r.afterTokens (spellTokens symbols s ts) = r.afterTokens ts := by
  induction ts generalizing r s with
  | nil => rfl
  | cons t ts ih =>
    show (r.afterToken (t.spell symbols s)).afterTokens _ = (r.afterToken t).afterTokens ts
    rw [afterToken_spell hsymbols, ih]

theorem eq_nil_of_spellTokens {ts : List Token} (h : [] = spellTokens symbols s ts) : ts = [] := by
  cases ts with
  | nil => rfl
  | cons => cases h

/-- A spelled token that changes nothing around it comes from such a token. -/
theorem exists_of_cons_eq_spellTokens (hsymbols : ∀ c ∈ symbols, c ∉ brackets) {a : Token}
    {as ts : List Token} (hstays : s.afterToken a = s) (h : a :: as = spellTokens symbols s ts) :
    ∃ t us, ts = t :: us ∧ t.spell symbols s = a ∧ as = spellTokens symbols s us := by
  cases ts with
  | nil => cases h
  | cons t us =>
    obtain ⟨hhead, htail⟩ := List.cons.inj h
    rw [hhead, afterToken_spell hsymbols] at hstays
    rw [hstays] at htail
    exact ⟨t, us, rfl, hhead.symm, htail⟩

/-- Where spelled tokens are parted, so are the tokens. -/
theorem exists_of_append_eq_spellTokens {as bs ts : List Token}
    (h : as ++ bs = spellTokens symbols s ts) :
    ∃ us vs, ts = us ++ vs ∧ as = spellTokens symbols s us ∧
      bs = spellTokens symbols (s.afterTokens us) vs := by
  induction as generalizing s ts with
  | nil => exact ⟨[], ts, rfl, rfl, h⟩
  | cons a as ih =>
    cases ts with
    | nil => cases h
    | cons t ts =>
      obtain ⟨hhead, htail⟩ := List.cons.inj h
      obtain ⟨us, vs, rfl, has, hbs⟩ := ih htail
      exact ⟨t :: us, vs, rfl, congrArg₂ List.cons hhead has, hbs⟩

/-! ## Phrases of spelled tokens -/

/-- Tokens that are spelled as marks are the marks. -/
theorem eq_of_plainTokens_eq {w : Text} {ts : List Token}
    (h : plainTokens w = spellTokens symbols s ts) : ts = plainTokens w := by
  induction w generalizing s ts with
  | nil => exact eq_nil_of_spellTokens h
  | cons c w ih =>
    cases ts with
    | nil => cases h
    | cons t ts =>
      obtain ⟨hhead, htail⟩ := List.cons.inj h
      rw [Token.eq_of_spell_eq_char (.inl rfl) hhead.symm, ih htail]
      rfl

section

variable (hsymbols : ∀ c ∈ symbols, c ∉ brackets)

include hsymbols

/-- If each part, as it is written, can be said without the letters and leaves the surroundings as
they are, so can all parts together. -/
theorem exists_of_flatMap_eq {α : Type} {tokens : α → List Token} {spell : α → α} {xs : List α}
    (hxs : ∀ x ∈ xs, s.afterTokens (tokens x) = s ∧
      ∀ us, tokens x = spellTokens symbols s us → ∃ y, us = tokens y ∧ x = spell y)
    {ts : List Token} (h : xs.flatMap tokens = spellTokens symbols s ts) :
    ∃ ys : List α, ts = ys.flatMap tokens ∧ xs = ys.map spell := by
  induction xs generalizing ts with
  | nil =>
    rw [eq_nil_of_spellTokens h]
    exact ⟨[], rfl, rfl⟩
  | cons x xs ih =>
    obtain ⟨⟨hstays, hx⟩, hrest⟩ := List.forall_mem_cons.1 hxs
    obtain ⟨us, vs, rfl, hus, hvs⟩ := exists_of_append_eq_spellTokens h
    have hafter : s.afterTokens us = s := by
      rw [← afterTokens_spellTokens hsymbols (s := s), ← hus, hstays]
    rw [hafter] at hvs
    obtain ⟨y, rfl, rfl⟩ := hx us hus
    obtain ⟨ys, rfl, rfl⟩ := ih hrest hvs
    exact ⟨y :: ys, rfl, rfl⟩

/-- A clause of spelled tokens is one of the tokens, spelled. -/
theorem Clause.exists_of_tokens_eq {clause : Clause} (hclosed : clause.Closed) {ts : List Token}
    (h : clause.tokens = spellTokens symbols .inClass ts) :
    ∃ c : Clause, ts = c.tokens ∧ clause = c.spell symbols := by
  have hwritten {x : Written} {rest us : List Token} (hx : x.token ∈ clause.tokens)
      (h : x.token :: rest = spellTokens symbols .inClass us) :
      ∃ y us', us = Written.token y :: us' ∧ x = y.spell symbols ∧
        rest = spellTokens symbols .inClass us' := by
    obtain ⟨t, us', rfl, ht, hrest⟩ :=
      exists_of_cons_eq_spellTokens hsymbols (hclosed _ hx) h
    obtain ⟨y, rfl, rfl⟩ := Written.exists_of_spell (by decide) ht
    exact ⟨y, us', rfl, rfl, hrest⟩
  cases clause with
  | lone x =>
    obtain ⟨y, us, rfl, rfl, hrest⟩ := hwritten List.mem_cons_self h
    rw [eq_nil_of_spellTokens hrest]
    exact ⟨.lone y, rfl, rfl⟩
  | set cs =>
    obtain ⟨t, us, rfl, ht, hrest⟩ := exists_of_cons_eq_spellTokens hsymbols rfl h
    rw [eq_nil_of_spellTokens hrest, Token.eq_of_spell_eq_set ht]
    exact ⟨.set cs, rfl, rfl⟩
  | range lo hi =>
    obtain ⟨y, us, rfl, rfl, hafter⟩ := hwritten List.mem_cons_self h
    obtain ⟨t, us, rfl, ht, hbeyond⟩ := exists_of_cons_eq_spellTokens hsymbols rfl hafter
    obtain ⟨z, us, rfl, rfl, hrest⟩ := hwritten (by simp [tokens]) hbeyond
    rw [eq_nil_of_spellTokens hrest, Token.eq_of_spell_eq_char (.inl rfl) ht]
    exact ⟨.range y z, rfl, rfl⟩

/-- A phrase of spelled tokens is one of the tokens, spelled. -/
theorem Phrase.exists_of_tokens_eq {p : Phrase} (hclosed : p.Closed) {ts : List Token}
    (h : p.tokens = spellTokens symbols .plain ts) :
    ∃ q : Phrase, ts = q.tokens ∧ p = q.spell symbols := by
  cases p with
  | character x =>
    obtain ⟨t, us, rfl, ht, hrest⟩ := exists_of_cons_eq_spellTokens hsymbols hclosed h
    obtain ⟨y, rfl, rfl⟩ := Written.exists_of_spell (by decide) ht
    rw [eq_nil_of_spellTokens hrest]
    exact ⟨.character y, rfl, rfl⟩
  | set cs =>
    obtain ⟨t, us, rfl, ht, hrest⟩ := exists_of_cons_eq_spellTokens hsymbols rfl h
    rw [eq_nil_of_spellTokens hrest, Token.eq_of_spell_eq_set ht]
    exact ⟨.set cs, rfl, rfl⟩
  | charClass clauses hyphen =>
    rw [tokens, List.append_assoc] at h
    obtain ⟨opening, us, rfl, hopening, h⟩ := exists_of_append_eq_spellTokens h
    rw [eq_of_plainTokens_eq hopening] at h ⊢
    obtain ⟨us, closing, rfl, hus, hclosing⟩ := exists_of_append_eq_spellTokens h
    obtain ⟨clauses, rfl, rfl⟩ := exists_of_flatMap_eq hsymbols (fun clause hclause =>
      ⟨Surroundings.afterTokens_eq_self (hclosed clause hclause),
        fun us h => Clause.exists_of_tokens_eq hsymbols (hclosed clause hclause) h⟩) hus
    refine ⟨.charClass clauses hyphen, ?_, rfl⟩
    rw [eq_of_plainTokens_eq hclosing, tokens, List.append_assoc]
  | any => exact ⟨.any, eq_of_plainTokens_eq h, rfl⟩
  | opening marked => exact ⟨.opening marked, eq_of_plainTokens_eq h, rfl⟩
  | closing => exact ⟨.closing, eq_of_plainTokens_eq h, rfl⟩
  | bar => exact ⟨.bar, eq_of_plainTokens_eq h, rfl⟩
  | repetition mark written q => exact ⟨.repetition mark written q, eq_of_plainTokens_eq h, rfl⟩

/-- Phrases of spelled tokens are phrases of the tokens, spelled. -/
theorem exists_of_flatMap_tokens {phrases : List Phrase} (hclosed : ∀ p ∈ phrases, p.Closed)
    {ts : List Token} (h : phrases.flatMap Phrase.tokens = spellTokens symbols .plain ts) :
    ∃ written : List Phrase, ts = written.flatMap Phrase.tokens ∧
      phrases = written.map (Phrase.spell symbols) := by
  refine exists_of_flatMap_eq hsymbols (fun p hp => ⟨(hclosed p hp).afterTokens, ?_⟩) h
  exact fun us h => Phrase.exists_of_tokens_eq hsymbols (hclosed p hp) h

end

/-! ## What a phrase writes -/

/-- The symbol that a written character stands for. -/
def Written.symbol? : Written → Option ℕ
  | plain _ i => i
  | escaped _ => none

/-- The ways in which a phrase writes a character, without letters: it stands there as an element or
as a member of a class, plain or escaped, it is of a set or printable, or it lies between two
characters. -/
inductive Phrase.Writes (c : Char) : Phrase → Prop
  | element {x} (h : Written.atom x = .literal c) : Writes c (.character x)
  | set {cs} (h : c ∈ cs) : Writes c (.set cs)
  | any (h : c ∈ printableAscii) : Writes c .any
  | member {x clauses hyphen} (h : .lone x ∈ clauses) (hx : Written.atom x = .literal c) :
      Writes c (.charClass clauses hyphen)
  | setMember {cs clauses hyphen} (h : .set cs ∈ clauses) (hc : c ∈ cs) :
      Writes c (.charClass clauses hyphen)
  | range {lo hi clauses hyphen} (h : .range lo hi ∈ clauses) (hlo : Written.symbol? lo = none)
      (hhi : Written.symbol? hi = none) (hle : lo.char ≤ c) (hge : c ≤ hi.char) :
      Writes c (.charClass clauses hyphen)
  | hyphen {clauses} (h : c = '-') : Writes c (.charClass clauses true)

/-- The character lies in a range of the phrase that has a symbol at one of its ends, where the end
is the letter of the symbol. -/
inductive Phrase.InNamedRange (symbols : List Char) (c : Char) : Phrase → Prop
  | intro {lo hi clauses hyphen} (h : .range lo hi ∈ clauses)
      (hends : (Written.symbol? lo).isSome = true ∨ (Written.symbol? hi).isSome = true)
      (hle : (Written.spell symbols lo).char ≤ c) (hge : c ≤ (Written.spell symbols hi).char) :
      InNamedRange symbols c (.charClass clauses hyphen)

/-- Spelled or not, a character alone is the same atom. -/
theorem Written.atom_spell (x : Written) : (x.spell symbols).atom = x.atom := by
  cases x with
  | escaped => rfl
  | plain c i =>
    cases i with
    | some i => rfl
    | none =>
      rw [spell]
      split <;> rfl

/-- Only a symbol becomes another character by spelling. -/
theorem Written.char_spell {x : Written} (hx : x.symbol? = none) :
    (x.spell symbols).char = x.char := by
  cases x with
  | escaped => rfl
  | plain c i =>
    cases hx
    rw [spell]
    split <;> rfl

/-- What a spelled phrase stands for is written in the phrase, unless it is in a range with a symbol
at one of its ends. -/
theorem Phrase.writes_or_inNamedRange {p : Phrase} {c : Char}
    (h : c ∈ (p.spell symbols).literals) : p.Writes c ∨ p.InNamedRange symbols c := by
  have hliteral {x : Written} (h : (x.spell symbols).atom.literal? = some c) :
      x.atom = .literal c := by
    rw [Written.atom_spell] at h
    cases hx : x.atom with
    | symbol => rw [hx] at h; cases h
    | literal => rw [hx] at h; cases h; rfl
  cases p with
  | character x => exact .inl (.element (hliteral (Option.mem_toList.1 h)))
  | set cs => exact .inl (.set h)
  | any => exact .inl (.any h)
  | opening | closing | bar | repetition => cases h
  | charClass clauses hyphen =>
    rcases List.mem_append.1 h with h | h
    · obtain ⟨a, ha, hac⟩ := List.mem_filterMap.1 h
      obtain ⟨_, hspelled, ha⟩ := List.mem_flatMap.1 ha
      obtain ⟨clause, hclause, rfl⟩ := List.mem_map.1 hspelled
      cases clause with
      | lone x =>
        obtain rfl := List.mem_singleton.1 ha
        exact .inl (.member hclause (hliteral hac))
      | set cs =>
        obtain ⟨d, hd, rfl⟩ := List.mem_map.1 ha
        cases hac
        exact .inl (.setMember hclause hd)
      | range lo hi =>
        obtain ⟨d, hd, rfl⟩ := List.mem_map.1 ha
        cases hac
        have hbetween : (lo.spell symbols).char ≤ c ∧ c ≤ (hi.spell symbols).char :=
          Text.mem_scalarsBetween_iff.1 hd
        by_cases hends : lo.symbol?.isSome = true ∨ hi.symbol?.isSome = true
        · exact .inr (.intro hclause hends hbetween.1 hbetween.2)
        · simp only [not_or, Bool.not_eq_true, Option.isSome_eq_false_iff,
            Option.isNone_iff_eq_none] at hends
          obtain ⟨hlo, hhi⟩ := hends
          rw [Written.char_spell hlo, Written.char_spell hhi] at hbetween
          exact .inl (.range hclause hlo hhi hbetween.1 hbetween.2)
    · cases hyphen with
      | false => cases h
      | true => exact .inl (.hyphen (List.mem_singleton.1 h))

end Pattern

end Confection
