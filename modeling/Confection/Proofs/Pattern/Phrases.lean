import Confection.Proofs.Pattern.Likeness

/-!
# The phrases of a pattern

A pattern without mistakes is a list of phrases, one for each lexeme (`exists_phrases`).  A phrase
knows the tokens that it is written with and the lexeme that it is read as, so it says of each token
what becomes of it.  A character that stands for a symbol has three places: it is an element, it is
a member of a class, or it is an end of a range.  Only in a range its letter counts.

Phrases are `Closed`: a bracket or a brace that one of them opens, it closes again.
-/

namespace Confection

/-- The character of a literal. -/
def Atom.literal? : Atom → Option Char
  | .literal c => some c
  | .symbol _ => none

namespace Pattern

/-- A character as it is written: plain, with the symbol that it stands for, or escaped. -/
inductive Written where
  | plain (c : Char) (symbol : Option ℕ)
  | escaped (c : Char)

namespace Written

/-- The character itself. -/
def char : Written → Char
  | plain c _ | escaped c => c

def token : Written → Token
  | plain c i => .char c i
  | escaped c => .escape (.char c)

/-- What the character is when it stands alone. -/
def atom : Written → Atom
  | plain c i => atomOf c i
  | escaped c => .literal c

end Written

/-- The tokens of marks. -/
def plainTokens (t : Text) : List Token := t.map (.char · none)

theorem plainTokens_append (t u : Text) : plainTokens (t ++ u) = plainTokens t ++ plainTokens u :=
  List.map_append

/-- What is written in a class. -/
inductive Clause where
  | lone (x : Written)
  | set (cs : List Char)
  | range (lo hi : Written)

namespace Clause

def tokens : Clause → List Token
  | lone x => [x.token]
  | set cs => [.escape (.set cs)]
  | range lo hi => [lo.token, .char '-' none, hi.token]

/-- Does the clause leave the class open that it is written in? -/
def Closed (clause : Clause) : Prop :=
  ∀ t ∈ clause.tokens, Surroundings.inClass.afterToken t = .inClass

/-- The members of the class that the clause stands for. -/
def members : Clause → List Atom
  | lone x => [x.atom]
  | set cs => cs.map .literal
  | range lo hi => CharClass.range lo.char hi.char

end Clause

/-- A part of a pattern that is one lexeme. -/
inductive Phrase where
  | character (x : Written)
  | set (cs : List Char)
  | any
  /-- A class, which may end with a hyphen. -/
  | charClass (clauses : List Clause) (hyphen : Bool)
  /-- The opening of a group, which may be marked with `?:`. -/
  | opening (marked : Bool)
  | closing
  | bar
  /-- A quantifier by its first character, with the characters after it. -/
  | repetition (mark : Char) (written : Text) (q : Quantifier)

namespace Phrase

def tokens : Phrase → List Token
  | character x => [x.token]
  | set cs => [.escape (.set cs)]
  | any => plainTokens ['.']
  | charClass clauses hyphen =>
    plainTokens ['['] ++ clauses.flatMap Clause.tokens ++
      plainTokens (if hyphen then ['-', ']'] else [']'])
  | opening marked => plainTokens (if marked then ['(', '?', ':'] else ['('])
  | closing => plainTokens [')']
  | bar => plainTokens ['|']
  | repetition mark written _ => plainTokens (mark :: written)

def lexeme : Phrase → Lexeme
  | character x => .element x.atom.toElement
  | set cs => .element (.oneOf (cs.map .literal))
  | any => .element .any
  | charClass clauses hyphen =>
    .element (.oneOf (firstOccurrences
      (clauses.flatMap Clause.members ++ if hyphen then [.literal '-'] else [])))
  | opening _ => .opening
  | closing => .closing
  | bar => .bar
  | repetition mark _ q => .repetition mark (.ok q)

/-- The characters that the phrase may add to a text as literals. -/
def literals : Phrase → List Char
  | character x => x.atom.literal?.toList
  | set cs => cs
  | any => printableAscii
  | charClass clauses hyphen =>
    (clauses.flatMap Clause.members).filterMap Atom.literal? ++ if hyphen then ['-'] else []
  | opening _ | closing | bar | repetition _ _ _ => []

/-- Does the phrase end in the open if it starts there? -/
def Closed : Phrase → Prop
  | character x => Surroundings.plain.afterToken x.token = .plain
  | charClass clauses _ => ∀ clause ∈ clauses, clause.Closed
  | repetition mark written _ =>
    Surroundings.plain.afterTokens (plainTokens (mark :: written)) = .plain
  | set _ | any | opening _ | closing | bar => True

theorem Closed.afterTokens {p : Phrase} (h : p.Closed) :
    Surroundings.plain.afterTokens p.tokens = .plain := by
  cases p with
  | character | repetition => exact h
  | set | any | closing | bar => rfl
  | opening marked => cases marked <;> rfl
  | charClass clauses hyphen =>
    have hopening : Surroundings.plain.afterTokens (plainTokens ['[']) = .inClass := rfl
    have hclauses : Surroundings.inClass.afterTokens (clauses.flatMap Clause.tokens) = .inClass := by
      refine Surroundings.afterTokens_eq_self fun t ht => ?_
      obtain ⟨clause, hclause, ht⟩ := List.mem_flatMap.1 ht
      exact h clause hclause t ht
    simp only [tokens, Surroundings.afterTokens_append, hopening, hclauses]
    cases hyphen <;> rfl

/-- The places that a letter for a symbol may have in a phrase: as an element, as a member of a
class and at either end of a range. -/
inductive HasLetter (c : Char) (i : ℕ) : Phrase → Prop
  | element : HasLetter c i (.character (.plain c (some i)))
  | member {clauses hyphen} (h : .lone (.plain c (some i)) ∈ clauses) :
      HasLetter c i (.charClass clauses hyphen)
  | low {clauses hyphen hi} (h : .range (.plain c (some i)) hi ∈ clauses) :
      HasLetter c i (.charClass clauses hyphen)
  | high {clauses hyphen lo} (h : .range lo (.plain c (some i)) ∈ clauses) :
      HasLetter c i (.charClass clauses hyphen)

end Phrase

/-- Does no sign stand for a symbol? -/
def SignsPlain (ts : List Token) : Prop :=
  ∀ t ∈ ts, ∀ c ∈ signs, t.isMark c = true → t = .char c none

theorem SignsPlain.cons {t : Token} {ts : List Token} (h : SignsPlain (t :: ts)) :
    (∀ c ∈ signs, t.isMark c = true → t = .char c none) ∧ SignsPlain ts :=
  List.forall_mem_cons.1 h

section

variable {ts rest : List Token}

theorem SignsPlain.of_suffix (h : SignsPlain ts) (hrest : rest <:+ ts) : SignsPlain rest :=
  fun t ht => h t (hrest.subset ht)

/-! ## Marks -/

theorem expect_eq_ok {c : Char} (hc : c ∈ signs) (hts : SignsPlain ts)
    (h : Bounds.expect c ts = .ok rest) : ts = plainTokens [c] ++ rest := by
  obtain ⟨t, hmark, rfl⟩ := Bounds.expect_eq_ok_iff.1 h
  rw [hts.cons.1 c hc hmark]
  rfl

theorem readOpening_eq_ok (hts : SignsPlain ts) (h : readOpening ts = .ok rest) :
    ∃ marked : Bool, ts = plainTokens (if marked then ['?', ':'] else []) ++ rest := by
  cases ts with
  | nil => cases h; exact ⟨false, rfl⟩
  | cons t ts =>
    rw [readOpening] at h
    split at h
    · next hmark =>
      refine ⟨true, ?_⟩
      rw [hts.cons.1 '?' (by decide) hmark, expect_eq_ok (by decide) hts.cons.2 h]
      rfl
    · cases h; exact ⟨false, rfl⟩

/-- Digits are marks. -/
theorem takeWhile_isDigit_eq (hts : SignsPlain ts) :
    ∃ t : Text, ts.takeWhile Token.isDigit = plainTokens t ∧ ∀ c ∈ t, c.isDigit = true := by
  induction ts with
  | nil => exact ⟨[], rfl, List.forall_mem_nil _⟩
  | cons t ts ih =>
    cases ht : t.isDigit with
    | false => exact ⟨[], List.takeWhile_cons_of_neg (by simp [ht]), List.forall_mem_nil _⟩
    | true =>
      obtain ⟨digits, hdigits, hall⟩ := ih hts.cons.2
      rw [List.takeWhile_cons_of_pos ht, hdigits]
      cases t with
      | char c i =>
        rw [hts.cons.1 c (mem_signs_of_isDigit ht) (beq_self_eq_true c)]
        exact ⟨c :: digits, rfl, List.forall_mem_cons.2 ⟨ht, hall⟩⟩
      | escape | malformed => cases ht

theorem afterTokens_digits {t : Text} (ht : ∀ c ∈ t, c.isDigit = true) (s : Surroundings) :
    s.afterTokens (plainTokens t) = s := by
  refine Surroundings.afterTokens_eq_self fun u hu => ?_
  obtain ⟨c, hc, rfl⟩ := List.mem_map.1 hu
  exact s.after_of_isDigit (ht c hc)

theorem readNumber_eq_ok {n : Option ℕ} (hts : SignsPlain ts)
    (h : Bounds.readNumber ts = .ok (n, rest)) : ∃ t : Text, ts = plainTokens t ++ rest ∧
      Surroundings.inBraces.afterTokens (plainTokens t) = .inBraces := by
  obtain ⟨t, ht, hdigits⟩ := takeWhile_isDigit_eq hts
  have hsplit := List.takeWhile_append_dropWhile (p := Token.isDigit) (l := ts)
  exact ⟨t, by rw [← ht, ← Bounds.dropWhile_of_readNumber h, hsplit], afterTokens_digits hdigits _⟩

/-- Bounds are marks. -/
theorem read_eq_ok {q : Quantifier} (hts : SignsPlain ts) (h : Bounds.read ts = .ok (q, rest)) :
    ∃ t : Text, ts = plainTokens t ++ rest ∧
      Surroundings.inBraces.afterTokens (plainTokens t) = .plain := by
  unfold Bounds.read at h
  obtain ⟨⟨first, rest₁⟩, hfirst, h⟩ := bind_eq_ok.1 h
  dsimp only at h
  obtain ⟨t, ht, htclosed⟩ := readNumber_eq_ok hts hfirst
  have hts₁ := hts.of_suffix ⟨_, ht.symm⟩
  rw [ht]
  split at h
  · next hclose =>
    cases first with
    | none => cases h
    | some n =>
      cases h
      cases rest₁ with
      | nil => cases hclose
      | cons close rest₁ =>
        rw [hts₁.cons.1 '\x7d' (by decide) hclose]
        refine ⟨t ++ ['\x7d'], by simp [plainTokens], ?_⟩
        rw [plainTokens_append, Surroundings.afterTokens_append, htclosed]
        rfl
  · obtain ⟨rest₂, hcomma, h⟩ := bind_eq_ok.1 h
    obtain ⟨⟨second, rest₃⟩, hsecond, h⟩ := bind_eq_ok.1 h
    obtain ⟨rest₄, hclose, h⟩ := bind_eq_ok.1 h
    obtain ⟨q', -, h⟩ := bind_eq_ok.1 h
    cases h
    obtain rfl := expect_eq_ok (by decide) hts₁ hcomma
    have hts₂ := hts₁.of_suffix (List.suffix_append _ rest₂)
    obtain ⟨u, rfl, huclosed⟩ := readNumber_eq_ok hts₂ hsecond
    have hts₃ := hts₂.of_suffix (List.suffix_append _ rest₃)
    obtain rfl := expect_eq_ok (by decide) hts₃ hclose
    have hcomma : Surroundings.inBraces.afterTokens (plainTokens [',']) = .inBraces := rfl
    refine ⟨t ++ [','] ++ u ++ ['\x7d'], by simp [plainTokens], ?_⟩
    simp only [plainTokens_append, Surroundings.afterTokens_append, htclosed, hcomma, huclosed]
    rfl

/-! ## Classes -/

open CharClass

/-- A character in a class is written in one of the two ways. -/
theorem exists_written {t : Token} {c : Char} {a : Atom} (h : Part.ofToken t = .single c a) :
    ∃ x : Written, t = x.token ∧ x.char = c ∧ x.atom = a ∧
      Surroundings.inClass.afterToken x.token = .inClass := by
  unfold Part.ofToken at h
  split at h
  · next d i =>
    split at h
    · cases h
    · next hd =>
      cases h
      refine ⟨.plain _ i, rfl, rfl, rfl, ?_⟩
      cases i with
      | none => simp [Written.token, Surroundings.afterToken, Surroundings.after, hd]
      | some i => rfl
  · cases h; exact ⟨.escaped c, rfl, rfl, rfl, rfl⟩
  · cases h
  · cases h

theorem eq_set_of_ofToken {t : Token} {cs : List Char} (h : Part.ofToken t = .set cs) :
    t = .escape (.set cs) := by
  unfold Part.ofToken at h
  split at h
  · split at h <;> cases h
  · cases h
  · cases h; rfl
  · cases h

/-- What is read after the opening of a class are clauses, perhaps a hyphen, and the closing. -/
theorem readMembers_eq_ok {members : List Atom} (hts : SignsPlain ts)
    (h : readMembers ts = .ok (members, rest)) :
    ∃ (clauses : List Clause) (hyphen : Bool),
      ts = clauses.flatMap Clause.tokens ++ plainTokens (if hyphen then ['-', ']'] else [']']) ++
        rest ∧
      members = clauses.flatMap Clause.members ++ (if hyphen then [.literal '-'] else []) ∧
      ∀ clause ∈ clauses, clause.Closed := by
  have hclose {t : Token} {ts : List Token} (hts : SignsPlain (t :: ts))
      (ht : Part.ofToken t = .close) : t = .char ']' none :=
    hts.cons.1 ']' (by decide) (isMark_of_ofToken_eq_close ht)
  fun_induction readMembers ts generalizing members with
  | case3 first rest' hfirst =>
    -- the closing bracket
    cases h
    exact ⟨[], false, by rw [hclose hts hfirst]; rfl, rfl, List.forall_mem_nil _⟩
  | case5 first rest' cs hfirst _ ih =>
    -- a set
    obtain ⟨following, hr, rfl⟩ := after_eq_ok_iff.1 h
    obtain ⟨clauses, hyphen, htokens, rfl, hclosed⟩ := ih hts.cons.2 hr
    refine ⟨.set cs :: clauses, hyphen, ?_, by simp [Clause.members],
      List.forall_mem_cons.2 ⟨by simp [Clause.Closed, Clause.tokens, Surroundings.afterToken], hclosed⟩⟩
    rw [eq_set_of_ofToken hfirst, htokens]
    rfl
  | case9 first lo alone hfirst second hhyphen third beyond hthird =>
    -- a hyphen before the closing bracket
    cases h
    obtain ⟨x, rfl, -, rfl, hx⟩ := exists_written hfirst
    refine ⟨[.lone x], true, ?_, rfl, by simpa [Clause.Closed, Clause.tokens] using hx⟩
    rw [hts.cons.2.cons.1 '-' (by decide) hhyphen, hclose hts.cons.2.cons.2 hthird]
    rfl
  | case12 first lo alone hfirst second hhyphen third beyond hi _ hthird _ ih =>
    -- a range
    obtain ⟨following, hr, rfl⟩ := after_eq_ok_iff.1 h
    obtain ⟨clauses, hyphen, htokens, rfl, hclosed⟩ := ih hts.cons.2.cons.2.cons.2 hr
    obtain ⟨x, rfl, rfl, -, hx⟩ := exists_written hfirst
    obtain ⟨y, rfl, rfl, -, hy⟩ := exists_written hthird
    have hstays : Surroundings.inClass.afterToken (.char '-' none) = .inClass := rfl
    refine ⟨.range x y :: clauses, hyphen, ?_, by simp [Clause.members],
      List.forall_mem_cons.2 ⟨by simp [Clause.Closed, Clause.tokens, hx, hy, hstays], hclosed⟩⟩
    rw [hts.cons.2.cons.1 '-' (by decide) hhyphen, htokens]
    rfl
  | case13 first lo alone hfirst second beyond _ ih =>
    -- a member on its own
    obtain ⟨following, hr, rfl⟩ := after_eq_ok_iff.1 h
    obtain ⟨clauses, hyphen, htokens, rfl, hclosed⟩ := ih hts.cons.2 hr
    obtain ⟨x, rfl, -, rfl, hx⟩ := exists_written hfirst
    refine ⟨.lone x :: clauses, hyphen, ?_, by simp [Clause.members],
      List.forall_mem_cons.2 ⟨by simpa [Clause.Closed, Clause.tokens] using hx, hclosed⟩⟩
    rw [htokens]
    rfl
  | _ => cases h

/-- With its opening, a class that is read is a phrase. -/
theorem readClass_eq_ok {members : List Atom} (hts : SignsPlain ts)
    (h : readClass ts = .ok (members, rest)) :
    ∃ (clauses : List Clause) (hyphen : Bool),
      ts = clauses.flatMap Clause.tokens ++ plainTokens (if hyphen then ['-', ']'] else [']']) ++
        rest ∧
      (Phrase.charClass clauses hyphen).lexeme = .element (.oneOf members) ∧
      ∀ clause ∈ clauses, clause.Closed := by
  unfold readClass at h
  split at h
  · cases h
  obtain ⟨⟨found, rest'⟩, hfound, h⟩ := bind_eq_ok.1 h
  obtain ⟨clauses, hyphen, htokens, hmembers, hclosed⟩ := readMembers_eq_ok hts hfound
  dsimp only at h
  split at h
  · cases h
  · cases h
    exact ⟨clauses, hyphen, htokens, by rw [Phrase.lexeme, ← hmembers], hclosed⟩

/-! ## Phrases -/

/-- A token that is a lexeme of its own is a phrase of its own. -/
theorem exists_phrase_of_alone? {t : Token} {x : Lexeme}
    (ht : ∀ c ∈ signs, t.isMark c = true → t = .char c none) (h : t.alone? = some x) :
    ∃ p : Phrase, [t] = p.tokens ∧ x = p.lexeme ∧ p.Closed := by
  have hmark {c : Char} {i : Option ℕ} (hc : c ∈ signs) (heq : t = .char c i) :
      [t] = plainTokens [c] := by
    rw [ht c hc (by rw [heq]; exact beq_self_eq_true c)]
    rfl
  unfold Token.alone? at h
  split at h
  · cases h
  · next c => cases h; exact ⟨.character (.escaped c), rfl, rfl, rfl⟩
  · next cs => cases h; exact ⟨.set cs, rfl, rfl, trivial⟩
  · next c i =>
    split at h
    · cases h
    · cases h
    · cases h
    · cases h; exact ⟨.closing, hmark (by decide) rfl, rfl, trivial⟩
    · cases h; exact ⟨.bar, hmark (by decide) rfl, rfl, trivial⟩
    · cases h; exact ⟨.any, hmark (by decide) rfl, rfl, trivial⟩
    · cases h; exact ⟨.repetition '?' [] .optional, hmark (by decide) rfl, rfl, rfl⟩
    · cases h; exact ⟨.repetition '*' [] .zeroOrMore, hmark (by decide) rfl, rfl, rfl⟩
    · cases h; exact ⟨.repetition '+' [] .oneOrMore, hmark (by decide) rfl, rfl, rfl⟩
    · cases h
      refine ⟨.character (.plain _ i), rfl, rfl, ?_⟩
      cases i with
      | none =>
        -- the character is neither an opening bracket nor an opening brace
        show Surroundings.plain.after c = .plain
        unfold Surroundings.after
        split <;> simp_all
      | some i => rfl

/-- A mistake in braces cannot be read over. -/
theorem step_braces_error {limit : ℕ} {d d' : Draft} {e : Error} :
    d.step limit (.repetition '\x7b' (.error e)) ≠ .ok d' := by
  intro h
  cases Draft.step_eq_ok_iff.1 h

/-- Tokens that are read without a mistake are those of phrases, and are read as the phrases are. -/
theorem exists_phrases {limit : ℕ} {d e : Draft} (hts : SignsPlain ts)
    (h : (lexemes ts).foldlM (Draft.step limit) d = .ok e) :
    ∃ phrases : List Phrase, ts = phrases.flatMap Phrase.tokens ∧
      lexemes ts = phrases.map Phrase.lexeme ∧ ∀ p ∈ phrases, p.Closed := by
  induction ts using lexemesInduction generalizing d with
  | nil => exact ⟨[], rfl, lexemes_nil, List.forall_mem_nil _⟩
  | malformed e rest =>
    rw [lexemes_malformed] at h
    cases h
  | alone t x rest hx ih =>
    rw [lexemes_alone hx] at h ⊢
    obtain ⟨d', -, h⟩ := bind_eq_ok.1 h
    obtain ⟨phrases, htokens, hlexemes, hall⟩ := ih hts.cons.2 h
    obtain ⟨p, hp, rfl, hclosed⟩ := exists_phrase_of_alone? hts.cons.1 hx
    refine ⟨p :: phrases, ?_, by rw [hlexemes, List.map_cons],
      List.forall_mem_cons.2 ⟨hclosed, hall⟩⟩
    rw [List.flatMap_cons, ← hp, ← htokens, List.singleton_append]
  | opening i rest ih =>
    obtain ⟨hmark, hrest⟩ := hts.cons
    rw [lexemes_opening] at h ⊢
    cases hread : readOpening rest with
    | error e =>
      rw [hread] at h
      cases h
    | ok beyond =>
      rw [hread] at h
      obtain ⟨d', -, h⟩ := bind_eq_ok.1 h
      obtain ⟨marked, rfl⟩ := readOpening_eq_ok hrest hread
      obtain ⟨phrases, htokens, hlexemes, hall⟩ := ih beyond hread
        (hrest.of_suffix (List.suffix_append _ _)) h
      refine ⟨.opening marked :: phrases, ?_, ?_, List.forall_mem_cons.2 ⟨trivial, hall⟩⟩
      · rw [List.flatMap_cons, ← htokens, hmark '(' (by decide) rfl]
        cases marked <;> rfl
      · rw [List.map_cons, ← hlexemes]
        rfl
  | charClass i rest ih =>
    obtain ⟨hmark, hrest⟩ := hts.cons
    rw [lexemes_class] at h ⊢
    cases hread : readClass rest with
    | error e =>
      rw [hread] at h
      cases h
    | ok r =>
      obtain ⟨members, beyond⟩ := r
      rw [hread] at h
      obtain ⟨d', -, h⟩ := bind_eq_ok.1 h
      obtain ⟨clauses, hyphen, rfl, hlexeme, hclosed⟩ := readClass_eq_ok hrest hread
      obtain ⟨phrases, htokens, hlexemes, hall⟩ := ih members beyond hread
        (hrest.of_suffix (List.suffix_append _ _)) h
      refine ⟨.charClass clauses hyphen :: phrases, ?_, ?_, List.forall_mem_cons.2 ⟨hclosed, hall⟩⟩
      · rw [List.flatMap_cons, ← htokens, hmark '[' (by decide) rfl]
        rfl
      · rw [List.map_cons, ← hlexemes, hlexeme]
  | braces i rest ih =>
    obtain ⟨hmark, hrest⟩ := hts.cons
    rw [lexemes_braces] at h ⊢
    cases hread : Bounds.read rest with
    | error e =>
      rw [hread] at h
      obtain ⟨d', hstep, -⟩ := bind_eq_ok.1 h
      exact absurd hstep step_braces_error
    | ok r =>
      obtain ⟨q, beyond⟩ := r
      rw [hread] at h
      obtain ⟨d', -, h⟩ := bind_eq_ok.1 h
      obtain ⟨written, rfl, hclosed⟩ := read_eq_ok hrest hread
      obtain ⟨phrases, htokens, hlexemes, hall⟩ := ih q beyond hread
        (hrest.of_suffix (List.suffix_append _ _)) h
      refine ⟨.repetition '\x7b' written q :: phrases, ?_, ?_,
        List.forall_mem_cons.2 ⟨hclosed, hall⟩⟩
      · rw [List.flatMap_cons, ← htokens, hmark '\x7b' (by decide) rfl]
        rfl
      · rw [List.map_cons, ← hlexemes]
        rfl

end

/-- No phrase is written with a malformed escape. -/
theorem Phrase.malformed_notMem_tokens (p : Phrase) (e : Error) : .malformed e ∉ p.tokens := by
  have hplain {t : Text} : .malformed e ∉ plainTokens t := by simp [plainTokens]
  have hwritten (x : Written) : .malformed e ≠ x.token := by cases x <;> nofun
  intro h
  cases p with
  | character x => exact hwritten x (List.mem_singleton.1 h)
  | set cs => cases List.mem_singleton.1 h
  | any | opening | closing | bar | repetition => exact hplain h
  | charClass clauses hyphen =>
    rw [tokens, List.mem_append, List.mem_append, List.mem_flatMap] at h
    rcases h with (h | ⟨clause, -, h⟩) | h
    · exact hplain h
    · cases clause with
      | lone x => exact hwritten x (List.mem_singleton.1 h)
      | set cs => cases List.mem_singleton.1 h
      | range lo hi =>
        simp only [Clause.tokens, List.mem_cons, List.not_mem_nil, or_false] at h
        rcases h with h | h | h
        · exact hwritten lo h
        · cases h
        · exact hwritten hi h
    · exact hplain h

/-- There is no other place for a letter. -/
theorem Phrase.hasLetter_of_mem_tokens {p : Phrase} {c : Char} {i : ℕ}
    (h : .char c (some i) ∈ p.tokens) : p.HasLetter c i := by
  have hplain {t : Text} : .char c (some i) ∉ plainTokens t := by simp [plainTokens]
  have hwritten {x : Written} (hx : .char c (some i) = x.token) : x = .plain c (some i) := by
    cases x with
    | plain => cases hx; rfl
    | escaped => cases hx
  cases p with
  | character x =>
    obtain rfl := hwritten (List.mem_singleton.1 h)
    exact .element
  | charClass clauses hyphen =>
    rw [tokens, List.mem_append, List.mem_append, List.mem_flatMap] at h
    obtain (h | ⟨clause, hclause, h⟩) | h := h
    · exact absurd h hplain
    · cases clause with
      | lone x =>
        obtain rfl := hwritten (List.mem_singleton.1 h)
        exact .member hclause
      | set => simp [Clause.tokens] at h
      | range lo hi =>
        simp only [Clause.tokens, List.mem_cons, List.not_mem_nil, or_false] at h
        obtain h | h | h := h
        · obtain rfl := hwritten h
          exact .low hclause
        · cases h
        · obtain rfl := hwritten h
          exact .high hclause
    · exact absurd h hplain
  | set => simp [tokens] at h
  | any | opening | closing | bar | repetition => exact absurd h hplain

end Pattern

end Confection
