import Confection.Proofs.Pattern.Lexing

/-!
# Other numbers for the symbols

Reading a pattern looks at the characters of its tokens.  The number that a token carries for its
symbol is only passed on, so tokens with other numbers are read as the pattern with these numbers
(`ofTokens_renumber`).  One thing is asked of the new numbers: what was different must stay
different, since a class drops members that are the same.

## Shape of the lemmas

There is one equation for every reader, in the order in which the readers are built on each other:
what is read from the renumbered tokens is what is read from the tokens, renumbered.  Mistakes are
the same on both sides.
-/

namespace Confection

/-- The atom with another number for its symbol. -/
def Atom.renumber (ρ : ℕ → ℕ) : Atom → Atom
  | .symbol i => .symbol (ρ i)
  | .literal c => .literal c

mutual

/-- The element with other numbers for the symbols in it. -/
def Element.renumber (ρ : ℕ → ℕ) : Element → Element
  | .symbol i => .symbol (ρ i)
  | .literal c => .literal c
  | .oneOf members => .oneOf (members.map (Atom.renumber ρ))
  | .any => .any
  | .group p => .group (Pattern.renumber ρ p)
termination_by structural e => e

/-- The sequence with other numbers for the symbols in it. -/
def Sequence.renumber (ρ : ℕ → ℕ) : Sequence → Sequence
  | [] => []
  | ⟨q, e⟩ :: rest => ⟨q, e.renumber ρ⟩ :: Sequence.renumber ρ rest
termination_by structural s => s

/-- The pattern with other numbers for the symbols in it. -/
def Pattern.renumber (ρ : ℕ → ℕ) : Pattern → Pattern
  | [] => []
  | s :: rest => Sequence.renumber ρ s :: Pattern.renumber ρ rest
termination_by structural p => p

end

/-- The item with other numbers for the symbols in it. -/
def Item.renumber (ρ : ℕ → ℕ) (it : Item) : Item := ⟨it.quantifier, it.element.renumber ρ⟩

section

variable (ρ : ℕ → ℕ)

theorem Sequence.renumber_eq_map (s : Sequence) :
    Sequence.renumber ρ s = s.map (Item.renumber ρ) := by
  induction s with
  | nil => rfl
  | cons it s ih =>
    obtain ⟨q, e⟩ := it
    rw [Sequence.renumber, ih]
    rfl

theorem Pattern.renumber_eq_map (p : Pattern) :
    Pattern.renumber ρ p = p.map (Sequence.renumber ρ) := by
  induction p with
  | nil => rfl
  | cons s p ih => rw [Pattern.renumber, ih, List.map_cons]

end

/-! ## Languages -/

section

variable {α : Type*} (of : Atom → Language α) (ρ : ℕ → ℕ)

mutual

theorem Element.language_renumber : ∀ e : Element,
    (e.renumber ρ).language of = e.language fun a => of (a.renumber ρ)
  | .symbol _ => rfl
  | .literal _ => rfl
  | .oneOf members => by
    ext w
    simp [Element.renumber, Element.mem_language_oneOf]
  | .any => rfl
  | .group p => Pattern.language_renumber p

theorem Sequence.language_renumber : ∀ s : Sequence,
    Sequence.language of (Sequence.renumber ρ s) =
      Sequence.language (fun a => of (a.renumber ρ)) s
  | [] => rfl
  | ⟨q, e⟩ :: rest => by
    rw [Sequence.renumber, Sequence.language, Sequence.language, e.language_renumber,
      Sequence.language_renumber rest]

/-- The words of a renumbered pattern are those of the pattern, if each symbol means what its new
number means. -/
theorem Pattern.language_renumber : ∀ p : Pattern,
    Pattern.language of (Pattern.renumber ρ p) = Pattern.language (fun a => of (a.renumber ρ)) p
  | [] => rfl
  | s :: rest => by
    rw [Pattern.renumber, Pattern.language, Pattern.language, Sequence.language_renumber s,
      Pattern.language_renumber rest]

end

variable {of} in
/-- The words of a well-formed pattern depend only on what the symbols in range mean. -/
theorem Pattern.WellFormed.language_congr {n : ℕ} {p : Pattern} (h : p.WellFormed n)
    {of' : Atom → Language α} (hof : ∀ a, a.InRange n → of a = of' a) :
    p.language of = p.language of' := by
  have hprod : ∀ atoms ∈ p.language Atom.alone, atoms.map of = atoms.map of' := by
    intro atoms hatoms
    refine List.map_congr_left fun a ha => hof a ?_
    exact Pattern.inRange_of_mem_language p h.2 atoms hatoms a ha
  ext w
  rw [Pattern.language_eq_substitute of, Pattern.language_eq_substitute of']
  constructor
  · rintro ⟨atoms, hatoms, hw⟩
    exact ⟨atoms, hatoms, hprod atoms hatoms ▸ hw⟩
  · rintro ⟨atoms, hatoms, hw⟩
    exact ⟨atoms, hatoms, hprod atoms hatoms ▸ hw⟩

end

namespace Pattern

/-- The token with another number for its symbol. -/
def Token.renumber (ρ : ℕ → ℕ) : Token → Token
  | .char c i => .char c (i.map ρ)
  | .escape e => .escape e
  | .malformed e => .malformed e

variable {ρ : ℕ → ℕ}

section

variable (t : Token)

@[simp] theorem Token.lead_renumber : (t.renumber ρ).lead = t.lead := by cases t <;> rfl

@[simp] theorem Token.isMark_renumber (c : Char) : (t.renumber ρ).isMark c = t.isMark c := by
  cases t <;> rfl

@[simp] theorem Token.isDigit_renumber : (t.renumber ρ).isDigit = t.isDigit := by cases t <;> rfl

end

/-! ## Bounds and openings -/

/-- What has been read, and the tokens after it with other numbers for their symbols. -/
def renumberRest {α : Type} (ρ : ℕ → ℕ) (read : α × List Token) : α × List Token :=
  (read.1, read.2.map (Token.renumber ρ))

section

variable (ts : List Token)

theorem readNumber_renumber :
    Bounds.readNumber (ts.map (Token.renumber ρ)) =
      (Bounds.readNumber ts).map (renumberRest ρ) := by
  have hdigit : Token.isDigit ∘ Token.renumber ρ = Token.isDigit := funext Token.isDigit_renumber
  have hvalue (us : List Token) :
      Bounds.valueOf (us.map (Token.renumber ρ)) = Bounds.valueOf us := by
    simp [Bounds.valueOf, List.foldl_map]
  simp only [Bounds.readNumber, List.takeWhile_map, List.dropWhile_map, hdigit, hvalue,
    List.isEmpty_map]
  split
  · rfl
  · split <;> rfl

theorem expect_renumber (c : Char) :
    Bounds.expect c (ts.map (Token.renumber ρ)) =
      (Bounds.expect c ts).map (List.map (Token.renumber ρ)) := by
  cases ts with
  | nil => rfl
  | cons t ts =>
    rw [List.map_cons, Bounds.expect, Bounds.expect, Token.isMark_renumber, Token.lead_renumber]
    split <;> rfl

theorem read_renumber :
    Bounds.read (ts.map (Token.renumber ρ)) = (Bounds.read ts).map (renumberRest ρ) := by
  unfold Bounds.read
  rw [readNumber_renumber]
  rcases Bounds.readNumber ts with e | ⟨first, ts⟩
  · rfl
  have hclose : (ts.map (Token.renumber ρ)).head?.any (·.isMark '\x7d') =
      ts.head?.any (·.isMark '\x7d') := by
    cases ts <;> simp
  simp only [Except.map, bind, Except.bind, renumberRest, hclose, expect_renumber, ← List.map_tail]
  split
  · cases first <;> rfl
  rcases Bounds.expect ',' ts with e | ts
  · rfl
  simp only [readNumber_renumber]
  rcases Bounds.readNumber ts with e | ⟨second, ts⟩
  · rfl
  simp only [Except.map, renumberRest, expect_renumber]
  rcases Bounds.expect '\x7d' ts with e | ts
  · rfl
  cases Bounds.ofPair first second <;> rfl

theorem readOpening_renumber :
    readOpening (ts.map (Token.renumber ρ)) =
      (readOpening ts).map (List.map (Token.renumber ρ)) := by
  cases ts with
  | nil => rfl
  | cons t ts =>
    rw [List.map_cons, readOpening, readOpening, Token.isMark_renumber]
    split
    · exact expect_renumber ts ':'
    · rfl

end

/-! ## Classes -/

namespace CharClass

/-- The part with another number for its symbol. -/
def Part.renumber (ρ : ℕ → ℕ) : Part → Part
  | .single c alone => .single c (alone.renumber ρ)
  | .close => .close
  | .set members => .set members
  | .wrong e => .wrong e

theorem renumber_atomOf (c : Char) (i : Option ℕ) :
    (atomOf c i).renumber ρ = atomOf c (i.map ρ) := by
  cases i <;> rfl

theorem ofToken_renumber (t : Token) :
    Part.ofToken (t.renumber ρ) = (Part.ofToken t).renumber ρ := by
  cases t with
  | char c i =>
    by_cases hc : c = ']'
    · simp [Token.renumber, Part.ofToken, hc, Part.renumber]
    · simp [Token.renumber, Part.ofToken, hc, Part.renumber, renumber_atomOf]
  | escape e => cases e <;> rfl
  | malformed e => rfl

theorem startsRange_renumber (ts : List Token) :
    startsRange (ts.map (Token.renumber ρ)) = startsRange ts := by
  rcases ts with _ | ⟨t, _ | ⟨u, ts⟩⟩
  · rfl
  · rfl
  · simp [startsRange]

/-- The members that have been read with other numbers, and the tokens after them. -/
def renumberMembers (ρ : ℕ → ℕ) (read : List Atom × List Token) : List Atom × List Token :=
  renumberRest ρ (read.1.map (Atom.renumber ρ), read.2)

theorem map_literal_renumber (cs : List Char) :
    (cs.map Atom.literal).map (Atom.renumber ρ) = cs.map Atom.literal := by
  rw [List.map_map]
  rfl

theorem after_renumber (members : List Atom) (r : Except Error (List Atom × List Token)) :
    after (members.map (Atom.renumber ρ)) (r.map (renumberMembers ρ)) =
      (after members r).map (renumberMembers ρ) := by
  rcases r with e | ⟨following, rest⟩
  · rfl
  · simp [after, Except.map, renumberMembers, renumberRest]

theorem readMembers_renumber (ts : List Token) :
    readMembers (ts.map (Token.renumber ρ)) = (readMembers ts).map (renumberMembers ρ) := by
  have hpart {t : Token} {x : Part} (ht : Part.ofToken t = x) :
      Part.ofToken (t.renumber ρ) = x.renumber ρ := by rw [ofToken_renumber, ht]
  have hrange (lo hi : Char) : (range lo hi).map (Atom.renumber ρ) = range lo hi :=
    map_literal_renumber _
  fun_induction readMembers ts with
  | case1 => rfl
  | case2 t rest e ht => exact readMembers_wrong (hpart ht)
  | case3 t rest ht => exact readMembers_close (hpart ht)
  | case4 t rest cs ht hstarts =>
    rw [List.map_cons, readMembers_set (hpart ht), startsRange_renumber, if_pos hstarts]
    rfl
  | case5 t rest cs ht hstarts ih =>
    rw [List.map_cons, readMembers_set (hpart ht), startsRange_renumber, if_neg hstarts, ih,
      ← after_renumber, map_literal_renumber]
  | case6 t lo alone ht => exact readMembers_single_nil (hpart ht)
  | case7 t lo alone ht u hu => exact readMembers_hyphen_nil (hpart ht) (by simpa using hu)
  | case8 t lo alone ht u hu v beyond e hv =>
    exact readMembers_hyphen_wrong (hpart ht) (by simpa using hu) (hpart hv)
  | case9 t lo alone ht u hu v beyond hv =>
    exact readMembers_hyphen_close (hpart ht) (by simpa using hu) (hpart hv)
  | case10 t lo alone ht u hu v beyond cs hv =>
    exact readMembers_hyphen_set (hpart ht) (by simpa using hu) (hpart hv)
  | case11 t lo alone ht u hu v beyond hi other hv hlt =>
    have hu' : (u.renumber ρ).isMark '-' = true := by simpa using hu
    exact (readMembers_range (hpart ht) hu' (hpart hv)).trans (if_pos hlt)
  | case12 t lo alone ht u hu v beyond hi other hv hlt ih =>
    have hu' : (u.renumber ρ).isMark '-' = true := by simpa using hu
    refine (readMembers_range (hpart ht) hu' (hpart hv)).trans ?_
    rw [if_neg hlt, ih, ← after_renumber, hrange]
  | case13 t lo alone ht u beyond hu ih =>
    have hu' : (u.renumber ρ).isMark '-' = false := by simpa using hu
    refine (readMembers_single (hpart ht) hu').trans ?_
    rw [← List.map_cons, ih]
    exact after_renumber [alone] _

end CharClass

section

variable (hρ : Function.Injective ρ)

include hρ

theorem renumber_injective : Function.Injective (Atom.renumber ρ) := by
  intro a b h
  cases a with
  | symbol i =>
    cases b with
    | symbol j => exact congrArg Atom.symbol (hρ (Atom.symbol.inj h))
    | literal d => cases h
  | literal c =>
    cases b with
    | symbol j => cases h
    | literal d => exact h

/-- Different atoms stay different, so the same occurrences are first ones. -/
theorem firstOccurrences_renumber (members : List Atom) :
    firstOccurrences (members.map (Atom.renumber ρ)) =
      (firstOccurrences members).map (Atom.renumber ρ) := by
  have hinj := renumber_injective hρ
  rw [firstOccurrences_eq_eraseDups, firstOccurrences_eq_eraseDups]
  induction hlength : members.length using Nat.strong_induction_on generalizing members with
  | _ n ih =>
    cases members with
    | nil => rfl
    | cons a members =>
      have hshorter := List.length_filter_le (fun b => !b == a) members
      rw [List.length_cons] at hlength
      rw [List.map_cons, List.eraseDups_cons, List.eraseDups_cons, List.map_cons, List.filter_map,
        ← ih _ (by omega) _ rfl]
      simp only [Function.comp_def, hinj.beq_eq]

theorem readClass_renumber (ts : List Token) :
    readClass (ts.map (Token.renumber ρ)) =
      (readClass ts).map (CharClass.renumberMembers ρ) := by
  have hnegation : (ts.map (Token.renumber ρ)).head?.any (·.isMark '^') =
      ts.head?.any (·.isMark '^') := by
    cases ts <;> simp
  rw [readClass, readClass, hnegation, CharClass.readMembers_renumber]
  split
  · rfl
  rcases CharClass.readMembers ts with e | ⟨members, rest⟩
  · rfl
  simp only [Except.map, bind, Except.bind, CharClass.renumberMembers, renumberRest,
    List.isEmpty_map]
  split
  · rfl
  · rw [firstOccurrences_renumber hρ]

end

/-! ## Lexemes -/

/-- The lexeme with other numbers for its symbols. -/
def Lexeme.renumber (ρ : ℕ → ℕ) : Lexeme → Lexeme
  | .element e => .element (e.renumber ρ)
  | .opening => .opening
  | .closing => .closing
  | .bar => .bar
  | .repetition mark q => .repetition mark q
  | .malformed e => .malformed e

theorem alone?_renumber (t : Token) :
    (t.renumber ρ).alone? = t.alone?.map (Lexeme.renumber ρ) := by
  cases t with
  | char c i =>
    by_cases hc : c ∈ marks
    · simp only [marks, List.mem_cons, List.not_mem_nil, or_false] at hc
      rcases hc with rfl | rfl | rfl | rfl | rfl | rfl | rfl | rfl | rfl <;> rfl
    · rw [Token.renumber, Token.alone?_char hc, Token.alone?_char hc,
        ← CharClass.renumber_atomOf]
      cases i <;> rfl
  | escape e =>
    cases e with
    | char c => rfl
    | set cs =>
      have hset := CharClass.map_literal_renumber (ρ := ρ) cs
      simp [Token.renumber, Token.alone?, Lexeme.renumber, Element.renumber, hset]
  | malformed e => rfl

/-- Renumbered tokens are the renumbered lexemes. -/
theorem lexemes_renumber (hρ : Function.Injective ρ) (ts : List Token) :
    lexemes (ts.map (Token.renumber ρ)) = (lexemes ts).map (Lexeme.renumber ρ) := by
  induction ts using lexemesInduction with
  | nil => simp only [List.map_nil, lexemes_nil]
  | malformed e rest =>
    simp only [List.map_cons, Token.renumber, lexemes_malformed]
    rfl
  | alone t x rest hx ih =>
    have hx' : (t.renumber ρ).alone? = some (x.renumber ρ) := by rw [alone?_renumber, hx]; rfl
    rw [List.map_cons, lexemes_alone hx', lexemes_alone hx, ih, List.map_cons]
  | opening i rest ih =>
    rw [List.map_cons, Token.renumber, lexemes_opening, lexemes_opening, readOpening_renumber]
    cases hread : readOpening rest with
    | error e => rfl
    | ok beyond => simp only [Except.map, ih beyond hread, List.map_cons, Lexeme.renumber]
  | charClass i rest ih =>
    rw [List.map_cons, Token.renumber, lexemes_class, lexemes_class, readClass_renumber hρ]
    cases hread : readClass rest with
    | error e => rfl
    | ok read =>
      obtain ⟨members, beyond⟩ := read
      simp only [Except.map, CharClass.renumberMembers, renumberRest, ih members beyond hread,
        List.map_cons, Lexeme.renumber, Element.renumber]
  | braces i rest ih =>
    rw [List.map_cons, Token.renumber, lexemes_braces, lexemes_braces, read_renumber]
    cases hread : Bounds.read rest with
    | error e => rfl
    | ok read =>
      obtain ⟨q, beyond⟩ := read
      simp only [Except.map, renumberRest, ih q beyond hread, List.map_cons, Lexeme.renumber]

/-! ## Drafts -/

/-- The layer with other numbers for its symbols. -/
def Layer.renumber (ρ : ℕ → ℕ) (l : Layer) : Layer :=
  ⟨l.complete.map (Sequence.renumber ρ), l.items.map (Item.renumber ρ)⟩

/-- The draft with other numbers for its symbols. -/
def Draft.renumber (ρ : ℕ → ℕ) (d : Draft) : Draft :=
  ⟨d.layer.renumber ρ, d.around.map (Layer.renumber ρ), d.slot⟩

theorem renumber_requantify (l : Layer) (q : Quantifier) :
    (l.renumber ρ).requantify q = (l.requantify q).renumber ρ := by
  obtain ⟨complete, items⟩ := l
  cases items <;> rfl

theorem renumber_toPattern (l : Layer) :
    (l.renumber ρ).toPattern = Pattern.renumber ρ l.toPattern := by
  simp [Layer.toPattern, Layer.renumber, Pattern.renumber_eq_map, Sequence.renumber_eq_map]

theorem renumber_nextAlternative (l : Layer) :
    (l.renumber ρ).nextAlternative = l.nextAlternative.renumber ρ := by
  simp [Layer.nextAlternative, Layer.renumber, Sequence.renumber_eq_map]

theorem step_renumber (limit : ℕ) (d : Draft) (x : Lexeme) :
    (d.renumber ρ).step limit (x.renumber ρ) = (d.step limit x).map (Draft.renumber ρ) := by
  obtain ⟨layer, around, slot⟩ := d
  cases x with
  | malformed e => rfl
  | element e => rfl
  | bar =>
    simp only [Lexeme.renumber, Draft.step, Draft.renumber, renumber_nextAlternative]
    rfl
  | repetition mark q =>
    cases slot with
    | closed => rfl
    | bare =>
      cases q with
      | error e => rfl
      | ok q =>
        simp only [Lexeme.renumber, Draft.step, Draft.renumber, Except.map, renumber_requantify]
    | quantified =>
      simp only [Lexeme.renumber, Draft.step, Draft.renumber]
      split <;> rfl
  | opening =>
    simp only [Lexeme.renumber, Draft.step, Draft.renumber, List.length_map]
    split <;> rfl
  | closing =>
    cases around with
    | nil => rfl
    | cons outer around =>
      simp only [Lexeme.renumber, Draft.step, Draft.renumber, List.map_cons, renumber_toPattern]
      rfl

theorem foldlM_step_renumber (limit : ℕ) (ls : List Lexeme) (d : Draft) :
    (ls.map (Lexeme.renumber ρ)).foldlM (Draft.step limit) (d.renumber ρ) =
      (ls.foldlM (Draft.step limit) d).map (Draft.renumber ρ) := by
  induction ls generalizing d with
  | nil => rfl
  | cons x ls ih =>
    rw [List.map_cons, List.foldlM_cons, List.foldlM_cons, step_renumber]
    cases d.step limit x with
    | error e => rfl
    | ok d => exact ih d

/-- Tokens with other numbers for their symbols are read as the pattern with these numbers, or have
the same mistake. -/
theorem ofTokens_renumber (hρ : Function.Injective ρ) (limit : ℕ) (ts : List Token) :
    ofTokens limit (ts.map (Token.renumber ρ)) =
      (ofTokens limit ts).map (Pattern.renumber ρ) := by
  have hempty : Draft.empty.renumber ρ = Draft.empty := rfl
  rw [ofTokens, ofTokens, lexemes_renumber hρ, ofLexemes, ofLexemes]
  nth_rewrite 1 [← hempty]
  rw [foldlM_step_renumber]
  cases (lexemes ts).foldlM (Draft.step limit) Draft.empty with
  | error e => rfl
  | ok d =>
    simp only [Except.map, bind, Except.bind, Draft.finish, Draft.renumber, List.isEmpty_map,
      renumber_toPattern]
    split <;> rfl

end Pattern

end Confection
