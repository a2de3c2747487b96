import Mathlib
import Confection.Proofs.Pattern.Following
import Confection.Proofs.Pattern.Repetitions

/-!
# Patterns put together

Patterns are put together by putting their texts together: with a bar between them the alternatives
of the one come after those of the other, without it the last alternative of the one goes on with the
first of the other, and in parentheses a pattern becomes a group, with whatever quantifier is written
after it (`parse_composed`).

## Shape of the proof

The lexemes of the whole are those of the parts, `lexemes_tokens_append`.  What is read after a
complete pattern goes on from its draft, which `Draft.Onto` describes, and what is read in a group is
read with one layer more around every draft, `Draft.within`.
-/

namespace Confection.Pattern

variable {symbols : List Char} {limit : ℕ} {t u : Text} {p q : Pattern} {d d' : Draft}

/-- A text is read as a pattern if no group is open after it. -/
theorem parse_eq_ok_iff : parse t symbols limit = .ok p ↔
    ∃ l slot, (lexemes (tokens symbols t)).foldlM (Draft.step limit) .empty = .ok ⟨l, [], slot⟩ ∧
      l.toPattern = p := by
  constructor
  · intro h
    obtain ⟨⟨l, around, slot⟩, hrun, hfinish⟩ := bind_eq_ok.1 h
    obtain ⟨rfl, hp⟩ := Draft.finish_eq_ok_iff.1 hfinish
    exact ⟨l, slot, hrun, hp⟩
  · rintro ⟨l, slot, hrun, hp⟩
    exact bind_eq_ok.2 ⟨_, hrun, Draft.finish_eq_ok_iff.2 ⟨rfl, hp⟩⟩

theorem ne_nil_of_parse (h : parse t symbols limit = .ok p) : p ≠ [] := by
  obtain ⟨l, slot, -, rfl⟩ := parse_eq_ok_iff.1 h
  exact l.toPattern_ne_nil

/-- The rest of a text is read from the draft that is reached before it. -/
theorem run_tokens_append
    (h : (lexemes (tokens symbols t)).foldlM (Draft.step limit) d = .ok d')
    (hclosed : d'.around = []) (u : Text) :
    (lexemes (tokens symbols (t ++ u))).foldlM (Draft.step limit) d =
      (lexemes (tokens symbols u)).foldlM (Draft.step limit) d' := by
  rw [lexemes_tokens_append h hclosed, List.foldlM_append, h]
  rfl

/-! ## One after the other -/

/-- A text that is a pattern by itself goes on with the pattern before it. -/
theorem parse_append_of_run {l : Layer} {slot : Slot}
    (h : (lexemes (tokens symbols t)).foldlM (Draft.step limit) .empty = .ok ⟨l, [], slot⟩)
    (hq : parse u symbols limit = .ok q) :
    parse (t ++ u) symbols limit = .ok (l.toPattern.join q) := by
  obtain ⟨d, hrun, hfinish⟩ := bind_eq_ok.1 hq
  obtain ⟨d', hrun', hd⟩ := (Draft.Onto.empty l slot).run hrun
  exact bind_eq_ok.2 ⟨d', (run_tokens_append h rfl u).trans hrun', hd.finish hfinish⟩

theorem parse_append (hp : parse t symbols limit = .ok p) (hq : parse u symbols limit = .ok q) :
    parse (t ++ u) symbols limit = .ok (p.join q) := by
  obtain ⟨l, slot, hrun, rfl⟩ := parse_eq_ok_iff.1 hp
  exact parse_append_of_run hrun hq

theorem parse_bar (hp : parse t symbols limit = .ok p) (hq : parse u symbols limit = .ok q) :
    parse (t ++ '|' :: u) symbols limit = .ok (p ++ q) := by
  obtain ⟨l, slot, hrun, rfl⟩ := parse_eq_ok_iff.1 hp
  have hbar : (lexemes (tokens symbols (t ++ ['|']))).foldlM (Draft.step limit) .empty =
      .ok ⟨l.nextAlternative, [], .closed⟩ := by
    rw [run_tokens_append hrun rfl, tokens_char (by decide), tokens_nil, lexemes_alone rfl,
      lexemes_nil]
    rfl
  have hjoin : l.nextAlternative.toPattern.join q = l.toPattern ++ q := by
    obtain ⟨s, q, rfl⟩ := List.exists_cons_of_ne_nil (ne_nil_of_parse hq)
    have hlayer : l.nextAlternative.toPattern = l.toPattern ++ [[]] := by
      simp [Layer.toPattern, Layer.nextAlternative]
    rw [hlayer, join_append_singleton, List.nil_append]
  rw [List.append_cons, parse_append_of_run hbar hq, hjoin]

/-! ## Groups -/

/-- The draft with more layers around it. -/
def Draft.within (d : Draft) (outer : List Layer) : Draft := { d with around := d.around ++ outer }

/-- What is read in a group is read in the same way further in. -/
theorem Draft.Step.within {x : Lexeme} (h : d.Step limit x d') (outer : List Layer) :
    (d.within outer).Step (limit + outer.length) x (d'.within outer) := by
  cases h with
  | element e => exact .element e
  | repetition hslot => exact .repetition hslot
  | lazy hslot => exact .lazy hslot
  | bar => exact .bar
  | opening hdepth =>
    refine .opening ?_
    rw [Draft.within, List.length_append]
    exact Nat.add_lt_add_right hdepth _
  | closing haround => exact .closing (by rw [Draft.within, haround, List.cons_append])

theorem Draft.run_within {ls : List Lexeme} (h : ls.foldlM (Draft.step limit) d = .ok d')
    (outer : List Layer) :
    ls.foldlM (Draft.step (limit + outer.length)) (d.within outer) = .ok (d'.within outer) := by
  induction ls generalizing d with
  | nil => cases h; rfl
  | cons x ls ih =>
    obtain ⟨d₁, hstep, h⟩ := bind_eq_ok.1 h
    exact bind_eq_ok.2 ⟨_, step_eq_ok_iff.2 ((step_eq_ok_iff.1 hstep).within outer), ih h⟩

/-- A pattern does not start with a quantifier, so its parentheses need no mark. -/
theorem readOpening_tokens (hp : parse t symbols limit = .ok p) (u : Text) :
    readOpening (tokens symbols (t ++ ')' :: u)) = .ok (tokens symbols (t ++ ')' :: u)) := by
  obtain ⟨l, slot, hrun, -⟩ := parse_eq_ok_iff.1 hp
  have hmark : ∀ tok ∈ (tokens symbols (t ++ ')' :: u)).head?, tok.isMark '?' = false := by
    rw [tokens_append_of_run hrun]
    cases htokens : tokens symbols t with
    | nil => simp [tokens_char, Token.isMark]
    | cons tok ts =>
      rw [htokens] at hrun
      cases tok with
      | char c i =>
        suffices hc : c ≠ '?' by simpa [Token.isMark] using hc
        rintro rfl
        rw [lexemes_alone rfl] at hrun
        cases hrun
      | escape | malformed => simp [Token.isMark]
  cases htokens : tokens symbols (t ++ ')' :: u) with
  | nil => rfl
  | cons tok ts =>
    rw [readOpening, if_neg]
    simp [hmark tok (by rw [htokens]; rfl)]

/-- The lexemes of a group, from those of the pattern in it. -/
theorem lexemes_group (hp : parse t symbols limit = .ok p) (isMarked : Bool) (u : Text) :
    lexemes (tokens symbols ((if isMarked then ['(', '?', ':'] else ['(']) ++ t ++ ')' :: u)) =
      .opening :: (lexemes (tokens symbols t) ++ .closing :: lexemes (tokens symbols u)) := by
  obtain ⟨l, slot, hrun, -⟩ := parse_eq_ok_iff.1 hp
  have hbody : lexemes (tokens symbols (t ++ ')' :: u)) =
      lexemes (tokens symbols t) ++ .closing :: lexemes (tokens symbols u) := by
    rw [lexemes_tokens_append hrun rfl, tokens_char (by decide), lexemes_alone rfl]
  rw [List.append_assoc, ← hbody]
  cases isMarked with
  | false =>
    show lexemes (tokens symbols ('(' :: (t ++ ')' :: u))) = _
    rw [tokens_char (by decide), lexemes_opening, readOpening_tokens hp]
  | true =>
    show lexemes (tokens symbols ('(' :: '?' :: ':' :: (t ++ ')' :: u))) = _
    rw [tokens_char (by decide), tokens_char (by decide), tokens_char (by decide), lexemes_opening]
    rfl

/-- A pattern in parentheses is a group, and what is written after it is its quantifier. -/
theorem parse_group (hp : parse t symbols limit = .ok p) (isMarked : Bool) (k : Suffix) :
    parse ((if isMarked then ['(', '?', ':'] else ['(']) ++ t ++ ')' :: k.text) symbols (limit + 1) =
      .ok [[⟨k.quantifier, .group p⟩]] := by
  obtain ⟨l, slot, hrun, rfl⟩ := parse_eq_ok_iff.1 hp
  have hinside := Draft.run_within hrun [.empty]
  obtain ⟨slot', hsuffix⟩ := k.run symbols (limit + 1) .empty (.group l.toPattern) []
  refine parse_eq_ok_iff.2 ⟨Layer.empty.push ⟨k.quantifier, .group l.toPattern⟩, slot', ?_, rfl⟩
  rw [lexemes_group hp isMarked, List.foldlM_cons,
    Draft.step_eq_ok_iff.2 (.opening (Nat.succ_pos limit))]
  show (lexemes (tokens symbols t) ++ _).foldlM (Draft.step (limit + 1))
    (Draft.empty.within [.empty]) = _
  rw [List.foldlM_append]
  exact bind_eq_ok.2 ⟨_, hinside, bind_eq_ok.2 ⟨_, rfl, hsuffix⟩⟩

/-- A text that is one element makes a pattern with whatever quantifier is written after it. -/
theorem parse_element {e : Element}
    (h : ∀ u, lexemes (tokens symbols (t ++ u)) = .element e :: lexemes (tokens symbols u))
    (k : Suffix) : parse (t ++ k.text) symbols limit = .ok [[⟨k.quantifier, e⟩]] := by
  obtain ⟨slot, hsuffix⟩ := k.run symbols limit .empty e []
  refine parse_eq_ok_iff.2 ⟨Layer.empty.push ⟨k.quantifier, e⟩, slot, ?_, rfl⟩
  rw [h]
  exact bind_eq_ok.2 ⟨_, rfl, hsuffix⟩

/-- The ways to put patterns together, on texts and on patterns. -/
theorem parse_composed (hp : parse t symbols limit = .ok p) (hq : parse u symbols limit = .ok q) :
    parse (t ++ '|' :: u) symbols limit = .ok (p ++ q) ∧
    (∃ before last first after, p = before ++ [last] ∧ q = first :: after ∧
      parse (t ++ u) symbols limit = .ok (before ++ (last ++ first) :: after)) ∧
    ∀ k : Suffix,
      parse ('(' :: t ++ ')' :: k.text) symbols (limit + 1) =
        .ok [[⟨k.quantifier, .group p⟩]] ∧
      parse ('(' :: '?' :: ':' :: t ++ ')' :: k.text) symbols (limit + 1) =
        .ok [[⟨k.quantifier, .group p⟩]] := by
  refine ⟨parse_bar hp hq, ?_, fun k => ⟨parse_group hp false k, parse_group hp true k⟩⟩
  have hlast := List.dropLast_append_getLast (ne_nil_of_parse hp)
  obtain ⟨first, after, rfl⟩ := List.exists_cons_of_ne_nil (ne_nil_of_parse hq)
  refine ⟨_, _, first, after, hlast.symm, rfl, ?_⟩
  rw [parse_append hp hq, ← join_append_singleton, hlast]

/-- The seams lie next to a quantifier, an escape, a class and an empty alternative. -/
theorem parse_composed_quantified :
    let p : Pattern := [[], [⟨.zeroOrMore, .symbol 0⟩]]
    let q : Pattern := [[⟨.once, .oneOf [.literal '-']⟩], [⟨.once, .literal '?'⟩]]
    parse "|a\x7b,\x7d".toList ['a'] 0 = .ok p ∧ parse "[-]|\\?".toList ['a'] 0 = .ok q ∧
      parse "|a\x7b,\x7d|[-]|\\?".toList ['a'] 0 = .ok (p ++ q) ∧
      parse "|a\x7b,\x7d[-]|\\?".toList ['a'] 0 = .ok [[], [⟨.zeroOrMore, .symbol 0⟩,
        ⟨.once, .oneOf [.literal '-']⟩], [⟨.once, .literal '?'⟩]] ∧
      parse "(?:|a\x7b,\x7d)\x7b02,3\x7d?".toList ['a'] 1 = .ok [[⟨.between 2 3, .group p⟩]] := by
  intro p q
  let k : Suffix := .repeated (.between ⟨"02".toList, by decide, List.all_eq_true.1 rfl, by decide⟩
    ⟨"3".toList, by decide, List.all_eq_true.1 rfl, by decide⟩ (by decide)) true
  have hp : parse "|a\x7b,\x7d".toList ['a'] 0 = .ok p := by cbv
  have hq : parse "[-]|\\?".toList ['a'] 0 = .ok q := by cbv
  obtain ⟨hbar, ⟨before, last, first, after, hlast, hfirst, hjoin⟩, hgroup⟩ := parse_composed hp hq
  refine ⟨hp, hq, hbar, ?_, (hgroup k).2⟩
  have hlast : [[]] ++ [[⟨.zeroOrMore, .symbol 0⟩]] = before ++ [last] := hlast
  obtain ⟨rfl, hlast⟩ := List.append_inj' hlast rfl
  cases hlast
  obtain ⟨rfl, rfl⟩ := List.cons.inj hfirst
  exact hjoin

end Confection.Pattern
