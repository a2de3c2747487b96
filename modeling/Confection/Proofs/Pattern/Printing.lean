import Confection.Proofs.Pattern.Classes
import Confection.Proofs.Pattern.Composition
import Confection.Proofs.Pattern.Nesting

/-!
# Writing a pattern down

`Pattern.written` is a text for every pattern: a symbol as its letter, a literal by its code where
two hexadecimal digits are enough for it and as itself elsewhere, and everything else with the marks
of the language.  A well-formed pattern is read back from it (`parse_written`), so every one of them
has a text.

## Shape of the proof

Texts of parts are put together just as in `parse_append`, `parse_bar` and `parse_group`, so what is
left are single elements.  An atom is written as one token, in a class and outside.
-/

namespace Confection

/-- The text of a quantifier. -/
def Quantifier.written : Quantifier → Text
  | once => []
  | optional => ['?']
  | zeroOrMore => ['*']
  | oneOrMore => ['+']
  | exactly n => '\x7b' :: (Nat.toDigits 10 n ++ ['\x7d'])
  | atLeast n => '\x7b' :: (Nat.toDigits 10 n ++ [',', '\x7d'])
  | between n m => '\x7b' :: (Nat.toDigits 10 n ++ ',' :: Nat.toDigits 10 m ++ ['\x7d'])

section

variable (symbols : List Char)

/-- The text of an atom: the letter of a symbol, and a literal by its code or as itself. -/
def Atom.written : Atom → Text
  | .symbol i => symbols[i]?.toList
  | .literal c => if c.toNat < 256 then '\\' :: 'x' :: Text.twoHexDigits c.toNat else [c]

mutual

/-- The text of an element. -/
def Element.written : Element → Text
  | .symbol i => Atom.written symbols (.symbol i)
  | .literal c => Atom.written symbols (.literal c)
  | .oneOf members => '[' :: (members.flatMap (Atom.written symbols) ++ [']'])
  | .any => ['.']
  | .group p => '(' :: (Pattern.written p ++ [')'])
termination_by structural e => e

/-- The text of a sequence: its items, one after the other. -/
def Sequence.written : Sequence → Text
  | [] => []
  | ⟨q, e⟩ :: rest => e.written ++ q.written ++ Sequence.written rest
termination_by structural s => s

/-- The text of a pattern: its alternatives, with bars between them. -/
def Pattern.written : Pattern → Text
  | [] => []
  | [s] => Sequence.written s
  | s :: rest => Sequence.written s ++ '|' :: Pattern.written rest
termination_by structural p => p

end

end

namespace Pattern

/-! ## Quantifiers -/

/-- The text of a quantifier is one of the ways to write it. -/
theorem exists_suffix {q : Quantifier} (hfits : q.Fits) (hordered : q.Ordered) :
    ∃ k : Suffix, k.text = q.written ∧ k.quantifier = q := by
  obtain ⟨hmin, hmax⟩ := hfits
  have hrepeated {r : Repetition} (htext : r.text = q.written) (hq : r.quantifier = q) :
      ∃ k : Suffix, k.text = q.written ∧ k.quantifier = q :=
    ⟨.repeated r false, by rw [← htext]; exact List.append_nil _, hq⟩
  cases q with
  | once => exact ⟨.nothing, rfl, rfl⟩
  | optional => exact hrepeated (r := .optional) rfl rfl
  | zeroOrMore => exact hrepeated (r := .zeroOrMore) rfl rfl
  | oneOrMore => exact hrepeated (r := .oneOrMore) rfl rfl
  | exactly n =>
    have hn : n < numberBound := hmin
    exact hrepeated (r := .exactly (.ofNat n hn)) rfl (congrArg _ (Numeral.value_ofNat hn))
  | atLeast n =>
    have hn : n < numberBound := hmin
    exact hrepeated (r := .atLeast (.ofNat n hn)) rfl (congrArg _ (Numeral.value_ofNat hn))
  | between n m =>
    have hn : n < numberBound := hmin
    have hm : m < numberBound := hmax m rfl
    have hle : (Numeral.ofNat n hn).value ≤ (Numeral.ofNat m hm).value := by
      rw [Numeral.value_ofNat, Numeral.value_ofNat]
      exact hordered m rfl
    exact hrepeated (r := .between _ _ hle) rfl
      (congrArg₂ _ (Numeral.value_ofNat hn) (Numeral.value_ofNat hm))

/-! ## Atoms -/

theorem notMem_signs_of_isAlpha {c : Char} (hc : c.isAlpha = true) : c ∉ '\\' :: signs := by
  intro h
  have hall : ('\\' :: signs).all (!·.isAlpha) = true := rfl
  simpa [hc] using List.all_eq_true.1 hall c h

theorem notMem_signs_of_le {c : Char} (hc : 256 ≤ c.toNat) : c ∉ '\\' :: signs := by
  intro h
  have hall : ('\\' :: signs).all (·.toNat < 256) = true := rfl
  exact hc.not_gt (of_decide_eq_true (List.all_eq_true.1 hall c h))

theorem toNat_lt_of_isAlpha {c : Char} (hc : c.isAlpha = true) : c.toNat < 256 := by
  simp only [Char.isAlpha, Char.isUpper, Char.isLower, Bool.or_eq_true, Bool.and_eq_true,
    decide_eq_true_eq, ge_iff_le, UInt32.le_iff_toNat_le] at hc
  have hle : c.toNat ≤ 122 := hc.elim (fun h => h.2.trans (by decide)) (·.2)
  omega

/-- The token that an atom is written with. -/
def atomWritten (symbols : List Char) : Atom → Written
  | .symbol i => .plain (symbols[i]?.getD ' ') (some i)
  | .literal c => if c.toNat < 256 then .escaped c else .plain c none

section

variable {symbols : List Char} {a : Atom}

theorem atom_atomWritten (symbols : List Char) (a : Atom) : (atomWritten symbols a).atom = a := by
  cases a with
  | symbol i => rfl
  | literal c =>
    rw [atomWritten]
    split <;> rfl

variable (hletters : ∀ c ∈ symbols, c.isAlpha = true) (ha : a.InRange symbols.length)

include hletters ha

/-- A character that is not escaped means nothing else. -/
theorem notMem_signs_of_atomWritten {c : Char} {i : Option ℕ}
    (h : atomWritten symbols a = .plain c i) : c ∉ '\\' :: signs := by
  cases a with
  | symbol k =>
    obtain ⟨rfl, -⟩ := Written.plain.inj h
    rw [List.getElem?_eq_getElem ha]
    exact notMem_signs_of_isAlpha (hletters _ (List.getElem_mem ha))
  | literal d =>
    rw [atomWritten] at h
    split at h
    · cases h
    · next hd =>
      obtain ⟨rfl, -⟩ := Written.plain.inj h
      exact notMem_signs_of_le (Nat.le_of_not_lt hd)

theorem inside_atomWritten : (atomWritten symbols a).Inside := by
  cases hwritten : atomWritten symbols a with
  | plain c i =>
    have hc := notMem_signs_of_atomWritten hletters ha hwritten
    exact ⟨fun h => hc (by rw [h]; decide), fun h => hc (by rw [h]; decide)⟩
  | escaped c => trivial

/-- Outside a class the token is an element. -/
theorem alone?_atomWritten : (atomWritten symbols a).token.alone? = some (.element a.toElement) := by
  have hatom := atom_atomWritten symbols a
  cases hwritten : atomWritten symbols a with
  | plain c i =>
    have hc := notMem_signs_of_atomWritten hletters ha hwritten
    rw [hwritten] at hatom
    rw [← hatom]
    exact Token.alone?_char (not_mem_marks_of_not_mem_signs fun h => hc (List.mem_cons_of_mem _ h)) i
  | escaped c =>
    rw [hwritten] at hatom
    rw [← hatom]
    rfl

/-- An atom is written as one token. -/
theorem tokens_atomWritten (hnodup : symbols.Nodup) (u : Text) :
    tokens symbols (a.written symbols ++ u) =
      (atomWritten symbols a).token :: tokens symbols u := by
  cases a with
  | symbol i =>
    have hi : i < symbols.length := ha
    have hindex : symbols.idxOf? symbols[i] = some i := by
      rw [List.idxOf?_eq_some_iff]
      exact ⟨hi, rfl, fun j hj heq => hj.ne (hnodup.getElem_inj_iff.1 heq)⟩
    have hne : symbols[i] ≠ '\\' := fun h =>
      notMem_signs_of_isAlpha (hletters _ (List.getElem_mem hi)) (by rw [h]; decide)
    rw [Atom.written, atomWritten, List.getElem?_eq_getElem hi]
    exact (tokens_char hne).trans (by rw [hindex]; rfl)
  | literal c =>
    rw [Atom.written, atomWritten]
    split
    · next hc => exact tokens_twoHexDigits hc
    · next hc =>
      have hle : 256 ≤ c.toNat := Nat.le_of_not_lt hc
      have hindex : symbols.idxOf? c = none :=
        List.idxOf?_eq_none_iff.2 fun h => hc (toNat_lt_of_isAlpha (hletters c h))
      have hne : c ≠ '\\' := fun h => notMem_signs_of_le hle (by rw [h]; decide)
      exact (tokens_char hne).trans (by rw [hindex]; rfl)

end

/-! ## Elements -/

section

variable {symbols : List Char} {limit : ℕ} (hletters : ∀ c ∈ symbols, c.isAlpha = true)
  (hnodup : symbols.Nodup)

include hletters hnodup

theorem lexemes_atomWritten {a : Atom} (ha : a.InRange symbols.length) (u : Text) :
    lexemes (tokens symbols (a.written symbols ++ u)) =
      .element a.toElement :: lexemes (tokens symbols u) := by
  rw [tokens_atomWritten hletters ha hnodup, lexemes_alone (alone?_atomWritten hletters ha)]

/-- The members of a class are clauses of one character each. -/
theorem tokens_flatMap_written {members : List Atom}
    (hmembers : ∀ a ∈ members, a.InRange symbols.length) (u : Text) :
    tokens symbols (members.flatMap (Atom.written symbols) ++ u) =
      (members.map (.lone <| atomWritten symbols ·)).flatMap Clause.tokens ++ tokens symbols u := by
  induction members with
  | nil => rfl
  | cons a members ih =>
    obtain ⟨ha, hmembers⟩ := List.forall_mem_cons.1 hmembers
    rw [List.flatMap_cons, List.append_assoc, tokens_atomWritten hletters ha hnodup, ih hmembers]
    rfl

theorem lexemes_oneOf_written {members : List Atom}
    (h : (Element.oneOf members).WellFormed symbols.length) (u : Text) :
    lexemes (tokens symbols ((Element.oneOf members).written symbols ++ u)) =
      .element (.oneOf members) :: lexemes (tokens symbols u) := by
  obtain ⟨hne, hdistinct, hmembers⟩ := h
  let clauses : List Clause := members.map (.lone <| atomWritten symbols ·)
  have hinside : ∀ cl ∈ clauses, cl.Inside := by
    intro cl hcl
    obtain ⟨a, ha, rfl⟩ := List.mem_map.1 hcl
    exact inside_atomWritten hletters (hmembers a ha)
  have hcaret : ∀ t ∈ (clauses.flatMap Clause.tokens).head?, t.isMark '^' = false := by
    obtain ⟨a, members, rfl⟩ := List.exists_cons_of_ne_nil hne
    intro t ht
    obtain rfl : (atomWritten symbols a).token = t := Option.some.inj ht
    cases hwritten : atomWritten symbols a with
    | plain c i =>
      refine beq_eq_false_iff_ne.2 fun hc => ?_
      exact notMem_signs_of_atomWritten hletters (hmembers a List.mem_cons_self) hwritten
        (by rw [hc]; decide)
    | escaped c => rfl
  have hdescending : clauses.findSome? Clause.descending? = none := by
    refine List.findSome?_eq_none_iff.2 fun cl hcl => ?_
    obtain ⟨a, -, rfl⟩ := List.mem_map.1 hcl
    rfl
  have hatoms : clauses.flatMap Clause.members = members := by
    rw [List.flatMap_map]
    simp [Clause.members, atom_atomWritten]
  have hclose : symbols.idxOf? ']' = none := by
    refine List.idxOf?_eq_none_iff.2 fun hmem => ?_
    cases hletters ']' hmem
  have htokens : tokens symbols ((Element.oneOf members).written symbols ++ u) =
      .char '[' (symbols.idxOf? '[') :: (clauses.flatMap Clause.tokens ++
        (plainTokens (classEnd false) ++ tokens symbols u)) := by
    rw [Element.written, List.cons_append, tokens_char (by decide), List.append_assoc,
      tokens_flatMap_written hletters hnodup hmembers, List.singleton_append,
      tokens_char (by decide), hclose]
    rfl
  rw [htokens, lexemes_clauses hinside (.inl (mt List.map_eq_nil_iff.1 hne)) hcaret, hdescending,
    hatoms]
  simp [hyphenMember, eraseDups_of_nodup hdistinct]

omit hletters hnodup in
theorem lexemes_any_written (u : Text) :
    lexemes (tokens symbols (Element.any.written symbols ++ u)) =
      .element .any :: lexemes (tokens symbols u) := by
  show lexemes (tokens symbols ('.' :: u)) = _
  rw [tokens_char (by decide), lexemes_alone rfl]

end

/-! ## Patterns -/

section

variable {symbols : List Char} {limit n : ℕ}

/-- What is asked of an item: it is well-formed, its numbers fit, and its groups keep within the
limit. -/
structure Readable (n limit : ℕ) (it : Item) : Prop where
  wellFormed : it.WellFormed n
  fits : it.quantifier.Fits ∧ it.element.Everywhere Quantifier.Fits fun _ => True
  depth : it.element.depth ≤ limit

theorem readable_of_mem {p : Pattern} (hwellFormed : Pattern.AlternativesWellFormed n p)
    (hfits : p.NumbersFit) (hdepth : p.depth ≤ limit) : ∀ s ∈ p, ∀ it ∈ s, Readable n limit it :=
  fun s hs it hit =>
    ⟨Sequence.wellFormed_iff.1 (Pattern.alternativesWellFormed_iff.1 hwellFormed s hs) it hit,
      Pattern.everywhere_iff.1 hfits s hs it hit,
      Sequence.depth_le_iff.1 (Pattern.depth_le_iff.1 hdepth s hs) it hit⟩

/-- The text of an item. -/
def itemWritten (symbols : List Char) (it : Item) : Text :=
  it.element.written symbols ++ it.quantifier.written

theorem parse_written_sequence {s : Sequence}
    (h : ∀ it ∈ s, parse (itemWritten symbols it) symbols limit = .ok [[it]]) :
    parse (Sequence.written symbols s) symbols limit = .ok [s] := by
  induction s with
  | nil =>
    refine parse_eq_ok_iff.2 ⟨.empty, .closed, ?_, rfl⟩
    rw [Sequence.written, tokens_nil, lexemes_nil]
    rfl
  | cons it s ih =>
    obtain ⟨hit, hs⟩ := List.forall_mem_cons.1 h
    obtain ⟨q, e⟩ := it
    exact parse_append hit (ih hs)

/-- A pattern can be read back if its items can. -/
theorem parse_written_of_items {p : Pattern} (hne : p ≠ [])
    (h : ∀ s ∈ p, ∀ it ∈ s, parse (itemWritten symbols it) symbols limit = .ok [[it]]) :
    parse (p.written symbols) symbols limit = .ok p := by
  induction p with
  | nil => exact absurd rfl hne
  | cons s p ih =>
    obtain ⟨hs, hp⟩ := List.forall_mem_cons.1 h
    cases p with
    | nil => exact parse_written_sequence hs
    | cons s' p => exact parse_bar (parse_written_sequence hs) (ih (List.cons_ne_nil _ _) hp)

/-- An item can be read back if its element is read as one lexeme. -/
theorem parse_itemWritten_of_lexemes {it : Item} (h : Readable n limit it)
    (helement : ∀ u, lexemes (tokens symbols (it.element.written symbols ++ u)) =
      .element it.element :: lexemes (tokens symbols u)) :
    parse (itemWritten symbols it) symbols limit = .ok [[it]] := by
  obtain ⟨q, e⟩ := it
  obtain ⟨k, htext, rfl⟩ := exists_suffix h.fits.1 h.wellFormed.1
  rw [itemWritten, ← htext]
  exact parse_element helement k

variable (hletters : ∀ c ∈ symbols, c.isAlpha = true) (hnodup : symbols.Nodup)

include hletters hnodup

/-- An item can be read back, by induction on the groups in it. -/
theorem parse_itemWritten {it : Item} (h : Readable symbols.length limit it) :
    parse (itemWritten symbols it) symbols limit = .ok [[it]] := by
  obtain ⟨q, e⟩ := it
  induction e using Element.byGroups generalizing q limit with
  | symbol i =>
    have hi : (Atom.symbol i).InRange symbols.length := h.wellFormed.2
    exact parse_itemWritten_of_lexemes h (lexemes_atomWritten hletters hnodup hi)
  | literal c =>
    have hc : (Atom.literal c).InRange symbols.length := trivial
    exact parse_itemWritten_of_lexemes h (lexemes_atomWritten hletters hnodup hc)
  | oneOf members =>
    exact parse_itemWritten_of_lexemes h (lexemes_oneOf_written hletters hnodup h.wellFormed.2)
  | any => exact parse_itemWritten_of_lexemes h lexemes_any_written
  | group p ih =>
    obtain ⟨k, htext, rfl⟩ := exists_suffix h.fits.1 h.wellFormed.1
    obtain ⟨⟨-, hne, hwellFormed⟩, ⟨-, -, hfits⟩, hdepth⟩ := h
    have hdepth : p.depth + 1 ≤ limit := hdepth
    obtain ⟨limit, rfl⟩ : ∃ l, limit = l + 1 := Nat.exists_eq_succ_of_ne_zero (by omega)
    have hitems := readable_of_mem hwellFormed hfits (Nat.le_of_succ_le_succ hdepth)
    have hinner : parse (p.written symbols) symbols limit = .ok p :=
      parse_written_of_items hne fun s hs ⟨q, e⟩ hit => ih s hs ⟨q, e⟩ hit q (hitems s hs _ hit)
    rw [itemWritten, ← htext, Element.written, List.cons_append, List.append_assoc]
    exact parse_group hinner false k

/-- Every well-formed pattern, with numbers that fit and groups that keep within the limit, is read
back from its text. -/
theorem parse_written {p : Pattern} (hwellFormed : p.WellFormed symbols.length)
    (hfits : p.NumbersFit) (hdepth : p.depth ≤ limit) :
    parse (p.written symbols) symbols limit = .ok p :=
  parse_written_of_items hwellFormed.1 fun s hs it hit =>
    parse_itemWritten hletters hnodup (readable_of_mem hwellFormed.2 hfits hdepth s hs it hit)

end

/-- A pattern with a group in a group, an empty alternative, a class that starts with a circumflex
and characters that would mean something if they were not escaped. -/
theorem parse_written_nested :
    let p : Pattern := [[⟨.optional, .group [[⟨.atLeast 2, .symbol 1⟩, ⟨.once, .literal '?'⟩], []]⟩],
      [⟨.between 0 3, .oneOf [.literal '^', .literal '-', .literal 'b', .symbol 1, .literal 'é',
        .literal 'λ']⟩, ⟨.zeroOrMore, .group [[⟨.once, .group [[⟨.exactly 1, .any⟩]]⟩]]⟩]]
    let t : Text := "(b\x7b2,\x7d\\x3f|)?|[\\x5e\\x2d\\x62b\\xe9λ]\x7b0,3\x7d((.\x7b1\x7d))*".toList
    p.written ['c', 'b'] = t ∧ parse t ['c', 'b'] 2 = .ok p := by
  intro p t
  have hp : p.WellFormed 2 := by
    simp [p, Pattern.WellFormed, Pattern.AlternativesWellFormed, Sequence.WellFormed,
      Element.WellFormed, Quantifier.Ordered, Quantifier.min, Quantifier.max?, Atom.InRange]
  have hfits : p.NumbersFit := by
    simp [p, Pattern.NumbersFit, Pattern.Everywhere, Sequence.Everywhere, Element.Everywhere,
      Quantifier.Fits, Quantifier.min, Quantifier.max?, numberBound, UInt64.size]
  have htext : p.written ['c', 'b'] = t := by decide
  refine ⟨htext, ?_⟩
  rw [← htext]
  exact parse_written (List.all_eq_true.1 rfl) (by decide) hp hfits (by decide)

end Pattern

end Confection
