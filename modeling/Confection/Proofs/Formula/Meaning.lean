import Confection.Proofs.Formula.Direct
import Confection.Proofs.Pattern.Renumbering

/-!
# What a pattern line means

A pantry gives every name a letter and a number, and both depend on all the other names in it.  What
a line means does not: two pantries that give its words the same values make formulas of it with the
same strings, or neither makes one (`ofLine_congr`).

## Shape of the lemmas

The names that occur on the line are put in a list of their own, `usedNames`.  Read with the numbers
from this list, the tokens of the line no longer depend on the pantry.  The numbers of the pantry
come from these by `place`, which keeps different names different.  So the pattern that the formula
has is the pattern for the used names with other numbers (`ofTokens_renumber`), and the strings are
those of the pattern for the used names, with each name meaning what it means in the pantry.
-/

namespace Confection

open Pattern Text

namespace Pantry

/-- What a word means in a pantry: the values of the ingredient with this name, in any order. -/
def meaning? (p : Pantry) (w : Text) : Option (Language Char) :=
  (p.get? w).map fun i => listed i.values

/-- What atoms mean if the symbols stand for these names. -/
def meanings (p : Pantry) (names : List Text) : Atom → Language Char
  | .symbol i => (names[i]?.bind p.meaning?).getD 0
  | .literal c => listed [[c]]

theorem meanings_congr {p q : Pantry} {names : List Text}
    (h : ∀ w ∈ names, p.meaning? w = q.meaning? w) : p.meanings names = q.meanings names := by
  funext a
  cases a with
  | literal c => rfl
  | symbol i =>
    rw [meanings, meanings]
    cases hi : names[i]? with
    | none => rfl
    | some w => rw [Option.bind_some, Option.bind_some, h w (List.mem_of_getElem? hi)]

end Pantry

namespace Legend

variable {p : Pantry} {l : Legend}

/-- The values of the symbols of a legend are what the names mean in the pantry. -/
theorem strings_values (h : ofPantry p = .ok l) (a : Atom) :
    a.strings l.values = p.meanings l.names a := by
  cases a with
  | literal c => rfl
  | symbol i =>
    rw [Atom.strings, Atom.texts, Pantry.meanings]
    cases hname : l.names[i]? with
    | some w =>
      obtain ⟨found, hfound, hvalues⟩ := get?_of_getElem?_names h hname
      simp only [List.getD_eq_getElem?_getD, hvalues, Option.getD_some, Option.bind_some,
        Pantry.meaning?, hfound, Option.map_some]
    | none =>
      have hbeyond : l.values[i]? = none := by
        rw [List.getElem?_eq_none_iff] at hname ⊢
        simpa [names, values] using hname
      simp only [List.getD_eq_getElem?_getD, hbeyond, Option.getD_none, Option.bind_none,
        listed_nil]

/-- The names of a legend are the words that mean something in the pantry. -/
theorem mem_names_iff_isSome_meaning? (h : ofPantry p = .ok l) {w : Text} :
    w ∈ l.names ↔ (p.meaning? w).isSome = true := by
  rw [mem_names_iff h, Pantry.meaning?, Option.isSome_map, Option.isSome_iff_exists]

end Legend

/-! ## The names on a line -/

/-- The word that the piece is. -/
def Piece.word? : Piece → Option Text
  | .word w => some w
  | .escape _ | .verbatim _ => none

theorem Piece.word?_eq_some {x : Piece} {w : Text} : x.word? = some w ↔ x = .word w := by
  cases x <;> simp [word?]

/-- The names that occur on the line, each of them once. -/
def usedNames (names : List Text) (line : Text) : List Text :=
  (((Piece.ofLine line).filterMap Piece.word?).filter names.contains).eraseDups

theorem mem_usedNames {names : List Text} {line w : Text} :
    w ∈ usedNames names line ↔ .word w ∈ Piece.ofLine line ∧ w ∈ names := by
  rw [usedNames, List.mem_eraseDups, List.mem_filter, List.mem_filterMap, List.contains_iff_mem]
  simp only [Piece.word?_eq_some, exists_eq_right]

theorem nodup_usedNames (names : List Text) (line : Text) : (usedNames names line).Nodup :=
  nodup_eraseDups _

/-- The names that occur on a line are the same if its words are names in both lists or in
neither. -/
theorem usedNames_congr {names names' : List Text} {line : Text}
    (h : ∀ w, .word w ∈ Piece.ofLine line → (w ∈ names ↔ w ∈ names')) :
    usedNames names line = usedNames names' line := by
  unfold usedNames
  congr 1
  refine List.filter_congr fun w hw => ?_
  obtain ⟨x, hx, hword⟩ := List.mem_filterMap.1 hw
  obtain rfl := Piece.word?_eq_some.1 hword
  rw [Bool.eq_iff_iff, List.contains_iff_mem, List.contains_iff_mem]
  exact h w hx

/-! ## Numbers of the used names and of all names -/

/-- The number among all the names of what has the number `i` among the used ones.  Beyond the used
names it is any number that is not taken. -/
def place (names used : List Text) (i : ℕ) : ℕ :=
  match used[i]? with
  | some w => names.idxOf w
  | none => names.length + i

section

variable {names used : List Text}

theorem place_of_getElem? {i : ℕ} {w : Text} (h : used[i]? = some w) :
    place names used i = names.idxOf w := by
  rw [place, h]

theorem place_injective (hnodup : used.Nodup) (hmem : ∀ w ∈ used, w ∈ names) :
    Function.Injective (place names used) := by
  intro i j hij
  unfold place at hij
  cases hi : used[i]? with
  | none =>
    cases hj : used[j]? with
    | none => simp only [hi, hj] at hij; omega
    | some v =>
      have := List.idxOf_lt_length_of_mem (hmem v (List.mem_of_getElem? hj))
      simp only [hi, hj] at hij
      omega
  | some w =>
    have hw := hmem w (List.mem_of_getElem? hi)
    cases hj : used[j]? with
    | none =>
      have := List.idxOf_lt_length_of_mem hw
      simp only [hi, hj] at hij
      omega
    | some v =>
      simp only [hi, hj] at hij
      obtain rfl := (List.idxOf_inj hw).1 hij
      obtain ⟨hlt, -⟩ := List.getElem?_eq_some_iff.1 hi
      exact (List.getElem?_inj hlt hnodup).1 (hi.trans hj.symm)

end

namespace Direct

/-! ## The tokens of a line, by the numbers of the used names -/

variable {names used : List Text} {ρ : ℕ → ℕ}

theorem renumber_ofEscape (d : Char) : (Token.ofEscape d).renumber ρ = .ofEscape d := by
  unfold Token.ofEscape
  split <;> rfl

/-- A word whose number is another one has the tokens with that number. -/
theorem wordTokens_renumber {w : Text} (h : names.idxOf? w = (used.idxOf? w).map ρ) :
    wordTokens names w = (wordTokens used w).map (Token.renumber ρ) := by
  unfold wordTokens
  rw [h]
  cases used.idxOf? w with
  | some i => rfl
  | none => simp [Token.renumber]

/-- If every word of a text has another number, so have its tokens. -/
theorem tokensIn_renumber {s : Surroundings} {t : Text} {ps : List Piece} (hcuts : Cuts s t ps)
    (h : ∀ w, .word w ∈ ps → names.idxOf? w = (used.idxOf? w).map ρ) :
    tokensIn names s false t = (tokensIn used s false t).map (Token.renumber ρ) := by
  induction hcuts with
  | nil => rw [tokensIn_nil, tokensIn_nil, List.map_nil]
  | lone => rw [tokensIn_lone, tokensIn_lone]; rfl
  | escape _ ih =>
    rw [tokensIn_escape, tokensIn_escape, ih fun w hw => h w (List.mem_cons_of_mem _ hw),
      List.map_cons, renumber_ofEscape]
  | blank hblank _ ih =>
    rw [tokensIn_cons (ne_backslash_of_isBlank hblank), if_pos hblank, ih h,
      tokensIn_cons (ne_backslash_of_isBlank hblank), if_pos hblank]
  | word hs hne hword hend _ ih =>
    rw [tokensIn_word hs hne hword hend, tokensIn_word hs hne hword hend,
      wordTokens_renumber (h _ (List.mem_cons_self ..)),
      ih fun w hw => h w (List.mem_cons_of_mem _ hw), List.map_append]
  | @verbatim s c rest ps hescape hblank hword _ ih =>
    have hstep : ¬ (decide (s ≠ .inBraces) && isIdentifierChar c) = true := by
      rcases hword with rfl | hword <;> simp [*]
    rw [tokensIn_cons hescape, hblank, if_neg Bool.false_ne_true, if_neg hstep,
      ih fun w hw => h w (List.mem_cons_of_mem _ hw), tokensIn_cons hescape, hblank,
      if_neg Bool.false_ne_true, if_neg hstep]
    rfl

/-- A word has a number among all names exactly if it has one among the used ones. -/
theorem idxOf?_eq_map_place {w : Text} (h : w ∈ used ↔ w ∈ names) :
    names.idxOf? w = (used.idxOf? w).map (place names used) := by
  cases hused : used.idxOf? w with
  | none => exact List.idxOf?_eq_none_iff.2 fun hw => List.idxOf?_eq_none_iff.1 hused (h.2 hw)
  | some i =>
    obtain ⟨hi, hget, -⟩ := List.idxOf?_eq_some_iff.1 hused
    have hat : used[i]? = some w := by rw [List.getElem?_eq_getElem hi, hget]
    have hw : w ∈ names := h.1 (List.mem_of_getElem? hat)
    obtain ⟨k, hk⟩ := Option.isSome_iff_exists.1 (List.isSome_idxOf?.2 hw)
    rw [Option.map_some, place_of_getElem? hat, List.idxOf_eq_getD_idxOf?, hk, Option.getD_some]

/-- The tokens of a line have the numbers of the used names, each in its place among all names. -/
theorem tokens_eq_map_place (names : List Text) (line : Text) :
    tokens names line = (tokens (usedNames names line) line).map
      (Token.renumber (place names (usedNames names line))) := by
  refine tokensIn_renumber (Piece.cuts_ofLine line) fun w hw => idxOf?_eq_map_place ?_
  rw [mem_usedNames]
  exact and_iff_right hw

/-- The symbols of the tokens are numbers of names. -/
theorem wellFormed_tokens (line : Text) :
    ∀ tok ∈ tokens names line, tok.WellFormed names.length := by
  intro tok htok
  cases isToken_of_mem_tokensIn htok with
  | escape d => exact Token.wellFormed_ofEscape d
  | lone => trivial
  | literal => exact fun k hk => by cases hk
  | name hi =>
    intro k hk
    rwa [← Option.some.inj hk]

/-- Whether a hyphen stands next to a symbol does not depend on its number. -/
theorem symbolsApart_renumber (s : Surroundings) (ts : List Token) :
    symbolsApart s (ts.map (Token.renumber ρ)) = symbolsApart s ts := by
  have hafter (s : Surroundings) (t : Token) : s.afterToken (t.renumber ρ) = s.afterToken t := by
    rcases t with ⟨c, _ | i⟩ | e | e <;> rfl
  have hsymbol (t : Token) : (t.renumber ρ).symbol?.isSome = t.symbol?.isSome := by
    rcases t with ⟨c, _ | i⟩ | e | e <;> rfl
  induction ts generalizing s with
  | nil => rfl
  | cons t ts ih =>
    cases ts with
    | nil => rfl
    | cons u ts =>
      rw [List.map_cons, List.map_cons, symbolsApart, symbolsApart, ← List.map_cons, hafter, ih]
      simp only [hsymbol, Token.isMark_renumber]

end Direct

/-! ## The strings of a formula -/

/-- The strings of a formula, as a language. -/
def Formula.language (f : Formula) : Language Char := {t | f.accepts t = true}

variable {p q : Pantry} {l m : Legend} {line : Text} {settings : Settings}

/-- The pattern of a line is that of its tokens, with the numbers that the used names have among all
names. -/
theorem Legend.Lettered.toOption_parse_spell (hl : l.Lettered)
    (hx : .escape (some 'x') ∉ Piece.ofLine line)
    (hapart : symbolsApart .plain (Direct.tokens l.names line) = true) (limit : ℕ)
    {used : List Text} (hused : usedNames l.names line = used) :
    (Pattern.parse (l.spell line) l.symbols limit).toOption =
      (ofTokens limit (Direct.tokens used line)).toOption.map
        (Pattern.renumber (place l.names used)) := by
  have hplace : Function.Injective (place l.names used) := by
    refine place_injective (hused ▸ nodup_usedNames ..) fun w hw => ?_
    rw [← hused, mem_usedNames] at hw
    exact hw.2
  have htokens := Direct.tokens_eq_map_place l.names line
  rw [hused] at htokens
  rw [Pattern.parse, hl.tokens_spell hx,
    ofTokens_alike (hl.alike_tokensIn (Piece.cuts_ofLine line)) hapart]
  show (ofTokens limit (Direct.tokens l.names line)).toOption = _
  rw [htokens, ofTokens_renumber hplace]
  cases ofTokens limit (Direct.tokens used line) <;> rfl

/-- A symbol means the same as its place among all names. -/
theorem Legend.strings_renumber (hl : ofPantry p = .ok l) {used : List Text}
    (hused : usedNames l.names line = used) {a : Atom} (ha : a.InRange used.length) :
    (a.renumber (place l.names used)).strings l.values = p.meanings used a := by
  rw [strings_values hl]
  cases a with
  | literal c => rfl
  | symbol i =>
    have hi : i < used.length := ha
    have hat : used[i]? = some used[i] := List.getElem?_eq_getElem hi
    have hmem : used[i] ∈ usedNames l.names line := hused ▸ List.getElem_mem hi
    have hplace := List.getElem?_idxOf (mem_usedNames.1 hmem).2
    rw [Atom.renumber, place_of_getElem? hat, Pantry.meanings, Pantry.meanings, hplace, hat]

/-- What a line means: the strings are those of the pattern for the used names, with the meanings
that these have in the pantry.  There is no formula if there is no such pattern. -/
theorem Formula.language_ofLine (hl : Legend.ofPantry p = .ok l)
    (hx : .escape (some 'x') ∉ Piece.ofLine line)
    (hapart : symbolsApart .plain (Direct.tokens l.names line) = true) {used : List Text}
    (hused : usedNames l.names line = used) :
    (ofLine line p settings).toOption.map language =
      (ofTokens settings.maxNesting (Direct.tokens used line)).toOption.map
        (Pattern.language (p.meanings used)) := by
  have hread := (Legend.lettered_of_ofPantry hl).toOption_parse_spell hx hapart
    settings.maxNesting hused
  cases hpattern : ofTokens settings.maxNesting (Direct.tokens used line) with
  | error e =>
    cases hparse : Pattern.parse (l.spell line) l.symbols settings.maxNesting with
    | error e' =>
      rw [ofLine_eq_error hl hparse]
      rfl
    | ok P =>
      rw [hpattern, hparse] at hread
      cases hread
  | ok P =>
    cases hparse : Pattern.parse (l.spell line) l.symbols settings.maxNesting with
    | error e' =>
      rw [hpattern, hparse] at hread
      cases hread
    | ok P' =>
      rw [hpattern, hparse] at hread
      obtain rfl := Option.some.inj hread
      have hf : ofLine line p settings = .ok ⟨l.spell line, _, l⟩ :=
        ofLine_eq_ok_iff.2 ⟨hl, rfl, hparse⟩
      have hP := Pattern.wellFormed_of_ofTokens (Direct.wellFormed_tokens line) hpattern
      rw [hf]
      refine congrArg some (Language.ext fun t => ?_)
      show accepts _ t = true ↔ _
      rw [(wellFormed_of_ofLine hf).accepts_iff, Pattern.language_renumber,
        hP.language_congr fun a ha => Legend.strings_renumber hl hused ha]

/-- Formulas that are made, or not, with the same language have the same strings. -/
theorem Formula.accepts_eq_of_map_language_eq {ε : Type} {x y : Except ε Formula}
    (h : x.toOption.map language = y.toOption.map language) :
    ((∃ f, x = .ok f) ↔ ∃ g, y = .ok g) ∧
      ∀ f g, x = .ok f → y = .ok g → ∀ t, f.accepts t = g.accepts t := by
  constructor
  · cases x <;> cases y <;> simp [Except.toOption] at h ⊢
  · rintro f g rfl rfl t
    have hsame : f.language = g.language := Option.some.inj h
    rw [Bool.eq_iff_iff]
    exact Set.ext_iff.1 hsame t

/-- Pantries that give the words of a line the same values, or both none, make formulas of it with
the same strings, or neither makes one.  What else is in the pantries, and in which order, does not
count.  The line must be free of the escape `\x`, and no name next to a hyphen in a class. -/
theorem Formula.ofLine_congr (hl : Legend.ofPantry p = .ok l) (hm : Legend.ofPantry q = .ok m)
    (hx : .escape (some 'x') ∉ Piece.ofLine line)
    (hapart : symbolsApart .plain (Direct.tokens l.names line) = true)
    (hmeaning : ∀ w, .word w ∈ Piece.ofLine line → p.meaning? w = q.meaning? w) :
    ((∃ f, ofLine line p settings = .ok f) ↔ ∃ g, ofLine line q settings = .ok g) ∧
      ∀ f g, ofLine line p settings = .ok f → ofLine line q settings = .ok g →
        ∀ t, f.accepts t = g.accepts t := by
  have hused : usedNames m.names line = usedNames l.names line := by
    refine usedNames_congr fun w hw => ?_
    rw [Legend.mem_names_iff_isSome_meaning? hl, Legend.mem_names_iff_isSome_meaning? hm,
      hmeaning w hw]
  have hapart' : symbolsApart .plain (Direct.tokens m.names line) = true := by
    rw [Direct.tokens_eq_map_place, Direct.symbolsApart_renumber] at hapart ⊢
    rwa [hused]
  have hmeanings : p.meanings (usedNames l.names line) = q.meanings (usedNames l.names line) :=
    Pantry.meanings_congr fun w hw => hmeaning w (mem_usedNames.1 hw).1
  refine accepts_eq_of_map_language_eq ?_
  rw [language_ofLine hl hx hapart rfl, language_ofLine hm hx hapart' hused, hmeanings]

/-- The same two ingredients in another order and with a third one that is not used.  The literal
`b` is the letter of another ingredient each time. -/
theorem Formula.ofLine_congr_reordered :
    let i : Ingredient := ⟨['a', 'b'], [['x'], ['y', 'z']]⟩
    let j : Ingredient := ⟨['c', 'd'], [['w']]⟩
    let k : Ingredient := ⟨['e', 'f'], [['v']]⟩
    let line : Text := "ab b[cd 0-1]|cd".toList
    let f : Formula := ⟨"a\\x62[b0-1]|b".toList,
      [[⟨.once, .symbol 0⟩, ⟨.once, .literal 'b'⟩,
        ⟨.once, .oneOf [.symbol 1, .literal '0', .literal '1']⟩], [⟨.once, .symbol 1⟩]],
      ⟨[('a', i), ('b', j), ('c', k)]⟩⟩
    let g : Formula := ⟨"b\\x62[a0-1]|a".toList,
      [[⟨.once, .symbol 1⟩, ⟨.once, .literal 'b'⟩,
        ⟨.once, .oneOf [.symbol 0, .literal '0', .literal '1']⟩], [⟨.once, .symbol 0⟩]],
      ⟨[('a', j), ('b', i)]⟩⟩
    ofLine line (Pantry.ofList [i, j, k]) {} = .ok f ∧
      ofLine line (Pantry.ofList [j, i]) {} = .ok g ∧ ∀ t, f.accepts t = g.accepts t := by
  intro i j k line f g
  have hl : Legend.ofPantry (Pantry.ofList [i, j, k]) = .ok f.legend :=
    Legend.ofPantry_ofList (by decide) (by decide) (by decide) (by decide)
  have hm : Legend.ofPantry (Pantry.ofList [j, i]) = .ok g.legend :=
    Legend.ofPantry_ofList (by decide) (by decide) (by decide) (by decide)
  have hpieces : Piece.ofLine line = [.word i.name, .word ['b'], .verbatim '[', .word j.name,
      .word ['0'], .verbatim '-', .word ['1'], .verbatim ']', .verbatim '|', .word j.name] := by
    decide +kernel
  have hmeaning : ∀ w, .word w ∈ Piece.ofLine line →
      (Pantry.ofList [i, j, k]).meaning? w = (Pantry.ofList [j, i]).meaning? w := by
    intro w hw
    simp only [hpieces, List.mem_cons, List.not_mem_nil, or_false, reduceCtorEq, false_or,
      Piece.word.injEq] at hw
    rcases hw with rfl | rfl | rfl | rfl | rfl | rfl <;>
      simp [Pantry.meaning?, Pantry.ofList, Pantry.get?_insert, i, j, k]
  have hf : ofLine line (Pantry.ofList [i, j, k]) {} = .ok f :=
    ofLine_eq_ok_iff.2 ⟨hl, by decide +kernel, by cbv⟩
  have hg : ofLine line (Pantry.ofList [j, i]) {} = .ok g :=
    ofLine_eq_ok_iff.2 ⟨hm, by decide +kernel, by cbv⟩
  have hx : .escape (some 'x') ∉ Piece.ofLine line := by decide +kernel
  have hapart : symbolsApart .plain (Direct.tokens f.legend.names line) = true := by decide +kernel
  exact ⟨hf, hg, (ofLine_congr hl hm hx hapart hmeaning).2 f g hf hg⟩

end Confection
