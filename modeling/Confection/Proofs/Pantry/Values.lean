import Confection.Proofs.Document
import Confection.Proofs.Legend
import Confection.Proofs.Pantry.Resolution
import Confection.Recipe

/-!
# The values that a document defines

An expression has no syntax for a longer value: what a document defines as a value is always a
single character (`Pantry.singleCharacters_of_resolve`).  And every line that defines an ingredient
gives it a value, since a token never stands for nothing and a trimmed expression that is not empty
has a token (`Recipe.values_of_document`).

## Shape of the proof

What a token stands for is the values of an ingredient that is there, or one or more single
characters (`Pantry.values_of_token`).  So both properties pass from the pantry to the values of the
next definition, and from there to the next pantry.
-/

namespace Confection

/-! ## The lines of a document -/

namespace Text

theorem words_cons_of_isBlank {c : Char} (hc : isBlank c = true) (t : Text) :
    words (c :: t) = words t := by
  rw [words, splitWhere_cons, if_pos hc]
  rfl

/-- A text without words is blank. -/
theorem isBlank_of_words_eq_nil {t : Text} (h : t.words = []) : ∀ c ∈ t, isBlank c = true := by
  induction t with
  | nil => simp
  | cons c t ih =>
    cases hc : isBlank c with
    | true =>
      rw [words_cons_of_isBlank hc] at h
      exact List.forall_mem_cons.2 ⟨hc, ih h⟩
    | false =>
      -- the first word starts with the character
      rw [words, splitWhere_cons, hc, if_neg Bool.false_ne_true] at h
      cases hpieces : splitWhere isBlank t <;> simp [hpieces, consFirst] at h

/-- A trimmed text that is not empty has words. -/
theorem IsTrimmed.words_ne_nil {t : Text} (h : IsTrimmed t) (hne : t ≠ []) : t.words ≠ [] := by
  intro hwords
  have hblank := isBlank_of_words_eq_nil hwords _ (List.getLast_mem hne)
  rw [h.last _ (List.getLast?_eq_some_getLast hne)] at hblank
  cases hblank

end Text

namespace Document

/-- The expressions of a document have tokens. -/
theorem words_ne_nil {t : Text} {document : Document} (h : parse t = .ok document) :
    ∀ d ∈ document.definitions, d.expression.words ≠ [] := by
  rw [parse_eq_parseFrom (Text.hasLines_lines t)] at h
  intro d hd
  obtain ⟨line, -, hline⟩ := (parseFrom_eq_ok_iff.1 h).exists_isOn d hd
  exact hline.isTrimmed.words_ne_nil hline.expression_ne_nil

/-- A document cannot be read if it has no pattern, or a line that is no definition. -/
theorem eq_of_parse_eq_error {t : Text} {e : Error} (h : parse t = .error e) :
    e = .missingPattern ∨ ∃ number line, e = .malformedIngredient number line := by
  unfold parse at h
  split at h
  · cases h
    exact .inl rfl
  · rcases bind_eq_error.1 h with h | ⟨definitions, -, h⟩
    · obtain ⟨_, line, _, -, -, hline⟩ := mapM_eq_error_iff.1 h
      exact .inr ⟨line.1, line.2, eq_of_readDefinition_eq_error hline⟩
    · cases h

end Document

namespace Pantry

variable {p : Pantry} {declared : List Text} {ingredient expression token : Text} {vs : List Text}

/-! ## Values -/

/-- A token stands for the values of an ingredient, or for single characters, of which there is at
least one. -/
theorem values_of_token (h : p.tokenValues declared ingredient token = .ok vs) :
    (∃ found ∈ p.ingredients, vs = found.values) ∨
      ∃ cs : List Char, cs ≠ [] ∧ vs = cs.map ([·]) := by
  cases tokenValues_eq_iff.1 h with
  | name hfound => exact .inl ⟨_, hfound, rfl⟩
  | range _ _ _ hrange => exact .inr ⟨_, hrange.ne_nil, rfl⟩
  | @character c => exact .inr ⟨[c], List.cons_ne_nil c [], rfl⟩
  | @code _ c => exact .inr ⟨[c], List.cons_ne_nil c [], rfl⟩

/-- Is every value in the pantry a single character? -/
def SingleCharacters (p : Pantry) : Prop := ∀ i ∈ p.ingredients, ∀ v ∈ i.values, v.length = 1

/-- The values of an expression are single characters if those in the pantry are. -/
theorem SingleCharacters.expressionValues (hp : p.SingleCharacters)
    (h : p.expressionValues declared ingredient expression = .ok vs) : ∀ v ∈ vs, v.length = 1 := by
  obtain ⟨parts, hparts, rfl⟩ := expressionValues_eq_ok_iff.1 h
  intro v hv
  obtain ⟨part, hpart, hv⟩ := List.mem_flatten.1 hv
  obtain ⟨token, -, htoken⟩ := exists_of_mapM_eq_ok (mapM_eq_ok_iff.2 hparts) part hpart
  rcases values_of_token htoken with ⟨found, hfound, rfl⟩ | ⟨cs, -, rfl⟩
  · exact hp found hfound v hv
  · obtain ⟨c, -, rfl⟩ := List.mem_map.1 hv
    rfl

/-- All values that definitions give are single characters. -/
theorem singleCharacters_of_resolve {definitions : List Definition} {duplicates : Duplicates}
    (h : resolve definitions duplicates = .ok p) : p.SingleCharacters :=
  (resolve_eq_ok_iff.1 h).1.forall_ingredients fun _ _ _ hp _ hvalues =>
    SingleCharacters.expressionValues hp hvalues

/-- An expression has a value if it has a token and all ingredients have values. -/
theorem expressionValues_ne_nil (hp : ∀ i ∈ p.ingredients, i.values ≠ [])
    (hwords : expression.words ≠ [])
    (h : p.expressionValues declared ingredient expression = .ok vs) : vs ≠ [] := by
  obtain ⟨parts, hparts, rfl⟩ := expressionValues_eq_ok_iff.1 h
  obtain ⟨token, rest, hcons⟩ := List.exists_cons_of_ne_nil hwords
  rw [hcons, List.forall₂_cons_left_iff] at hparts
  obtain ⟨part, parts, htoken, -, rfl⟩ := hparts
  have hpart : part ≠ [] := by
    rcases values_of_token htoken with ⟨found, hfound, rfl⟩ | ⟨cs, hcs, rfl⟩
    · exact hp found hfound
    · simpa using hcs
  simp [hpart]

/-- Definitions with tokens give every ingredient a value. -/
theorem values_ne_nil_of_resolve {definitions : List Definition} {duplicates : Duplicates}
    (hwords : ∀ d ∈ definitions, d.expression.words ≠ [])
    (h : resolve definitions duplicates = .ok p) : ∀ i ∈ p.ingredients, i.values ≠ [] :=
  (resolve_eq_ok_iff.1 h).1.forall_ingredients fun _ d _ hp hd hvalues =>
    expressionValues_ne_nil hp (hwords d hd) hvalues

end Pantry

/-- The values in a legend are single characters if those in its pantry are. -/
theorem Legend.length_eq_one {p : Pantry} {l : Legend} (h : ofPantry p = .ok l)
    (hp : p.SingleCharacters) : ∀ vs ∈ l.values, ∀ v ∈ vs, v.length = 1 := by
  intro vs hvs
  obtain ⟨entry, hentry, rfl⟩ := List.mem_map.1 hvs
  have hmem : entry.2 ∈ assignmentOrder p := by
    rw [← ingredients_eq h]
    exact List.mem_map.2 ⟨entry, hentry, rfl⟩
  exact hp entry.2 (mem_assignmentOrder.1 hmem)

namespace Recipe

/-- What a document defines has values, each of them a single character, so no recipe from a
document fails for an ingredient without values. -/
theorem values_of_document (t : Text) (settings : Settings) :
    (∀ document pantry, Document.parse t = .ok document →
      Pantry.resolve document.definitions settings.duplicates = .ok pantry →
      ∀ i ∈ pantry.ingredients, i.values ≠ [] ∧ ∀ v ∈ i.values, ∃ c : Char, v = [c]) ∧
    ∀ name, ofText t settings ≠ .error (.emptyIngredient name) := by
  have hvalues {document : Document} {pantry : Pantry} (hd : Document.parse t = .ok document)
      (hp : Pantry.resolve document.definitions settings.duplicates = .ok pantry) :=
    Pantry.values_ne_nil_of_resolve (Document.words_ne_nil hd) hp
  refine ⟨fun document pantry hd hp i hi => ⟨hvalues hd hp i hi, fun v hv => ?_⟩, fun name h => ?_⟩
  · exact List.length_eq_one_iff.1 (Pantry.singleCharacters_of_resolve hp i hi v hv)
  · -- each step has errors of its own, and this one is left for the legend
    rcases bind_eq_error.1 h with h | ⟨document, hd, h⟩
    · rcases Document.eq_of_parse_eq_error h with h | ⟨_, _, h⟩ <;> cases h
    rcases bind_eq_error.1 h with h | ⟨pantry, hp, h⟩
    · obtain ⟨d, -, h | ⟨token, -, h⟩⟩ := Pantry.exists_of_resolve_eq_error h <;> cases h
    rcases bind_eq_error.1 h with h | ⟨formula, -, h⟩
    · rcases bind_eq_error.1 h with h | ⟨legend, -, h⟩
      · cases Legend.eq_of_ofPantry_eq_error (hvalues hd hp) h
      · dsimp only at h
        split at h <;> cases h
    · cases h

/-- A range that spans the surrogates, an ingredient that refers to it, and a new definition of the
first that refers to the second. -/
theorem values_of_document_referring :
    let t : Text := "A B\nA = D7FF-E000\nB = A a\nA = B".toList
    ∃ document pantry, Document.parse t = .ok document ∧
      Pantry.resolve document.definitions .lastWins = .ok pantry ∧
      (∃ i ∈ pantry.ingredients, i.name = ['A'] ∧ i.values ≠ [] ∧ ∀ v ∈ i.values, ∃ c, v = [c]) ∧
      ofText t {} ≠ .error (.emptyIngredient ['A']) := by
  intro t
  let A : Definition := ⟨['A'], ['D', '7', 'F', 'F', '-', 'E', '0', '0', '0'], 2⟩
  let B : Definition := ⟨['B'], ['A', ' ', 'a'], 3⟩
  let A' : Definition := ⟨['A'], ['B'], 4⟩
  have hparse : Document.parse t = .ok ⟨['A', ' ', 'B'], [A, B, A']⟩ := by decide +kernel
  have hA : Pantry.empty.expressionValues [['A'], ['B'], ['A']] A.name A.expression =
      .ok [['\uD7FF'], ['\uE000']] := by
    have hwords : A.expression.words = [A.expression] := by decide
    have hrange : range? A.expression = some ['\uD7FF', '\uE000'] := by decide +kernel
    simp [Pantry.expressionValues, hwords, Pantry.tokenValues, Pantry.get?_empty, hrange]
    rfl
  have hB : (Pantry.empty.insert ⟨['A'], [['\uD7FF'], ['\uE000']]⟩).expressionValues
      [['A'], ['B'], ['A']] B.name B.expression = .ok [['\uD7FF'], ['\uE000'], ['a']] := by
    have hwords : B.expression.words = [['A'], ['a']] := by decide
    simp [Pantry.expressionValues, hwords, Pantry.tokenValues, Pantry.get?_insert,
      Pantry.get?_empty, literal?]
    rfl
  have hA' (p : Pantry) (vs : List Text) : (p.insert ⟨['B'], vs⟩).expressionValues
      [['A'], ['B'], ['A']] A'.name A'.expression = .ok vs := by
    have hwords : A'.expression.words = [['B']] := by decide
    simp [Pantry.expressionValues, hwords, Pantry.tokenValues, Pantry.get?_insert]
  have hresolve : Pantry.resolve [A, B, A'] .lastWins = .ok _ :=
    Pantry.resolve_eq_ok_iff.2 ⟨.concat (.concat (.concat .nil hA) hB) (hA' _ _), by simp⟩
  let found : Ingredient := ⟨['A'], [['\uD7FF'], ['\uE000'], ['a']]⟩
  have hfound (p : Pantry) : found ∈ (p.insert found).ingredients :=
    (Pantry.get?_eq_some_iff.1 ((Pantry.get?_insert p found found.name).trans (if_pos rfl))).1
  obtain ⟨hpantry, herror⟩ := values_of_document t {}
  exact ⟨_, _, hparse, hresolve,
    ⟨found, hfound _, rfl, hpantry _ _ hparse hresolve found (hfound _)⟩, herror ['A']⟩

end Recipe

end Confection
