import Mathlib
import Confection.Proofs.Document
import Confection.Proofs.Formula.Basic
import Confection.Proofs.Spelling.Trimming
import Confection.Recipe

/-!
# Recipes from documents and from parts

A document gives its pattern line to the formula without the blanks around it.  The blanks are no
pieces of the line, so a recipe made from a document is the recipe made from the line as it stands
and the document's ingredients, unless trimming has taken the blank from a backslash.
-/

namespace Confection

namespace Document

/-- Is this the line of the document that holds its pattern, as it stands?  It is the first line that
says anything. -/
def IsPatternLine (t line : Text) : Prop :=
  ∃ skipped rest, Text.HasLines t (skipped ++ line :: rest) ∧
    (∀ other ∈ skipped, SaysNothing other) ∧ ¬ SaysNothing line

/-- The pattern of a document is its pattern line, trimmed. -/
theorem pattern_eq_trim {t p : Text} {d : Document} (hd : parse t = .ok d)
    (hp : IsPatternLine t p) : d.pattern = p.trim := by
  obtain ⟨skipped, rest, hlines, hskipped, hline⟩ := hp
  rw [parse_eq_parseFrom hlines, parseFrom_append hskipped hline] at hd
  obtain ⟨definitions, -, hd⟩ := bind_eq_ok.1 hd
  cases hd
  rfl

end Document

namespace Legend

/-- Trimming a line keeps its spelling unless it takes the blank from a backslash. -/
theorem spell_trim_eq_iff {l : Legend} {t : Text} :
    l.spell t.trim = l.spell t ↔ ¬ endsInEscapedBlank t := by
  rw [← Piece.ofLine_trim_eq_iff]
  constructor
  · intro h
    rcases Piece.ofLine_eq_or t with heq | ⟨b, -, hlast, heq⟩
    · exact heq.symm
    · -- the escaped blank makes one spelling longer than the other
      obtain ⟨front, hfront⟩ := List.getLast?_eq_some_iff.1 hlast
      rw [spell, spell, heq, hfront, List.dropLast_concat] at h
      have hlength := congrArg List.length h
      simp [Piece.spell] at hlength
  · intro h
    rw [spell, spell, h]

end Legend

namespace Recipe

/-- A document makes the same formula as its pattern line, as it stands, with its ingredients, or
fails with the same error, unless the line ends with an escaped blank.  In that case it does not
make the formula that the line makes. -/
theorem ofText_eq_ofParts {t p : Text} {d : Document} {pantry : Pantry} {settings : Settings}
    (hd : Document.parse t = .ok d)
    (hpantry : Pantry.resolve d.definitions settings.duplicates = .ok pantry)
    (hp : Document.IsPatternLine t p) :
    (¬ endsInEscapedBlank p →
      (ofText t settings).map formula = (ofParts p pantry settings).map formula) ∧
    (endsInEscapedBlank p → ∀ r, ofParts p pantry settings = .ok r →
      (ofText t settings).map formula ≠ .ok r.formula) := by
  have hparts (line : Text) : (ofParts line pantry settings).map formula =
      Formula.ofLine line pantry settings := by
    unfold ofParts
    cases Formula.ofLine line pantry settings <;> rfl
  have htext : ofText t settings = ofParts p.trim pantry settings := by
    rw [← Document.pattern_eq_trim hd hp]
    simp only [ofText, hd, hpantry, bind, Except.bind]
  rw [htext, hparts, hparts]
  constructor
  · intro hend
    unfold Formula.ofLine
    simp only [Legend.spell_trim_eq_iff.2 hend]
  · intro hend r hr htrim
    have hline : Formula.ofLine p pantry settings = .ok r.formula := by
      rw [← hparts, hr]
      rfl
    obtain ⟨-, hspell, -⟩ := Formula.ofLine_eq_ok_iff.1 hline
    obtain ⟨-, hspell', -⟩ := Formula.ofLine_eq_ok_iff.1 htrim
    exact Legend.spell_trim_eq_iff.1 (hspell'.symm.trans hspell) hend

/-- Blanks of several kinds around the line, and an escaped one inside it.  The line feed comes with
a carriage return. -/
theorem ofText_eq_ofParts_escapedInside :
    let t : Text := "# two strings\n  X\\ X\t \r\nX = x y".toList
    let line : Text := "  X\\ X\t ".toList
    let i : Ingredient := ⟨['X'], [['x'], ['y']]⟩
    Document.IsPatternLine t line ∧ ¬ endsInEscapedBlank line ∧
      (ofText t {}).map formula = (ofParts line (Pantry.ofList [i]) {}).map formula ∧
      (Formula.ofLine line (Pantry.ofList [i]) {}).map Formula.text =
        .ok ['a', '\\', ' ', 'a'] := by
  intro t line i
  have hlines : Text.HasLines t ["# two strings".toList, line, "X = x y".toList] :=
    @Text.HasLines.lineFeed "# two strings".toList _ _ (by decide) <|
      @Text.HasLines.carriageReturn line _ _ (by decide) <| .last (by decide)
  have hp : Document.IsPatternLine t line :=
    ⟨["# two strings".toList], ["X = x y".toList], hlines,
      List.forall_mem_singleton.2 (not_isSignificant_trim_iff.1 (by decide)),
      not_saysNothing_iff.2 (by decide)⟩
  have hend : ¬ endsInEscapedBlank line := Piece.ofLine_trim_eq_iff.1 (by decide +kernel)
  have hparse : Document.parse t = .ok ⟨['X', '\\', ' ', 'X'], [⟨['X'], ['x', ' ', 'y'], 3⟩]⟩ := by
    decide +kernel
  have hresolve : Pantry.resolve [⟨['X'], ['x', ' ', 'y'], 3⟩] .lastWins =
      .ok (Pantry.ofList [i]) := by
    cbv
  have htokens : Pattern.tokens ['a'] ['a', '\\', ' ', 'a'] =
      [.char 'a' (some 0), .escape (.char ' '), .char 'a' (some 0)] := by decide
  have hread : Pattern.parse ['a', '\\', ' ', 'a'] ['a'] 64 =
      .ok [[⟨.once, .symbol 0⟩, ⟨.once, .literal ' '⟩, ⟨.once, .symbol 0⟩]] := by
    rw [Pattern.parse, htokens]
    cbv
  have hline : Formula.ofLine line (Pantry.ofList [i]) {} = .ok ⟨['a', '\\', ' ', 'a'],
      [[⟨.once, .symbol 0⟩, ⟨.once, .literal ' '⟩, ⟨.once, .symbol 0⟩]], ⟨[('a', i)]⟩⟩ :=
    Formula.ofLine_eq_ok_iff.2
      ⟨Legend.ofPantry_singleton (by simp [i]), by decide +kernel, hread⟩
  refine ⟨hp, hend, (ofText_eq_ofParts hparse hresolve hp).1 hend, ?_⟩
  rw [hline]
  rfl

/-- A blank that is escaped at the end of the line is lost with trimming, and the backslash is left
over: the line makes a formula and the document does not. -/
theorem ofText_escapedAtEnd :
    let t : Text := "X\\ \nX = x".toList
    let line : Text := ['X', '\\', ' ']
    let i : Ingredient := ⟨['X'], [['x']]⟩
    Document.IsPatternLine t line ∧
      ofText t {} = .error (.pattern .unexpectedEnd) ∧
      Formula.ofLine line (Pantry.ofList [i]) {} = .ok ⟨['a', '\\', ' '],
        [[⟨.once, .symbol 0⟩, ⟨.once, .literal ' '⟩]], ⟨[('a', i)]⟩⟩ := by
  intro t line i
  have hparse : Document.parse t = .ok ⟨['X', '\\'], [⟨['X'], ['x'], 2⟩]⟩ := by decide +kernel
  have hresolve : Pantry.resolve [⟨['X'], ['x'], 2⟩] .lastWins = .ok (Pantry.ofList [i]) := by cbv
  have hlegend := Legend.ofPantry_singleton (i := i) (by simp [i])
  have hspell : Legend.spell ⟨[('a', i)]⟩ ['X', '\\'] = ['a', '\\'] := by decide +kernel
  have herror : Pattern.parse ['a', '\\'] ['a'] 64 = .error .unexpectedEnd := by cbv
  have htokens : Pattern.tokens ['a'] ['a', '\\', ' '] =
      [.char 'a' (some 0), .escape (.char ' ')] := by decide
  have hread : Pattern.parse ['a', '\\', ' '] ['a'] 64 =
      .ok [[⟨.once, .symbol 0⟩, ⟨.once, .literal ' '⟩]] := by
    rw [Pattern.parse, htokens]
    cbv
  have htrimmed : Formula.ofLine ['X', '\\'] (Pantry.ofList [i]) {} =
      .error (.pattern .unexpectedEnd) :=
    Formula.ofLine_eq_error hlegend (by rw [hspell]; exact herror)
  have hlines : Text.HasLines t [line, "X = x".toList] :=
    @Text.HasLines.lineFeed line _ _ (by decide) (.last (by decide))
  have hp : Document.IsPatternLine t line :=
    ⟨[], ["X = x".toList], hlines, List.forall_mem_nil _, not_saysNothing_iff.2 (by decide)⟩
  refine ⟨hp, ?_, Formula.ofLine_eq_ok_iff.2 ⟨hlegend, by decide +kernel, hread⟩⟩
  simp only [ofText, hparse, hresolve, ofParts, htrimmed, bind, Except.bind]

end Recipe

end Confection
