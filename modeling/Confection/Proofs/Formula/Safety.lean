import Mathlib
import Confection.Proofs.Checked.Listing
import Confection.Proofs.Checked.Agreement
import Confection.Proofs.Checked.Sampling
import Confection.Proofs.Pattern.Items

/-!
# Formulas run safely

A formula is used in four ways: a text or a candidate is matched with it, a string is drawn from it,
and its strings are listed.  None of them checks the pattern again.  They may leave that out because
a pattern that has been read is well-formed at every depth, and because the legend has a letter and
values for every symbol that the pattern can name.

`Formula.RunsSafely` says that none of the four ways ever takes a step that fails: the versions in
which failing steps have no result always have one.
-/

namespace Confection

namespace Formula

/-- Is this one of the strings of the formula?  There is no answer if a step of the matcher fails.
-/
noncomputable def accepts? (f : Formula) (t : Text) : Option Bool := f.pattern.accepts? f.legend.values t

/-- Is this one of the candidates of the formula?  There is no answer if a step of the matcher
fails. -/
noncomputable def acceptsCandidate? (f : Formula) (t : Text) : Option Bool :=
  f.pattern.accepts? f.legend.selfValues t

/-- Whatever a formula is used for, no step fails, and the result is the one without the checks. -/
structure RunsSafely (f : Formula) : Prop where
  accepts : ∀ t, f.accepts? t = some (f.accepts t)
  acceptsCandidate : ∀ t, f.acceptsCandidate? t = some (f.acceptsCandidate t)
  sample : ∀ (σ : Type) [WordSource σ] (options : Settings) (bounds : LengthBounds) (s : σ),
    f.sample? options bounds s = some (f.sample options bounds s)
  strings : ∀ l, f.strings = .ok l →
    ∀ n, tryPull Listing.tryNext n l = some (pull Listing.next? n l)

variable {f : Formula}

/-- A well-formed formula runs safely. -/
theorem WellFormed.runsSafely (h : f.WellFormed) : f.RunsSafely where
  accepts t := by
    have hvalues : f.legend.values.length = f.legend.size := List.length_map _
    exact Pattern.accepts?_eq (hvalues ▸ h.pattern) t
  acceptsCandidate t := by
    have hvalues : f.legend.selfValues.length = f.legend.size := by
      rw [Legend.selfValues, List.length_map, Legend.symbols, List.length_map, Legend.size]
    exact Pattern.accepts?_eq (hvalues ▸ h.pattern) t
  sample _ _ := h.sample?_eq
  strings _ hl := h.tryPull_eq hl

/-- A pattern that is read from a text is well-formed and nested no deeper than the limit, and a
formula that is made from a line runs safely. -/
theorem wellFormed_parse_and_runsSafely :
    (∀ {t : Text} {symbols : List Char} {limit : ℕ} {p : Pattern},
      Pattern.parse t symbols limit = .ok p → p.WellFormed symbols.length ∧ p.depth ≤ limit) ∧
    ∀ {line : Text} {pantry : Pantry} {settings : Settings} {f : Formula},
      ofLine line pantry settings = .ok f → f.RunsSafely := by
  constructor
  · intro t symbols limit p h
    exact ⟨Pattern.wellFormed_of_parse h, Pattern.depth_le_of_parse h⟩
  · intro line pantry settings f h
    exact (wellFormed_of_ofLine h).runsSafely

/-- A class in a repeated group before any character, where characters and values have more than one
byte. -/
theorem wellFormed_parse_and_runsSafely_bytes :
    let i : Ingredient := ⟨['B'], [['é'], ['k', 'g']]⟩
    let f : Formula := ⟨['(', 'a', '|', '[', '~', 'a', ']', ')', '{', '1', ',', '}', '.', 'é', '?'],
      [[⟨.atLeast 1, .group [[⟨.once, .symbol 0⟩], [⟨.once, .oneOf [.literal '~', .symbol 0]⟩]]⟩,
        ⟨.once, .any⟩, ⟨.optional, .literal 'é'⟩]], ⟨[('a', i)]⟩⟩
    Pattern.parse f.text ['a'] 1 = .ok f.pattern ∧ f.pattern.WellFormed 1 ∧ f.pattern.depth ≤ 1 ∧
      ofLine ['(', 'B', '|', '[', '~', 'B', ']', ')', '{', '1', ',', '}', ' ', '.', 'é', '?']
        (Pantry.ofList [i]) {} = .ok f ∧
      f.accepts? ['é', 'k', 'g', '~', 'é'] = some true ∧ f.accepts? ['é', 'é'] = some false := by
  intro i f
  have hparse : Pattern.parse f.text ['a'] 1 = .ok f.pattern := by cbv
  have h : ofLine ['(', 'B', '|', '[', '~', 'B', ']', ')', '{', '1', ',', '}', ' ', '.', 'é', '?']
      (Pantry.ofList [i]) {} = .ok f :=
    ofLine_eq_ok_iff.2 ⟨Legend.ofPantry_singleton (by simp [i]), by decide +kernel, by cbv⟩
  obtain ⟨hpattern, hdepth⟩ := wellFormed_parse_and_runsSafely.1 hparse
  have hsafe := wellFormed_parse_and_runsSafely.2 h
  refine ⟨hparse, hpattern, hdepth, h, ?_, ?_⟩
  · rw [hsafe.accepts]
    cbv
  · rw [hsafe.accepts]
    cbv

end Formula

end Confection
