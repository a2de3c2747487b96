import Confection.Formula.Basic
import Confection.Proofs.Legend
import Confection.Proofs.Pattern.Matching

/-!
# Formulas that come from a pattern line

`Formula.WellFormed` is what every formula that `Formula.ofLine` makes can rely on: its pattern
names only symbols of the legend, and each of them has a value.
-/

namespace Confection

namespace Formula

/-- The pattern of the formula fits its legend, and every symbol of the legend has a value. -/
structure WellFormed (f : Formula) : Prop where
  pattern : f.pattern.WellFormed f.legend.size
  values : ∀ vs ∈ f.legend.values, vs ≠ []

variable {line : Text} {pantry : Pantry} {settings : Settings} {f : Formula}

/-- A formula consists of the legend of the pantry, of the line spelled with it, and of the pattern
that this is read as. -/
theorem ofLine_eq_ok_iff :
    ofLine line pantry settings = .ok f ↔
      Legend.ofPantry pantry = .ok f.legend ∧ f.text = f.legend.spell line ∧
      Pattern.parse f.text f.legend.symbols settings.maxNesting = .ok f.pattern := by
  obtain ⟨text, pattern, legend⟩ := f
  simp only [ofLine, bind_eq_ok]
  constructor
  · rintro ⟨l, hl, h⟩
    split at h
    · next p hp => cases h; exact ⟨hl, rfl, hp⟩
    · cases h
  · rintro ⟨hl, rfl, hp⟩
    refine ⟨legend, hl, ?_⟩
    rw [hp]
    rfl

/-- A line makes no formula if its spelling is no pattern. -/
theorem ofLine_eq_error {l : Legend} {e : Pattern.Error} (hl : Legend.ofPantry pantry = .ok l)
    (h : Pattern.parse (l.spell line) l.symbols settings.maxNesting = .error e) :
    ofLine line pantry settings = .error (.pattern e) := by
  simp only [ofLine, hl, bind, Except.bind, h, throw, throwThe, MonadExceptOf.throw]

/-- A formula that is made from a pattern line is well-formed. -/
theorem wellFormed_of_ofLine (h : ofLine line pantry settings = .ok f) : f.WellFormed := by
  obtain ⟨hlegend, -, hparse⟩ := ofLine_eq_ok_iff.1 h
  have hpattern := Pattern.wellFormed_of_parse hparse
  rw [Legend.symbols, List.length_map] at hpattern
  exact ⟨hpattern, Legend.values_ne_nil hlegend⟩

/-- The strings of a well-formed formula are the texts of its pattern. -/
theorem WellFormed.accepts_iff (h : f.WellFormed) (t : Text) :
    f.accepts t = true ↔ t ∈ f.pattern.language (Atom.strings f.legend.values) :=
  Pattern.accepts_iff h.pattern f.legend.values t

/-- The candidates that a well-formed formula accepts are the texts of its pattern with letters for
symbols. -/
theorem WellFormed.acceptsCandidate_iff (h : f.WellFormed) (t : Text) :
    f.acceptsCandidate t = true ↔ t ∈ f.pattern.language (Atom.strings f.legend.selfValues) :=
  Pattern.accepts_iff h.pattern f.legend.selfValues t

end Formula

end Confection
