import Confection.Proofs.Formula.Sampling

/-!
# Sampling does not fail

Three steps of drawing a random string can fail: drawing a number from an interval that is empty,
drawing one of no printable characters, and looking up the letter or the values of a symbol that the
legend does not have.  `Formula.sample?` draws with these steps and has no result if one of them
fails.  `Formula.WellFormed.sample?_eq` says that for a well-formed formula none does, whatever the
source gives, and that the sample is the one of `Formula.sample`.

A choice from a list cannot fail: from an empty list nothing is chosen, and nothing is written then.
-/

namespace Confection

variable {σ : Type} [WordSource σ]

/-! ## The sampler -/

/-- Takes a step a number of times. -/
def repeat? {α : Type} (step : α → Option α) : ℕ → α → Option α
  | 0, a => some a
  | n + 1, a => do step (← repeat? step n a)

namespace Draw

/-- A number from `lo` to `hi`, if there is one. -/
def between? (lo hi : ℕ) (s : σ) : Option (ℕ × σ) :=
  if lo ≤ hi then some (between lo hi s) else none

/-- A printable character, if there is one. -/
def printable? (s : σ) : Option (Char × σ) := do
  let (c, s) := printable s
  return (← c, s)

end Draw

/-- The number of repetitions of a quantifier, if its bounds do not run downwards. -/
def Quantifier.draw? (limit : ℕ) (q : Quantifier) (s : σ) : Option (ℕ × σ) :=
  Draw.between? q.min (q.max?.getD (max limit q.min)) s

mutual

/-- Writes the element once. -/
def Element.write? (limit : ℕ) : Element → Writing σ → Option (Writing σ)
  | .symbol i, (written, s) => some (.symbol i :: written, s)
  | .literal c, (written, s) => some (.literal c :: written, s)
  | .oneOf members, w => some (w.add (Draw.choose members))
  | .any, (written, s) => do
    let (c, s) ← Draw.printable? s
    return (.literal c :: written, s)
  | .group p, (written, s) =>
    let (i, s) := Draw.choose (List.range p.length) s
    Pattern.writeAlternative? limit p (i.getD 0) (written, s)
termination_by structural e => e

/-- Writes the items of the sequence, each as often as is drawn. -/
def Sequence.write? (limit : ℕ) : Sequence → Writing σ → Option (Writing σ)
  | [], w => some w
  | ⟨q, e⟩ :: rest, (written, s) => do
    let (n, s) ← q.draw? limit s
    Sequence.write? limit rest (← repeat? (e.write? limit) n (written, s))
termination_by structural s => s

/-- Writes the alternative with the given number. -/
def Pattern.writeAlternative? (limit : ℕ) : Pattern → ℕ → Writing σ → Option (Writing σ)
  | [], _, w => some w
  | s :: _, 0, w => Sequence.write? limit s w
  | _ :: rest, i + 1, w => Pattern.writeAlternative? limit rest i w
termination_by structural p => p

end

/-- Writes an alternative of the pattern that is chosen at random. -/
def Pattern.draw? (limit : ℕ) (p : Pattern) (s : σ) : Option (List Atom × σ) := do
  let (written, s) ← Element.write? limit (.group p) ([], s)
  return (written.reverse, s)

/-- Draws candidates until one has a length that fits, up to `further` times after the first one.
`made` attempts have been made before. -/
def Pattern.drawFitting? (limit : ℕ) (p : Pattern) (fits : ℕ → Bool) :
    (further made : ℕ) → σ → Option (Attempt × σ)
  | 0, made, s => do
    let (atoms, s) ← p.draw? limit s
    return (⟨atoms, made + 1, fits atoms.length⟩, s)
  | further + 1, made, s => do
    let (atoms, s) ← p.draw? limit s
    if fits atoms.length then return (⟨atoms, made + 1, true⟩, s)
    else p.drawFitting? limit fits further (made + 1) s

/-- The text that an atom becomes, if its symbol is one of those with values. -/
def Atom.draw? (values : SymbolValues) : Atom → σ → Option (Text × σ)
  | .symbol i, s => (values[i]?).map fun vs => (Draw.choose vs s).map (·.getD []) id
  | .literal c, s => some ([c], s)

/-- The texts that the atoms become, drawn from left to right; those before them come last first. -/
def drawTexts? (values : SymbolValues) (atoms : List Atom) (s : σ) : Option (List Text × σ) :=
  atoms.foldlM (fun (texts, s) a => (a.draw? values s).map (·.map (· :: texts) id)) ([], s)

/-- Draws a string of the formula.  There is none if a step of the sampler fails. -/
def Formula.sample? (f : Formula) (settings : Settings) (bounds : LengthBounds) (s : σ) :
    Option (Sample × σ) := do
  let (found, s) ←
    f.pattern.drawFitting? settings.repeatLimit bounds.admit (settings.attempts - 1) 0 s
  let candidate ← found.atoms.mapM f.legend.character
  let (texts, s) ← drawTexts? f.legend.values found.atoms s
  let sample :=
    { text := texts.reverse.flatten
      candidate
      attempts := found.attempts
      satisfied := found.satisfied }
  return (sample, s)

/-! ## Writing succeeds -/

/-- Steps that succeed can be taken any number of times. -/
theorem repeat?_eq {α : Type} {step : α → Option α} {f : α → α} (h : ∀ a, step a = some (f a))
    (n : ℕ) (a : α) : repeat? step n a = some (Nat.repeat f n a) := by
  induction n with
  | zero => rfl
  | succ n ih =>
    rw [repeat?, ih]
    exact h _

theorem Draw.printable?_eq (s : σ) :
    ∃ c, (printable s).1 = some c ∧ printable? s = some (c, (printable s).2) := by
  obtain ⟨c, -, hc⟩ := printable_mem s
  refine ⟨c, hc, ?_⟩
  simp only [printable?, hc]
  rfl

/-- A number of repetitions can be drawn if the bounds do not run downwards. -/
theorem Quantifier.draw?_eq {q : Quantifier} (h : q.Ordered) (limit : ℕ) (s : σ) :
    q.draw? limit s = some (q.draw limit s) :=
  if_pos (h.le_getD limit)

section

variable (limit : ℕ) {n : ℕ}

mutual

/-- A well-formed element can be written. -/
theorem Element.write?_eq : ∀ e : Element, e.WellFormed n → ∀ w : Writing σ,
    e.write? limit w = some (e.write limit w)
  | .symbol _, _, _ => rfl
  | .literal _, _, _ => rfl
  | .oneOf _, _, _ => rfl
  | .any, _, (written, s) => by
    obtain ⟨c, hc, heq⟩ := Draw.printable?_eq s
    have hdraw : (Draw.printable s).map (·.map Atom.literal) id =
        (some (.literal c), (Draw.printable s).2) :=
      Prod.ext (by rw [Prod.map_fst, hc]; rfl) rfl
    rw [Element.write?, heq, Element.write, Writing.add]
    dsimp only
    rw [hdraw]
    rfl
  | .group p, h, (written, s) => Pattern.writeAlternative?_eq p h.2 _ _

/-- A well-formed sequence can be written. -/
theorem Sequence.write?_eq : ∀ s : Sequence, Sequence.WellFormed n s → ∀ w : Writing σ,
    Sequence.write? limit s w = some (Sequence.write limit s w)
  | [], _, _ => rfl
  | ⟨q, e⟩ :: rest, h, (written, s) => by
    rw [Sequence.write?, q.draw?_eq h.1.1, Option.bind_eq_bind, Option.bind_some]
    dsimp only
    rw [repeat?_eq (e.write?_eq h.1.2)]
    exact Sequence.write?_eq rest h.2 _

/-- The alternatives of a well-formed pattern can be written. -/
theorem Pattern.writeAlternative?_eq : ∀ p : Pattern, Pattern.AlternativesWellFormed n p →
    ∀ (i : ℕ) (w : Writing σ),
    Pattern.writeAlternative? limit p i w = some (Pattern.writeAlternative limit p i w)
  | [], _, _, _ => rfl
  | s :: _, h, 0, w => Sequence.write?_eq s h.1 w
  | _ :: rest, h, i + 1, w => Pattern.writeAlternative?_eq rest h.2 i w

end

/-- From a well-formed pattern a candidate can be drawn. -/
theorem Pattern.draw?_eq {p : Pattern} (h : p.WellFormed n) (s : σ) :
    p.draw? limit s = some (p.draw limit s) := by
  rw [Pattern.draw?, Element.write?_eq limit (.group p) h]
  rfl

/-- Drawing candidates from a well-formed pattern comes to an attempt that counts. -/
theorem Pattern.drawFitting?_eq {p : Pattern} (h : p.WellFormed n) (fits : ℕ → Bool)
    (further made : ℕ) (s : σ) :
    p.drawFitting? limit fits further made s = some (p.drawFitting limit fits further made s) := by
  induction further generalizing made s with
  | zero =>
    rw [drawFitting?, Pattern.draw?_eq limit h]
    rfl
  | succ further ih =>
    rw [drawFitting?, Pattern.draw?_eq limit h, drawFitting, Option.bind_eq_bind, Option.bind_some]
    dsimp only
    split
    · rfl
    · exact ih _ _

end

/-! ## Substituting succeeds -/

/-- An atom with values becomes a text. -/
theorem Atom.draw?_eq {values : SymbolValues} {a : Atom} (h : a.InRange values.length) (s : σ) :
    a.draw? values s = some (a.draw values s) := by
  cases a with
  | symbol i =>
    have hi : i < values.length := h
    rw [Atom.draw?, Atom.draw, List.getElem?_eq_getElem hi, List.getD_eq_getElem _ _ hi,
      Option.map_some]
  | literal c => rfl

/-- Atoms with values become texts. -/
theorem drawTexts?_eq {values : SymbolValues} {atoms : List Atom}
    (h : ∀ a ∈ atoms, a.InRange values.length) (s : σ) :
    drawTexts? values atoms s = some (drawTexts values atoms s) := by
  have hfold (p : List Text × σ) :
      atoms.foldlM (fun (texts, s) a => (a.draw? values s).map (·.map (· :: texts) id)) p =
        some (atoms.foldl (fun (texts, s) a => (a.draw values s).map (· :: texts) id) p) := by
    induction atoms generalizing p with
    | nil => rfl
    | cons a atoms ih =>
      obtain ⟨ha, hatoms⟩ := List.forall_mem_cons.1 h
      rw [List.foldlM_cons, List.foldl_cons]
      dsimp only
      rw [Atom.draw?_eq ha, Option.map_some]
      exact ih hatoms _
  exact hfold ([], s)

/-- Atoms of a legend have letters. -/
theorem Legend.mapM_character {l : Legend} {atoms : List Atom}
    (h : ∀ a ∈ atoms, a.InRange l.size) :
    atoms.mapM l.character = some (atoms.filterMap l.character) := by
  induction atoms with
  | nil => rfl
  | cons a atoms ih =>
    obtain ⟨ha, hatoms⟩ := List.forall_mem_cons.1 h
    obtain ⟨c, hc, -⟩ := character_spec ha
    rw [List.mapM_cons, hc, ih hatoms, List.filterMap_cons_some hc]
    rfl

/-- A string of a well-formed formula can be drawn. -/
theorem Formula.WellFormed.sample?_eq {f : Formula} (h : f.WellFormed) (options : Settings)
    (bounds : LengthBounds) (s : σ) :
    f.sample? options bounds s = some (f.sample options bounds s) := by
  have hrange := Pattern.inRange_drawFitting options.repeatLimit h.pattern bounds.admit
    (options.attempts - 1) 0 s
  have hsize : f.legend.values.length = f.legend.size := List.length_map _
  rw [sample?, Pattern.drawFitting?_eq _ h.pattern, Option.bind_eq_bind, Option.bind_some]
  dsimp only
  rw [Legend.mapM_character hrange, Option.bind_eq_bind, Option.bind_some,
    drawTexts?_eq (by rwa [hsize])]
  rfl

end Confection
