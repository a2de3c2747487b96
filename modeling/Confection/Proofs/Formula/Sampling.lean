import Confection.Formula.Sampling
import Confection.Proofs.Formula.Basic
import Confection.Proofs.Pattern.Capped

/-!
# A random string belongs to its formula

Whatever the source of chance gives, and whether or not the length bounds are met, the string of a
sample is one that the formula accepts, and the candidate is one that it accepts as a candidate.
This even holds of the formula with a cap on all repetitions that have no greatest number.

## Shape of the proof

* `Writing.Writes step l` says that a step writes a word of the language `l`, from wherever it is
  taken.  Such steps are composed like the languages, and so the walk through a pattern writes a
  word of the capped pattern's language of atoms (`Pattern.writes_writeAlternative`).
* The candidate and the string are both made from the atoms that have been written, every atom
  becoming a text of its own.  They are words of the pattern's language of texts, once with the
  letters of the legend for symbols and once with the values.
-/

namespace Confection

variable {σ : Type}

/-! ## Steps that write -/

namespace Writing

/-- The step writes a word of the language, whatever is written before and whatever the source
gives. -/
def Writes (step : Writing σ → Writing σ) (l : Language Atom) : Prop :=
  ∀ w, ∃ atoms ∈ l, (step w).1 = atoms.reverse ++ w.1

variable {f g : Writing σ → Writing σ} {l m : Language Atom}

theorem writes_nothing : Writes (id : Writing σ → Writing σ) 1 := by
  intro w
  exact ⟨[], rfl, rfl⟩

theorem writes_atom (a : Atom) : Writes (fun w : Writing σ => (a :: w.1, w.2)) a.alone := by
  intro w
  exact ⟨[a], rfl, rfl⟩

/-- Adding an atom that is drawn writes one of the atoms. -/
theorem writes_add [WordSource σ] {drawn : σ → Option Atom × σ}
    (h : ∀ s, ∃ a, (drawn s).1 = some a ∧ [a] ∈ l) : Writes (fun w => Writing.add w drawn) l := by
  intro w
  obtain ⟨a, ha, hmem⟩ := h w.2
  refine ⟨[a], hmem, ?_⟩
  show (Writing.add w drawn).1 = a :: w.1
  unfold Writing.add
  split
  · next heq => rw [heq] at ha; cases ha; rfl
  · next heq => rw [heq] at ha; cases ha

/-- Two steps write a word of each language, one after the other. -/
theorem Writes.comp (hf : Writes f l) (hg : Writes g m) : Writes (g ∘ f) (l * m) := by
  intro w
  obtain ⟨u, hu, hfw⟩ := hf w
  obtain ⟨v, hv, hgw⟩ := hg (f w)
  refine ⟨u ++ v, Language.append_mem_mul hu hv, ?_⟩
  rw [Function.comp_apply, hgw, hfw, List.reverse_append, List.append_assoc]

/-- Repeating a step writes a word of a power of the language. -/
theorem Writes.repeated (hf : Writes f l) (n : ℕ) : Writes (Nat.repeat f n) (l ^ n) := by
  induction n with
  | zero => rw [pow_zero]; exact writes_nothing
  | succ n ih => rw [pow_succ]; exact ih.comp hf

/-- A step that depends on a draw writes a word of the language if it does so for every draw. -/
theorem writes_drawn {α : Type} (draw : σ → α × σ) (step : α → Writing σ → Writing σ)
    (h : ∀ s, Writes (step (draw s).1) l) :
    Writes (fun w => step (draw w.2).1 (w.1, (draw w.2).2)) l := by
  intro w
  exact h w.2 (w.1, (draw w.2).2)

theorem Writes.mono (hf : Writes f l) (h : ∀ w ∈ l, w ∈ m) : Writes f m := by
  intro w
  obtain ⟨atoms, hatoms, hfw⟩ := hf w
  exact ⟨atoms, h atoms hatoms, hfw⟩

end Writing

/-! ## Draws -/

variable [WordSource σ]

/-- The interval from which a number of repetitions is drawn is not empty. -/
theorem Quantifier.Ordered.le_getD {q : Quantifier} (h : q.Ordered) (limit : ℕ) :
    q.min ≤ q.max?.getD (max limit q.min) := by
  have := h.capped limit _ max?_capped
  rwa [min_capped] at this

/-- The number of repetitions that is drawn is one that the capped quantifier allows. -/
theorem Quantifier.allows_draw {q : Quantifier} (h : q.Ordered) (limit : ℕ) (s : σ) :
    (q.capped limit).Allows (q.draw limit s).1 := by
  obtain ⟨hmin, hmax⟩ := Draw.between_mem (h.le_getD limit) s
  refine ⟨by rwa [min_capped], fun m hm => ?_⟩
  rw [max?_capped, Option.mem_some_iff] at hm
  rwa [← hm]

/-- Repeating a step as often as is drawn writes as many words as the capped quantifier allows. -/
theorem Writing.Writes.times {step : Writing σ → Writing σ} {l : Language Atom}
    (h : Writes step l) {q : Quantifier} (hq : q.Ordered) (limit : ℕ) :
    Writes (fun w => Nat.repeat step (q.draw limit w.2).1 (w.1, (q.draw limit w.2).2))
      ((q.capped limit).powers l) := by
  refine writes_drawn (q.draw limit) (Nat.repeat step) fun s => ?_
  refine (h.repeated _).mono fun w hw => ?_
  exact ⟨_, q.allows_draw hq limit s, hw⟩

/-- The number of an alternative that is drawn is one of the pattern's. -/
theorem Draw.choose_range_lt {n : ℕ} (h : 0 < n) (s : σ) :
    (Draw.choose (List.range n) s).1.getD 0 < n := by
  have hrange : List.range n ≠ [] := by simpa using h.ne'
  obtain ⟨i, hi, heq⟩ := Draw.choose_mem hrange s
  rw [heq]
  exact List.mem_range.1 hi

section

variable (limit : ℕ) {n : ℕ}

mutual

/-- Writing an element writes a candidate of the capped element. -/
theorem Element.writes_write : ∀ e : Element, e.WellFormed n →
    Writing.Writes (σ := σ) (e.write limit) ((e.capped limit).language Atom.alone)
  | .symbol i, _ => Writing.writes_atom (.symbol i)
  | .literal c, _ => Writing.writes_atom (.literal c)
  | .oneOf members, h => by
    refine Writing.writes_add fun s => ?_
    obtain ⟨a, ha, heq⟩ := Draw.choose_mem h.1 s
    exact ⟨a, heq, a, ha, rfl⟩
  | .any, _ => by
    refine Writing.writes_add fun s => ?_
    obtain ⟨c, hc, heq⟩ := Draw.printable_mem s
    refine ⟨.literal c, ?_, c, mem_printableAscii.1 hc, rfl⟩
    rw [Prod.map_fst, heq]
    rfl
  | .group p, h => by
    have hpos : 0 < p.length := List.length_pos_iff.2 h.1
    refine Writing.writes_drawn (Draw.choose (List.range p.length))
      (fun i => Pattern.writeAlternative limit p (i.getD 0)) fun s => ?_
    exact Pattern.writes_writeAlternative p h.2 _ (Draw.choose_range_lt hpos s)

/-- Writing a sequence writes a candidate of the capped sequence. -/
theorem Sequence.writes_write : ∀ s : Sequence, Sequence.WellFormed n s →
    Writing.Writes (σ := σ) (Sequence.write limit s)
      (Sequence.language Atom.alone (Sequence.capped limit s))
  | [], _ => Writing.writes_nothing
  | ⟨_, e⟩ :: rest, h =>
    ((e.writes_write h.1.2).times h.1.1 limit).comp (Sequence.writes_write rest h.2)

/-- Writing an alternative of a pattern writes a candidate of the capped pattern. -/
theorem Pattern.writes_writeAlternative : ∀ p : Pattern, Pattern.AlternativesWellFormed n p →
    ∀ i < p.length, Writing.Writes (σ := σ) (Pattern.writeAlternative limit p i)
      (Pattern.language Atom.alone (Pattern.capped limit p))
  | [], _, _, hi => absurd hi (Nat.not_lt_zero _)
  | s :: _, h, 0, _ => (Sequence.writes_write s h.1).mono fun _ => Or.inl
  | _ :: rest, h, i + 1, hi =>
    (Pattern.writes_writeAlternative rest h.2 i (Nat.lt_of_succ_lt_succ hi)).mono fun _ => Or.inr

end

/-! ## Candidates -/

/-- What is drawn from a pattern is a candidate of the capped pattern. -/
theorem Pattern.draw_mem {p : Pattern} (h : p.WellFormed n) (s : σ) :
    (p.draw limit s).1 ∈ (Pattern.capped limit p).language Atom.alone := by
  obtain ⟨atoms, hatoms, heq⟩ := Element.writes_write limit (.group p) h ([], s)
  rw [List.append_nil] at heq
  show (Element.write limit (.group p) ([], s)).1.reverse ∈ _
  rw [heq, List.reverse_reverse]
  exact hatoms

/-- The candidate that counts in the end is one of the capped pattern, also when no attempt met the
bounds. -/
theorem Pattern.drawFitting_mem {p : Pattern} (h : p.WellFormed n) (fits : ℕ → Bool)
    (further made : ℕ) (s : σ) :
    (p.drawFitting limit fits further made s).1.atoms ∈
      (Pattern.capped limit p).language Atom.alone := by
  induction further generalizing made s with
  | zero => exact Pattern.draw_mem limit h s
  | succ further ih =>
    unfold Pattern.drawFitting
    dsimp only
    split
    · exact Pattern.draw_mem limit h s
    · exact ih _ _

/-- The symbols in the candidate that counts in the end are in range. -/
theorem Pattern.inRange_drawFitting {p : Pattern} (h : p.WellFormed n) (fits : ℕ → Bool)
    (further made : ℕ) (s : σ) :
    ∀ a ∈ (p.drawFitting limit fits further made s).1.atoms, a.InRange n :=
  Pattern.inRange_of_mem_language _ (h.capped limit).2 _
    (Pattern.drawFitting_mem limit h fits further made s)

/-- The candidate that counts in the end satisfies the bounds exactly if its length fits. -/
theorem Pattern.satisfied_drawFitting (p : Pattern) (fits : ℕ → Bool) (further made : ℕ) (s : σ) :
    (p.drawFitting limit fits further made s).1.satisfied =
      fits (p.drawFitting limit fits further made s).1.atoms.length := by
  induction further generalizing made s with
  | zero => rfl
  | succ further ih =>
    unfold Pattern.drawFitting
    dsimp only
    split
    · next hfits => exact hfits.symm
    · exact ih _ _

end

/-! ## Texts -/

/-- The text that is drawn for an atom is one that the atom may become. -/
theorem Atom.draw_mem {values : SymbolValues} {a : Atom} (h : a.texts values ≠ []) (s : σ) :
    (a.draw values s).1 ∈ a.texts values := by
  cases a with
  | symbol i =>
    obtain ⟨t, ht, heq⟩ := Draw.choose_mem h s
    show (Draw.choose ((Atom.symbol i).texts values) s).1.getD [] ∈ _
    rw [heq]
    exact ht
  | literal c => exact List.mem_singleton_self _

/-- The texts that are drawn for atoms make a word of the product of their languages. -/
theorem drawTexts_mem {values : SymbolValues} {atoms : List Atom}
    (h : ∀ a ∈ atoms, a.texts values ≠ []) (s : σ) :
    (drawTexts values atoms s).1.reverse.flatten ∈ (atoms.map (Atom.strings values)).prod := by
  -- the texts drawn so far stay in front of those that follow
  have hfold (p : List Text × σ) : ∃ t ∈ (atoms.map (Atom.strings values)).prod,
      (atoms.foldl (fun p a => (a.draw values p.2).map (· :: p.1) id) p).1.reverse.flatten =
        p.1.reverse.flatten ++ t := by
    induction atoms generalizing p with
    | nil => exact ⟨[], Language.nil_mem_one, (List.append_nil _).symm⟩
    | cons a atoms ih =>
      obtain ⟨ha, hatoms⟩ := List.forall_mem_cons.1 h
      obtain ⟨t, ht, heq⟩ := ih hatoms ((a.draw values p.2).1 :: p.1, (a.draw values p.2).2)
      refine ⟨(a.draw values p.2).1 ++ t, Language.append_mem_mul (Atom.draw_mem ha p.2) ht, ?_⟩
      rw [List.reverse_cons, List.flatten_append, List.flatten_singleton, List.append_assoc] at heq
      exact heq
  obtain ⟨t, ht, heq⟩ := hfold ([], s)
  have htexts : (drawTexts values atoms s).1.reverse.flatten = t := heq
  rwa [htexts]

namespace Legend

variable {l : Legend}

/-- The letter of an atom is the only text that it may become. -/
theorem character_spec {a : Atom} (h : a.InRange l.size) :
    ∃ c, l.character a = some c ∧ a.texts l.selfValues = [[c]] := by
  cases a with
  | symbol i =>
    have hi : i < l.symbols.length := by
      rw [symbols, List.length_map]
      exact h
    refine ⟨l.symbols[i], List.getElem?_eq_getElem hi, ?_⟩
    rw [Atom.texts, selfValues, List.getD_eq_getElem _ _ (by rwa [List.length_map]),
      List.getElem_map]
  | literal c => exact ⟨c, rfl, rfl⟩

/-- The letters of atoms make a word of the product of their languages. -/
theorem filterMap_character_mem {atoms : List Atom} (h : ∀ a ∈ atoms, a.InRange l.size) :
    atoms.filterMap l.character ∈ (atoms.map (Atom.strings l.selfValues)).prod := by
  induction atoms with
  | nil => exact Language.nil_mem_one
  | cons a atoms ih =>
    obtain ⟨ha, hatoms⟩ := List.forall_mem_cons.1 h
    obtain ⟨c, hc, htexts⟩ := character_spec ha
    rw [List.filterMap_cons_some hc, List.map_cons, List.prod_cons]
    refine Language.append_mem_mul (a := [c]) ?_ (ih hatoms)
    rw [Atom.mem_strings, htexts]
    exact List.mem_singleton_self _

/-- An atom in range may become something, if every symbol of the legend has a value. -/
theorem texts_ne_nil (hvalues : ∀ vs ∈ l.values, vs ≠ []) {a : Atom} (h : a.InRange l.size) :
    a.texts l.values ≠ [] := by
  cases a with
  | symbol i =>
    have hi : i < l.values.length := by
      rw [values, List.length_map]
      exact h
    rw [Atom.texts, List.getD_eq_getElem _ _ hi]
    exact hvalues _ (List.getElem_mem hi)
  | literal c => exact List.cons_ne_nil _ _

end Legend

namespace Formula

/-- The formula with a cap on all repetitions of its pattern. -/
def capped (limit : ℕ) (f : Formula) : Formula :=
  { f with pattern := Pattern.capped limit f.pattern }

variable {f : Formula}

theorem WellFormed.capped (h : f.WellFormed) (limit : ℕ) : (f.capped limit).WellFormed :=
  ⟨h.pattern.capped limit, h.values⟩

/-- A capped formula accepts nothing that the formula does not. -/
theorem WellFormed.accepts_of_capped (h : f.WellFormed) {limit : ℕ} {t : Text}
    (ht : (f.capped limit).accepts t = true) : f.accepts t = true := by
  rw [(h.capped limit).accepts_iff] at ht
  rw [h.accepts_iff]
  exact Pattern.mem_language_of_capped limit _ f.pattern ht

theorem WellFormed.acceptsCandidate_of_capped (h : f.WellFormed) {limit : ℕ} {t : Text}
    (ht : (f.capped limit).acceptsCandidate t = true) : f.acceptsCandidate t = true := by
  rw [(h.capped limit).acceptsCandidate_iff] at ht
  rw [h.acceptsCandidate_iff]
  exact Pattern.mem_language_of_capped limit _ f.pattern ht

/-- A sample is made from a candidate of the capped pattern, every atom becoming a text of its own.
That its length fits is what makes the sample satisfied. -/
theorem WellFormed.exists_atoms_sample (h : f.WellFormed) (options : Settings)
    (bounds : LengthBounds) (s : σ) :
    ∃ atoms ∈ (Pattern.capped options.repeatLimit f.pattern).language Atom.alone,
      (∀ a ∈ atoms, a.InRange f.legend.size) ∧
      (f.sample options bounds s).1.text ∈ (atoms.map (Atom.strings f.legend.values)).prod ∧
      (f.sample options bounds s).1.candidate = atoms.filterMap f.legend.character ∧
      (f.sample options bounds s).1.satisfied = bounds.admit atoms.length := by
  have hatoms := Pattern.drawFitting_mem options.repeatLimit h.pattern bounds.admit
    (options.attempts - 1) 0 s
  have hrange := Pattern.inRange_drawFitting options.repeatLimit h.pattern bounds.admit
    (options.attempts - 1) 0 s
  have htexts := drawTexts_mem (fun a ha => Legend.texts_ne_nil h.values (hrange a ha))
    (f.pattern.drawFitting options.repeatLimit bounds.admit (options.attempts - 1) 0 s).2
  exact ⟨_, hatoms, hrange, htexts, rfl, Pattern.satisfied_drawFitting _ _ _ _ _ s⟩

/-- The sample of a well-formed formula belongs to the capped formula. -/
theorem WellFormed.sample_mem (h : f.WellFormed) (options : Settings) (bounds : LengthBounds)
    (s : σ) : (f.capped options.repeatLimit).accepts (f.sample options bounds s).1.text = true ∧
      (f.capped options.repeatLimit).acceptsCandidate (f.sample options bounds s).1.candidate =
        true := by
  have hcapped := h.capped options.repeatLimit
  obtain ⟨atoms, hatoms, hrange, htext, hcandidate, -⟩ := h.exists_atoms_sample options bounds s
  rw [hcapped.accepts_iff, hcapped.acceptsCandidate_iff, hcandidate]
  exact ⟨Pattern.mem_language_of_candidate hatoms htext,
    Pattern.mem_language_of_candidate hatoms (Legend.filterMap_character_mem hrange)⟩

/-- The formula accepts the string of every sample, and its candidate as a candidate, whether or not
the bounds are met, and already with a cap on the repetitions that have no greatest number. -/
theorem sample_accepted {line : Text} {pantry : Pantry} {settings : Settings}
    (h : ofLine line pantry settings = .ok f) (options : Settings) (bounds : LengthBounds) (s : σ) :
    let sample := (f.sample options bounds s).1
    (f.accepts sample.text = true ∧ f.acceptsCandidate sample.candidate = true) ∧
      (f.capped options.repeatLimit).accepts sample.text = true ∧
      (f.capped options.repeatLimit).acceptsCandidate sample.candidate = true := by
  intro sample
  have hf := wellFormed_of_ofLine h
  obtain ⟨htext, hcandidate⟩ := hf.sample_mem options bounds s
  exact ⟨⟨hf.accepts_of_capped htext, hf.acceptsCandidate_of_capped hcandidate⟩, htext, hcandidate⟩

/-- No attempt is allowed for and the bounds cannot be met, but the sample is accepted. -/
theorem sample_accepted_exhausted :
    let i : Ingredient := ⟨['B'], [['k'], ['k', 'g']]⟩
    let f : Formula := ⟨['(', 'a', '|', 'g', ')', '*'],
      [[⟨.zeroOrMore, .group [[⟨.once, .symbol 0⟩], [⟨.once, .literal 'g'⟩]]⟩]], ⟨[('a', i)]⟩⟩
    let options : Settings := { attempts := 0, repeatLimit := 3 }
    let s : Scripted := ⟨[0xC000000000000000, 0, 0, 0xFFFFFFFF], 7⟩
    let sample := (f.sample options { min := some 5 } s).1
    ofLine ['(', 'B', '|', 'g', ')', '*'] (Pantry.ofList [i]) {} = .ok f ∧
      sample.satisfied = false ∧ f.accepts sample.text = true ∧
      (f.capped 3).acceptsCandidate sample.candidate = true := by
  intro i f options s sample
  have h : ofLine ['(', 'B', '|', 'g', ')', '*'] (Pantry.ofList [i]) {} = .ok f :=
    ofLine_eq_ok_iff.2 ⟨Legend.ofPantry_singleton (by simp [i]), by decide +kernel, by cbv⟩
  obtain ⟨⟨htext, -⟩, -, hcandidate⟩ := sample_accepted h options { min := some 5 } s
  exact ⟨h, by decide +kernel, htext, hcandidate⟩

end Formula

end Confection
