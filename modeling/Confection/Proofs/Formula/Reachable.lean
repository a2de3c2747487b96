import Mathlib
import Confection.Proofs.Draw
import Confection.Proofs.Formula.Sampling
import Confection.Proofs.Pattern.Items

/-!
# Every string of a formula can be drawn

A formula accepts no string that is out of the reach of chance: for each there is a script of words
with which a sample has this string (`exists_words_sample`).  The pattern must be bounded, or the
limit on repetitions as great as the string is long.

## Shape of the proof

* A cap on repetitions leaves the string, so it comes from a candidate of the capped pattern.
* `Writing.Covers step l` says that for every word of the language `l` there is a script that makes
  the step write it.  It is the other direction of `Writing.Writes`, and is composed in the same
  way, so the walk through a pattern covers the capped pattern's language of atoms
  (`Pattern.covers_writeAlternative`).
* Then every atom gets the text that it has in the string (`exists_canGive_drawTexts`).

A list is drawn from with 32-bit words, so it must be shorter than their number.
-/

namespace Confection

open Draw

/-! ## Steps that can write -/

namespace Writing

/-- For every word of the language there are words of the source that the step uses up, writing
it. -/
def Covers (step : Writing Scripted → Writing Scripted) (l : Language Atom) : Prop :=
  ∀ atoms ∈ l, ∃ words, ∀ written s,
    step (written, s.before words) = (atoms.reverse ++ written, s)

variable {f g : Writing Scripted → Writing Scripted} {l m : Language Atom}

theorem covers_nothing : Covers id 1 := by
  intro atoms hatoms
  refine ⟨[], fun written s => ?_⟩
  rw [(Language.mem_one _).1 hatoms]
  rfl

theorem covers_atom (a : Atom) : Covers (fun w => (a :: w.1, w.2)) a.alone := by
  intro atoms hatoms
  refine ⟨[], fun written s => ?_⟩
  rw [Atom.mem_alone.1 hatoms]
  rfl

/-- Adding an atom that is drawn covers the atoms that can be drawn. -/
theorem covers_add {drawn : Scripted → Option Atom × Scripted}
    (h : ∀ atoms ∈ l, ∃ a, atoms = [a] ∧ CanGive drawn (some a)) :
    Covers (fun w => Writing.add w drawn) l := by
  intro atoms hatoms
  obtain ⟨a, rfl, words, hwords⟩ := h atoms hatoms
  refine ⟨words, fun written s => ?_⟩
  simp only [Writing.add, hwords]
  rfl

/-- Two steps cover the words of one language followed by those of the other. -/
theorem Covers.comp (hf : Covers f l) (hg : Covers g m) : Covers (g ∘ f) (l * m) := by
  intro atoms hatoms
  obtain ⟨u, hu, v, hv, rfl⟩ := hatoms
  obtain ⟨us, hus⟩ := hf u hu
  obtain ⟨vs, hvs⟩ := hg v hv
  refine ⟨us ++ vs, fun written s => ?_⟩
  rw [Function.comp_apply, ← Scripted.before_before, hus, hvs, List.reverse_append,
    List.append_assoc]

/-- Repeating a step covers the power of the language. -/
theorem Covers.repeated (hf : Covers f l) (n : ℕ) : Covers (Nat.repeat f n) (l ^ n) := by
  induction n with
  | zero => rw [pow_zero]; exact covers_nothing
  | succ n ih => rw [pow_succ]; exact ih.comp hf

/-- A step that depends on a draw covers what it covers for some result that can be drawn. -/
theorem covers_drawn {α : Type} (draw : Scripted → α × Scripted)
    (step : α → Writing Scripted → Writing Scripted)
    (h : ∀ atoms ∈ l, ∃ a m, CanGive draw a ∧ Covers (step a) m ∧ atoms ∈ m) :
    Covers (fun w => step (draw w.2).1 (w.1, (draw w.2).2)) l := by
  intro atoms hatoms
  obtain ⟨a, m, ⟨us, hus⟩, hstep, hm⟩ := h atoms hatoms
  obtain ⟨vs, hvs⟩ := hstep atoms hm
  refine ⟨us ++ vs, fun written s => ?_⟩
  simp only [← Scripted.before_before, hus]
  exact hvs written s

end Writing

/-! ## Patterns -/

/-- Are the alternatives or members that are chosen from here fewer than 32-bit words? -/
def Element.ShortHere : Element → Prop
  | .oneOf members => members.length < UInt32.size
  | .group p => p.length < UInt32.size
  | .symbol _ | .literal _ | .any => True

/-- Is everything that is chosen from in the pattern, at any depth, shorter than the number of
32-bit words? -/
def Pattern.ListsShort (p : Pattern) : Prop :=
  (Element.group p).Everywhere (fun _ => True) Element.ShortHere

/-- Every number of repetitions that the capped quantifier allows can be drawn. -/
theorem Quantifier.canGive_draw {q : Quantifier} {limit k : ℕ} (hq : q.Fits)
    (hlimit : limit < UInt64.size) (hk : (q.capped limit).Allows k) : CanGive (q.draw limit) k := by
  obtain ⟨hmin, hmax⟩ := hq
  have hbound : Pattern.numberBound = UInt64.size := rfl
  have hlo := hk.1
  rw [min_capped] at hlo
  refine canGive_between ?_ hlo (hk.2 _ max?_capped)
  cases hmax? : q.max? with
  | some m => exact hmax m hmax?
  | none =>
    rw [Option.getD_none]
    exact max_lt hlimit hmin

/-- Repeating a step as often as is drawn covers as many words as the capped quantifier allows. -/
theorem Writing.Covers.times {step : Writing Scripted → Writing Scripted} {l : Language Atom}
    (h : Covers step l) {q : Quantifier} (hq : q.Fits) {limit : ℕ} (hlimit : limit < UInt64.size) :
    Covers (fun w => Nat.repeat step (q.draw limit w.2).1 (w.1, (q.draw limit w.2).2))
      ((q.capped limit).powers l) := by
  refine covers_drawn (q.draw limit) (Nat.repeat step) fun atoms hatoms => ?_
  obtain ⟨k, hk, hpow⟩ := hatoms
  exact ⟨k, l ^ k, q.canGive_draw hq hlimit hk, h.repeated k, hpow⟩

section

variable {limit : ℕ}

mutual

/-- Writing an element covers the candidates of the capped element. -/
theorem Element.covers_write (hlimit : limit < UInt64.size) : ∀ e : Element,
    e.Everywhere Quantifier.Fits (fun _ => True) →
    e.Everywhere (fun _ => True) Element.ShortHere →
    Writing.Covers (e.write limit) ((e.capped limit).language Atom.alone)
  | .symbol i, _, _ => Writing.covers_atom (.symbol i)
  | .literal c, _, _ => Writing.covers_atom (.literal c)
  | .oneOf members, _, hshort => by
    refine Writing.covers_add fun atoms hatoms => ?_
    obtain ⟨a, ha, rfl⟩ := hatoms
    obtain ⟨i, hi⟩ := List.mem_iff_getElem?.1 ha
    exact ⟨a, rfl, canGive_choose hshort hi⟩
  | .any, _, _ => by
    show Writing.Covers
      (fun w => w.add fun s => (printable s).map (Option.map Atom.literal) id) _
    refine Writing.covers_add fun atoms hatoms => ?_
    obtain ⟨c, hc, rfl⟩ := Element.mem_language_any.1 hatoms
    exact ⟨.literal c, rfl, (canGive_printable hc).map (Option.map Atom.literal)⟩
  | .group p, hfit, hshort => by
    refine Writing.covers_drawn (choose (List.range p.length))
      (fun i => Pattern.writeAlternative limit p (i.getD 0)) fun atoms hatoms => ?_
    obtain ⟨i, hi, m, hcovers, hm⟩ :=
      Pattern.covers_writeAlternative hlimit p hfit.2 hshort.2 atoms hatoms
    have hrange : (List.range p.length)[i]? = some i := List.getElem?_range hi
    have hlength : (List.range p.length).length < UInt32.size := by
      rw [List.length_range]
      exact hshort.1
    exact ⟨some i, m, canGive_choose hlength hrange, hcovers, hm⟩

/-- Writing a sequence covers the candidates of the capped sequence. -/
theorem Sequence.covers_write (hlimit : limit < UInt64.size) : ∀ s : Sequence,
    Sequence.Everywhere Quantifier.Fits (fun _ => True) s →
    Sequence.Everywhere (fun _ => True) Element.ShortHere s →
    Writing.Covers (Sequence.write limit s)
      (Sequence.language Atom.alone (Sequence.capped limit s))
  | [], _, _ => Writing.covers_nothing
  | ⟨_, e⟩ :: rest, hfit, hshort =>
    ((e.covers_write hlimit hfit.1.2 hshort.1.2).times hfit.1.1 hlimit).comp
      (Sequence.covers_write hlimit rest hfit.2 hshort.2)

/-- Every candidate of the capped pattern is covered by writing one of the alternatives. -/
theorem Pattern.covers_writeAlternative (hlimit : limit < UInt64.size) : ∀ p : Pattern,
    Pattern.Everywhere Quantifier.Fits (fun _ => True) p →
    Pattern.Everywhere (fun _ => True) Element.ShortHere p →
    ∀ atoms ∈ Pattern.language Atom.alone (Pattern.capped limit p), ∃ i < p.length, ∃ m,
      Writing.Covers (Pattern.writeAlternative limit p i) m ∧ atoms ∈ m
  | [], _, _, _, hatoms => absurd hatoms (Language.notMem_zero _)
  | s :: _, hfit, hshort, _, Or.inl hatoms =>
    ⟨0, Nat.succ_pos _, _, Sequence.covers_write hlimit s hfit.1 hshort.1, hatoms⟩
  | _ :: rest, hfit, hshort, atoms, Or.inr hatoms => by
    obtain ⟨i, hi, m, hcovers, hm⟩ :=
      Pattern.covers_writeAlternative hlimit rest hfit.2 hshort.2 atoms hatoms
    exact ⟨i + 1, Nat.succ_lt_succ hi, m, hcovers, hm⟩

end

/-- Every candidate of the capped pattern can be drawn. -/
theorem Pattern.canGive_draw (hlimit : limit < UInt64.size) {p : Pattern} (hfit : p.NumbersFit)
    (hshort : p.ListsShort) {atoms : List Atom}
    (hatoms : atoms ∈ (Pattern.capped limit p).language Atom.alone) :
    CanGive (p.draw limit) atoms := by
  obtain ⟨words, hwords⟩ :=
    Element.covers_write hlimit (.group p) ⟨trivial, hfit⟩ hshort atoms hatoms
  refine ⟨words, fun s => ?_⟩
  rw [Pattern.draw, hwords]
  simp only [List.append_nil, List.reverse_reverse]

/-- A candidate whose length fits can be drawn at the first attempt. -/
theorem Pattern.canGive_drawFitting (hlimit : limit < UInt64.size) {p : Pattern}
    (hfit : p.NumbersFit) (hshort : p.ListsShort) {atoms : List Atom}
    (hatoms : atoms ∈ (Pattern.capped limit p).language Atom.alone)
    (fits : ℕ → Bool) (hfits : fits atoms.length = true) (further made : ℕ) :
    CanGive (p.drawFitting limit fits further made) ⟨atoms, made + 1, true⟩ := by
  obtain ⟨words, hwords⟩ := Pattern.canGive_draw hlimit hfit hshort hatoms
  refine ⟨words, fun s => ?_⟩
  cases further with
  | zero => simp only [Pattern.drawFitting, hwords, hfits]
  | succ further => simp only [Pattern.drawFitting, hwords, hfits, if_true]

end

/-! ## Texts -/

section

variable {values : SymbolValues} (hvalues : ∀ vs ∈ values, vs.length < UInt32.size)

include hvalues

/-- Every text that an atom may become can be drawn. -/
theorem Atom.canGive_draw {a : Atom} {t : Text} (ht : t ∈ a.texts values) :
    CanGive (a.draw values) t := by
  cases a with
  | symbol i =>
    have hshort : (values.getD i []).length < UInt32.size := by
      rw [List.getD_eq_getElem?_getD]
      cases hvs : values[i]? with
      | none => exact Nat.zero_lt_succ _
      | some vs => exact hvalues vs (List.mem_of_getElem? hvs)
    obtain ⟨k, hk⟩ := List.mem_iff_getElem?.1 ht
    exact (canGive_choose hshort hk).map (·.getD [])
  | literal c =>
    refine ⟨[], fun s => ?_⟩
    rw [List.mem_singleton.1 ht]
    rfl

/-- Every text that atoms may become can be drawn for them. -/
theorem exists_canGive_drawTexts {atoms : List Atom} {t : Text}
    (ht : t ∈ (atoms.map (Atom.strings values)).prod) :
    ∃ texts, CanGive (drawTexts values atoms) texts ∧ texts.reverse.flatten = t := by
  -- the texts drawn before stay where they are
  have hfold : ∃ texts words, texts.reverse.flatten = t ∧ ∀ (before : List Text) (s : Scripted),
      atoms.foldl (fun p a => (a.draw values p.2).map (· :: p.1) id) (before, s.before words) =
        (texts ++ before, s) := by
    induction atoms generalizing t with
    | nil => exact ⟨[], [], ((Language.mem_one _).1 ht).symm, fun _ _ => rfl⟩
    | cons a atoms ih =>
      rw [List.map_cons, List.prod_cons, Language.mem_mul] at ht
      obtain ⟨u, hu, v, hv, rfl⟩ := ht
      obtain ⟨us, hus⟩ := Atom.canGive_draw hvalues hu
      obtain ⟨texts, vs, rfl, hvs⟩ := ih hv
      refine ⟨texts ++ [u], us ++ vs, by simp, fun before s => ?_⟩
      rw [List.foldl_cons, ← Scripted.before_before]
      simp only [hus, Prod.map_apply, id_eq, hvs, List.append_assoc, List.singleton_append]
  obtain ⟨texts, words, htexts, hwords⟩ := hfold
  refine ⟨texts, ⟨words, fun s => ?_⟩, htexts⟩
  have hrun := hwords [] s
  rwa [List.append_nil] at hrun

end

namespace Formula

variable {f : Formula}

/-- Every string that the formula accepts is the string of a sample without bounds, for a source
that has the right words.  The pattern must be bounded, or the limit on repetitions at least the
length of the string; and the limit must be a 64-bit number, and all lists that are chosen from
shorter than the number of 32-bit words.  No word is left over, and none is taken from behind the
script. -/
theorem exists_words_sample {line : Text} {pantry : Pantry} {settings : Settings}
    (h : ofLine line pantry settings = .ok f) {options : Settings}
    (hoptions : options.repeatLimit < UInt64.size) (hpattern : f.pattern.ListsShort)
    (hvalues : ∀ vs ∈ f.legend.values, vs.length < UInt32.size) {t : Text}
    (ht : f.accepts t = true)
    (hbound : f.pattern.isUnbounded = false ∨ t.length ≤ options.repeatLimit) :
    ∃ words : List UInt64, ∀ state,
      (f.sample options {} (⟨words, state⟩ : Scripted)).1.text = t ∧
        (f.sample options {} (⟨words, state⟩ : Scripted)).2 = ⟨[], state⟩ := by
  obtain ⟨-, -, hparse⟩ := ofLine_eq_ok_iff.1 h
  have hfit := Pattern.numbersFit_of_parse hparse
  rw [(wellFormed_of_ofLine h).accepts_iff] at ht
  have hcapped : t ∈ (Pattern.capped options.repeatLimit f.pattern).language
      (Atom.strings f.legend.values) := by
    rcases hbound with hbounded | hlength
    · rwa [Pattern.capped_of_bounded _ _ hbounded]
    · exact Pattern.mem_language_capped _ _ _ hlength ht
  rw [Pattern.language_eq_substitute] at hcapped
  obtain ⟨atoms, hatoms, hprod⟩ := hcapped
  have hfits : LengthBounds.admit {} atoms.length = true := rfl
  obtain ⟨us, hus⟩ := Pattern.canGive_drawFitting hoptions hfit hpattern hatoms _ hfits
    (options.attempts - 1) 0
  obtain ⟨texts, ⟨vs, hvs⟩, rfl⟩ := exists_canGive_drawTexts hvalues hprod
  refine ⟨us ++ vs, fun state => ?_⟩
  have hscript : (⟨us ++ vs, state⟩ : Scripted) =
      ((⟨[], state⟩ : Scripted).before vs).before us := by simp [Scripted.before]
  rw [hscript, sample, hus]
  dsimp only
  simp only [complete, hvs, and_self]

/-- A repeated group that can be empty, with an empty value: three characters are within reach of
three repetitions. -/
theorem exists_words_sample_nullable :
    let i : Ingredient := ⟨['B'], [[], ['k']]⟩
    let f : Formula := ⟨['(', 'a', '?', ')', '+', '[', 'a', '!', ']'],
      [[⟨.oneOrMore, .group [[⟨.optional, .symbol 0⟩]]⟩,
        ⟨.once, .oneOf [.symbol 0, .literal '!']⟩]], ⟨[('a', i)]⟩⟩
    let options : Settings := { repeatLimit := 3 }
    ofLine ['(', 'B', '?', ')', '+', '[', 'B', '!', ']'] (Pantry.ofList [i]) {} = .ok f ∧
      ∃ words : List UInt64, ∀ state,
        (f.sample options {} (⟨words, state⟩ : Scripted)).1.text = ['k', 'k', '!'] ∧
          (f.sample options {} (⟨words, state⟩ : Scripted)).2 = ⟨[], state⟩ := by
  intro i f options
  have h : ofLine ['(', 'B', '?', ')', '+', '[', 'B', '!', ']'] (Pantry.ofList [i]) {} = .ok f :=
    ofLine_eq_ok_iff.2 ⟨Legend.ofPantry_singleton (by simp [i]), by decide +kernel, by cbv⟩
  have hpattern : f.pattern.ListsShort := by
    simp [f, Pattern.ListsShort, Element.Everywhere, Pattern.Everywhere, Sequence.Everywhere,
      Element.ShortHere, UInt32.size]
  have hvalues : ∀ vs ∈ f.legend.values, vs.length < UInt32.size := by decide
  have hoptions : options.repeatLimit < UInt64.size := by decide
  have ht : f.accepts ['k', 'k', '!'] = true := by cbv
  exact ⟨h, exists_words_sample h hoptions hpattern hvalues ht (.inr (by decide))⟩

end Formula

end Confection
