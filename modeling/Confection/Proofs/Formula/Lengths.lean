import Mathlib
import Confection.Proofs.Formula.Sampling
import Confection.Proofs.Pantry.Values
import Confection.Recipe

/-!
# The length of a random string

The bounds are on the length of the candidate, in which every symbol is one letter.  A document
defines no values but single characters, so the string is as long as its candidate: it is the
candidate with a character in the place of each letter, and the bounds hold for it as well
(`sample_of_document`).

## Shape of the proof

The string and the candidate are two words for the same atoms.  Where every atom becomes a single
character, a word has a place for each of them (`forall₂_of_mem_prod`), so the two can be compared
place by place.
-/

namespace Confection

namespace Legend

variable {l : Legend}

/-- The characters of atoms are one for each atom. -/
theorem forall₂_character {atoms : List Atom} (h : ∀ a ∈ atoms, a.InRange l.size) :
    List.Forall₂ (fun a c => l.character a = some c) atoms (atoms.filterMap l.character) := by
  induction atoms with
  | nil => exact .nil
  | cons a atoms ih =>
    obtain ⟨ha, hatoms⟩ := List.forall_mem_cons.1 h
    obtain ⟨c, hc, -⟩ := character_spec ha
    rw [List.filterMap_cons_some hc]
    exact .cons hc (ih hatoms)

/-- What an atom becomes is its character in the candidate, or a value of the ingredient whose
letter that is. -/
theorem eq_or_mem_values {a : Atom} {c d : Char} (hc : l.character a = some c)
    (hd : [d] ∈ a.texts l.values) :
    d = c ∨ ∃ i : Ingredient, (c, i) ∈ l.entries ∧ [d] ∈ i.values := by
  cases a with
  | literal x =>
    rw [← Option.some.inj hc]
    exact .inl (List.cons.inj (List.mem_singleton.1 hd)).1
  | symbol k =>
    have hletter : (l.entries[k]?).map (·.1) = some c := by
      rw [← List.getElem?_map]
      exact hc
    obtain ⟨⟨_, i⟩, hentry, rfl⟩ := Option.map_eq_some_iff.1 hletter
    have hvalues : l.values[k]? = some i.values := by
      rw [values, List.getElem?_map, hentry]
      rfl
    rw [Atom.texts, List.getD_eq_getElem?_getD, hvalues, Option.getD_some] at hd
    exact .inr ⟨i, List.mem_of_getElem? hentry, hd⟩

end Legend

namespace Recipe

/-- The pantry of a recipe from a document has single characters for values, and the formula is
made with it. -/
theorem exists_pantry_of_ofText {t : Text} {settings : Settings} {r : Recipe}
    (h : ofText t settings = .ok r) : r.pantry.SingleCharacters ∧
      ∃ line, Formula.ofLine line r.pantry settings = .ok r.formula := by
  obtain ⟨document, -, h⟩ := bind_eq_ok.1 h
  obtain ⟨pantry, hpantry, h⟩ := bind_eq_ok.1 h
  obtain ⟨formula, hformula, h⟩ := bind_eq_ok.1 h
  cases h
  exact ⟨Pantry.singleCharacters_of_resolve hpantry, document.pattern, hformula⟩

/-- A random string of a recipe from a document is as long as its candidate, has in each place the
character of the candidate or a value of the ingredient whose letter stands there, and satisfies the
bounds, on its own length, exactly if the sample says so. -/
theorem sample_of_document {σ : Type} [WordSource σ] {t : Text} {settings : Settings} {r : Recipe}
    (h : ofText t settings = .ok r) (options : Settings) (bounds : LengthBounds) (s : σ) :
    let sample := (r.formula.sample options bounds s).1
    sample.text.length = sample.candidate.length ∧
      (∀ (k : ℕ) (c : Char), sample.candidate[k]? = some c → ∃ d, sample.text[k]? = some d ∧
        (d = c ∨ ∃ i : Ingredient, (c, i) ∈ r.formula.legend.entries ∧ [d] ∈ i.values)) ∧
      (sample.satisfied = true ↔ (∀ n ∈ bounds.min, n ≤ sample.text.length) ∧
        ∀ n ∈ bounds.max, sample.text.length ≤ n) := by
  intro sample
  obtain ⟨hpantry, line, hline⟩ := exists_pantry_of_ofText h
  have hlegend := (Formula.ofLine_eq_ok_iff.1 hline).1
  obtain ⟨atoms, -, hrange, htext, hcandidate, hsatisfied⟩ :=
    (Formula.wellFormed_of_ofLine hline).exists_atoms_sample options bounds s
  have hchosen := forall₂_of_mem_prod (Atom.length_eq_one (Legend.length_eq_one hlegend hpantry))
    htext
  have hletters := Legend.forall₂_character hrange
  rw [← hcandidate] at hletters
  have hlength := hchosen.length_eq.symm.trans hletters.length_eq
  refine ⟨hlength, fun k c hc => ?_, ?_⟩
  · obtain ⟨hk, rfl⟩ := List.getElem?_eq_some_iff.1 hc
    have hatom : k < atoms.length := by rwa [hletters.length_eq]
    have htextk : k < sample.text.length := by rwa [hlength]
    exact ⟨sample.text[k], List.getElem?_eq_getElem htextk,
      Legend.eq_or_mem_values (hletters.get hatom hk) (hchosen.get hatom htextk)⟩
  · rw [hsatisfied, hchosen.length_eq, LengthBounds.admit, Bool.and_eq_true, Option.all_eq_true,
      Option.all_eq_true]
    simp only [decide_eq_true_eq]
    exact Iff.rfl

/-- Values from a range and from a code.  The single attempt makes two letters, and the bounds ask
for three characters. -/
theorem sample_of_document_unsatisfied :
    let t : Text := "X*\nX = k-m 0C15".toList
    let i : Ingredient := ⟨['X'], [['k'], ['l'], ['m'], ['\u0C15']]⟩
    let options : Settings := { attempts := 1, repeatLimit := 2 }
    let s : Scripted := ⟨[0, 0xC000000000000000, 0x40000000, 0xC0000000], 7⟩
    ∃ r, ofText t {} = .ok r ∧ r.formula.legend.entries = [('a', i)] ∧
      let sample := (r.formula.sample options { min := some 3 } s).1
      sample.candidate = ['a', 'a'] ∧ sample.text.length = 2 ∧
        (∃ d, sample.text[1]? = some d ∧ (d = 'a' ∨ [d] ∈ i.values)) ∧
        sample.satisfied = false := by
  intro t i options s
  have hparse : Document.parse t =
      .ok ⟨['X', '*'], [⟨['X'], ['k', '-', 'm', ' ', '0', 'C', '1', '5'], 2⟩]⟩ := by
    decide +kernel
  have hresolve : Pantry.resolve [⟨['X'], ['k', '-', 'm', ' ', '0', 'C', '1', '5'], 2⟩] .lastWins =
      .ok (Pantry.ofList [i]) := by
    cbv
  let f : Formula := ⟨['a', '*'], [[⟨.zeroOrMore, .symbol 0⟩]], ⟨[('a', i)]⟩⟩
  have hline : Formula.ofLine ['X', '*'] (Pantry.ofList [i]) {} = .ok f :=
    Formula.ofLine_eq_ok_iff.2 ⟨Legend.ofPantry_singleton (by simp [i]), by decide +kernel, by cbv⟩
  have hr : ofText t {} = .ok ⟨['X', '*'], Pantry.ofList [i], f, {}⟩ := by
    simp only [ofText, hparse, hresolve, ofParts, hline, bind, Except.bind]
    rfl
  obtain ⟨hlength, hplaces, hsatisfied⟩ := sample_of_document hr options { min := some 3 } s
  have hcandidate : (f.sample options { min := some 3 } s).1.candidate = ['a', 'a'] := by
    decide +kernel
  rw [hcandidate] at hlength hplaces
  refine ⟨_, hr, rfl, hcandidate, hlength, ?_, ?_⟩
  · obtain ⟨d, hd, hplace⟩ := hplaces 1 'a' rfl
    refine ⟨d, hd, hplace.imp_right ?_⟩
    rintro ⟨j, hj, hmem⟩
    rwa [← (Prod.mk.inj (List.mem_singleton.1 hj)).2]
  · rw [← Bool.not_eq_true, hsatisfied, hlength]
    rintro ⟨hmin, -⟩
    exact absurd (hmin 3 rfl) (by decide)

end Recipe

end Confection
