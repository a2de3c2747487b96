import Mathlib
import Confection.Proofs.Formula.Strings

/-!
# Strings that are all different

The search gives no candidate twice, but different candidates could still become the same string,
as could one candidate with different values.  Neither happens if all values are single characters,
different ones, and none of them is a literal that the pattern can write
(`Formula.nodup_strings`).  A string then shows for each of its characters which atom it comes from,
so it has one candidate (`Atom.eq_of_mem_combinations`) and one choice of values for it
(`Atom.nodup_combinations`).
-/

namespace Confection

/-! ## The atoms that a pattern can write -/

mutual

/-- The atoms that an element can write. -/
def Element.atoms : Element → List Atom
  | .symbol i => [.symbol i]
  | .literal c => [.literal c]
  | .oneOf members => members
  | .any => printableAscii.map .literal
  | .group p => Pattern.atoms p
termination_by structural e => e

/-- The atoms that a sequence can write: those of its items that may be there at all. -/
def Sequence.atoms : Sequence → List Atom
  | [] => []
  | ⟨q, e⟩ :: rest => (if q.max? = some 0 then [] else e.atoms) ++ Sequence.atoms rest
termination_by structural s => s

/-- The atoms that a pattern can write. -/
def Pattern.atoms : Pattern → List Atom
  | [] => []
  | s :: rest => Sequence.atoms s ++ Pattern.atoms rest
termination_by structural p => p

end

/-- No repetition at all writes nothing. -/
private theorem Quantifier.eq_nil_of_mem_powers {q : Quantifier} (h : q.max? = some 0)
    {l : Language Atom} {w : List Atom} (hw : w ∈ q.powers l) : w = [] := by
  obtain ⟨k, ⟨-, hmax⟩, hw⟩ := hw
  obtain rfl := Nat.le_zero.1 (hmax 0 h)
  rwa [pow_zero, Language.mem_one] at hw

mutual

theorem Element.mem_atoms_of_mem_language : ∀ e : Element,
    ∀ w ∈ e.language Atom.alone, ∀ a ∈ w, a ∈ e.atoms
  | .symbol _, _, rfl, _, ha => ha
  | .literal _, _, rfl, _, ha => ha
  | .oneOf _, _, ⟨_, hb, rfl⟩, _, ha => by rwa [List.mem_singleton.1 ha]
  | .any, _, ⟨_, hc, rfl⟩, _, ha => by
    rw [List.mem_singleton.1 ha]
    exact List.mem_map_of_mem (mem_printableAscii.2 hc)
  | .group p, w, hw, a, ha => Pattern.mem_atoms_of_mem_language p w hw a ha

theorem Sequence.mem_atoms_of_mem_language : ∀ s : Sequence,
    ∀ w ∈ Sequence.language Atom.alone s, ∀ a ∈ w, a ∈ Sequence.atoms s
  | [], _, rfl, _, ha => by cases ha
  | ⟨q, e⟩ :: rest, w, hw, a, ha => by
    refine forall_mem_mul (P := (· ∈ Sequence.atoms (⟨q, e⟩ :: rest))) (fun u hu b hb => ?_)
      (fun v hv b hb => ?_) w hw a ha
    · apply List.mem_append_left
      by_cases hmax : q.max? = some 0
      · rw [Quantifier.eq_nil_of_mem_powers hmax hu] at hb
        cases hb
      · rw [if_neg hmax]
        exact forall_mem_powers e.mem_atoms_of_mem_language q u hu b hb
    · exact List.mem_append_right _ (Sequence.mem_atoms_of_mem_language rest v hv b hb)

/-- The atoms of a candidate are among those that the pattern can write. -/
theorem Pattern.mem_atoms_of_mem_language : ∀ p : Pattern,
    ∀ w ∈ Pattern.language Atom.alone p, ∀ a ∈ w, a ∈ Pattern.atoms p
  | [], _, hw, _, _ => absurd hw (Language.notMem_zero _)
  | s :: _, w, Or.inl hw, a, ha =>
    List.mem_append_left _ (Sequence.mem_atoms_of_mem_language s w hw a ha)
  | _ :: rest, w, Or.inr hw, a, ha =>
    List.mem_append_right _ (Pattern.mem_atoms_of_mem_language rest w hw a ha)

end

/-! ## Combinations that are all different -/

namespace Atom

variable {values : SymbolValues}

/-- The texts that an atom may become are all different. -/
theorem nodup_texts (h : ∀ vs ∈ values, vs.Nodup) (a : Atom) : (a.texts values).Nodup := by
  cases a with
  | symbol i =>
    rw [texts, List.getD_eq_getElem?_getD]
    cases hvs : values[i]? with
    | none => exact List.nodup_nil
    | some vs => exact h vs (List.mem_of_getElem? hvs)
  | literal c => exact List.nodup_singleton _

/-- What different atoms may become is different, if all values are different and no literal among
the atoms is a value. -/
theorem eq_of_mem_texts (hdistinct : values.flatten.Nodup) {a b : Atom}
    (ha : ∀ c, a = .literal c → [c] ∉ values.flatten)
    (hb : ∀ c, b = .literal c → [c] ∉ values.flatten) {t : Text} (hta : t ∈ a.texts values)
    (htb : t ∈ b.texts values) : a = b := by
  -- a value of a symbol stands in the list of its ingredient
  have hvalue {i : ℕ} (h : t ∈ (symbol i).texts values) :
      ∃ hi : i < values.length, t ∈ values[i] := by
    by_cases hi : i < values.length
    · rw [texts, List.getD_eq_getElem _ _ hi] at h
      exact ⟨hi, h⟩
    · rw [texts, List.getD_eq_default _ _ (by omega)] at h
      cases h
  have hflatten {i : ℕ} (h : t ∈ (symbol i).texts values) : t ∈ values.flatten := by
    obtain ⟨hi, hmem⟩ := hvalue h
    exact List.mem_flatten.2 ⟨_, List.getElem_mem hi, hmem⟩
  cases a with
  | symbol i =>
    cases b with
    | symbol j =>
      obtain ⟨hi, hti⟩ := hvalue hta
      obtain ⟨hj, htj⟩ := hvalue htb
      have hapart := List.pairwise_iff_getElem.1 (List.nodup_flatten.1 hdistinct).2
      rcases Nat.lt_trichotomy i j with hlt | rfl | hlt
      · exact absurd htj (hapart i j hi hj hlt hti)
      · rfl
      · exact absurd hti (hapart j i hj hi hlt htj)
    | literal c =>
      obtain rfl := List.mem_singleton.1 htb
      exact absurd (hflatten hta) (hb c rfl)
  | literal c =>
    obtain rfl := List.mem_singleton.1 hta
    cases b with
    | symbol j => exact absurd (hflatten htb) (ha c rfl)
    | literal d => rw [(List.cons.inj (List.mem_singleton.1 htb)).1]

/-- The combinations for atoms are all different if the texts of each are different single
characters. -/
theorem nodup_combinations (hsingle : ∀ a : Atom, ∀ u ∈ a.texts values, u.length = 1)
    (hnodup : ∀ a : Atom, (a.texts values).Nodup) (atoms : List Atom) :
    (Atom.combinations (values.map List.toArray).toArray atoms).Nodup := by
  induction atoms with
  | nil => exact List.nodup_singleton _
  | cons a atoms ih =>
    rw [Atom.combinations_cons, concatenations, List.nodup_flatMap]
    constructor
    · intro u _
      exact ih.map (List.append_right_injective u)
    · refine (hnodup a).imp_of_mem fun {u v} hu hv hne => ?_
      rintro t ht ht'
      obtain ⟨s, -, rfl⟩ := List.mem_map.1 ht
      obtain ⟨s', -, heq⟩ := List.mem_map.1 ht'
      have hlength : v.length = u.length := by rw [hsingle a v hv, hsingle a u hu]
      exact hne (List.append_inj_left heq hlength).symm

/-- A string that is a combination for two lists of atoms shows that they are the same, if no two of
their atoms may become the same. -/
theorem eq_of_mem_combinations (hsingle : ∀ a : Atom, ∀ u ∈ a.texts values, u.length = 1)
    {atoms atoms' : List Atom} (hapart : ∀ a ∈ atoms, ∀ b ∈ atoms', ∀ t ∈ a.texts values,
      t ∈ b.texts values → a = b) {t : Text}
    (ht : t ∈ Atom.combinations (values.map List.toArray).toArray atoms)
    (ht' : t ∈ Atom.combinations (values.map List.toArray).toArray atoms') : atoms = atoms' := by
  rw [Atom.mem_combinations] at ht ht'
  have hplaces := forall₂_of_mem_prod hsingle ht
  have hplaces' := forall₂_of_mem_prod hsingle ht'
  clear ht ht'
  induction hplaces generalizing atoms' with
  | nil =>
    cases hplaces'
    rfl
  | cons ha _ ih =>
    cases hplaces' with
    | cons hb hrest =>
      rw [hapart _ List.mem_cons_self _ List.mem_cons_self _ ha hb,
        ih (fun a ha b hb => hapart a (List.mem_cons_of_mem _ ha) b (List.mem_cons_of_mem _ hb))
          hrest]

end Atom

namespace Formula

variable {f : Formula}

/-- A bounded formula gives no string twice if the values are single characters, all different ones,
and no literal that its pattern can write is a value. -/
theorem nodup_strings (hbounded : f.pattern.isUnbounded = false)
    (hsingle : ∀ vs ∈ f.legend.values, ∀ v ∈ vs, v.length = 1)
    (hdistinct : f.legend.values.flatten.Nodup)
    (hliteral : ∀ c, .literal c ∈ f.pattern.atoms → [c] ∉ f.legend.values.flatten) :
    ∃ l ts, f.strings = .ok l ∧ Yields Listing.next? l ts ∧ ts.Nodup := by
  obtain ⟨l, hl, hyields⟩ := strings_yields_listing hbounded
  refine ⟨l, f.listing, hl, hyields, ?_⟩
  have hatoms (w : List Atom) (hw : w ∈ f.pattern.listing.eraseDups) :
      ∀ a ∈ w, a ∈ f.pattern.atoms := by
    rw [List.mem_eraseDups, ← mem_listed, f.pattern.listed_listing hbounded] at hw
    exact f.pattern.mem_atoms_of_mem_language w hw
  rw [listing, List.nodup_flatMap]
  constructor
  · intro w _
    exact Atom.nodup_combinations (Atom.length_eq_one hsingle)
      (Atom.nodup_texts (List.nodup_flatten.1 hdistinct).1) w
  · refine (nodup_eraseDups f.pattern.listing).imp_of_mem fun {w w'} hw hw' hne => ?_
    intro t ht ht'
    refine hne (Atom.eq_of_mem_combinations (Atom.length_eq_one hsingle) ?_ ht ht')
    intro a ha b hb u hua hub
    refine Atom.eq_of_mem_texts hdistinct (fun c hc => hliteral c ?_) (fun c hc => hliteral c ?_)
      hua hub
    · exact hc ▸ hatoms w hw a ha
    · exact hc ▸ hatoms w' hw' b hb

/-- Many ways lead to the same candidates here.  The literal without a copy is a value, but it is
never written. -/
theorem nodup_strings_ambiguous :
    let i : Ingredient := ⟨['B'], [['k'], ['g']]⟩
    let f : Formula := ⟨['(', 'a', '|', 'a', '?', '|', '[', 'y', 'a', ']', ')', '{', '2', '}',
        'k', '{', '0', '}'],
      [[⟨.exactly 2, .group [[⟨.once, .symbol 0⟩], [⟨.optional, .symbol 0⟩],
          [⟨.once, .oneOf [.literal 'y', .symbol 0]⟩]]⟩, ⟨.exactly 0, .literal 'k'⟩]],
      ⟨[('a', i)]⟩⟩
    ofLine ['(', 'B', '|', 'B', '?', '|', '[', 'y', ' ', 'B', ']', ')', '{', '2', '}',
        'k', '{', '0', '}'] (Pantry.ofList [i]) {} = .ok f ∧
      f.pattern.isUnbounded = false ∧ (∀ vs ∈ f.legend.values, ∀ v ∈ vs, v.length = 1) ∧
      f.legend.values.flatten.Nodup ∧
      (∀ c, .literal c ∈ f.pattern.atoms → [c] ∉ f.legend.values.flatten) ∧
      ∃ l ts, f.strings = .ok l ∧ Yields Listing.next? l ts ∧ ts.Nodup := by
  intro i f
  have h : ofLine ['(', 'B', '|', 'B', '?', '|', '[', 'y', ' ', 'B', ']', ')', '{', '2', '}',
      'k', '{', '0', '}'] (Pantry.ofList [i]) {} = .ok f :=
    ofLine_eq_ok_iff.2 ⟨Legend.ofPantry_singleton (by simp [i]), by decide +kernel, by cbv⟩
  have hsingle : ∀ vs ∈ f.legend.values, ∀ v ∈ vs, v.length = 1 := by decide
  have hdistinct : f.legend.values.flatten.Nodup := by decide
  have hatoms : f.pattern.atoms = [.symbol 0, .symbol 0, .literal 'y', .symbol 0] := by decide
  have hliteral : ∀ c, .literal c ∈ f.pattern.atoms → [c] ∉ f.legend.values.flatten := by
    intro c hc
    rw [hatoms] at hc
    obtain rfl : c = 'y' := by simpa using hc
    decide
  exact ⟨h, rfl, hsingle, hdistinct, hliteral, nodup_strings rfl hsingle hdistinct hliteral⟩

end Formula

end Confection
