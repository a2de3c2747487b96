import Mathlib
import Confection.Proofs.Formula.Strings

/-!
# The order and the number of the strings

The strings of a bounded formula come candidate by candidate, in the order in which the search gives
the candidates.  For one candidate a text is selected for each of its atoms, in all ways, and the
selections come in lexicographic order, so the last place varies fastest.  A literal has one text
and a symbol as many as its ingredient has values, so the number of strings is the sum over the
candidates of the products of the numbers of values.  `Listing.count` finds it without making any
string.

## Shape of the proof

* A selection is a list of places, one for each atom.  `selections sizes` are all of them, and
  `pairwise_selections` says that they ascend.
* The combinations for a list of atoms are the texts of the selections, in this order
  (`combinations_eq_map_selected`), so both orders and numbers can be read off the selections.
-/

namespace Confection

/-! ## Selections -/

/-- All lists of numbers that lie below the sizes, place by place. -/
def selections : List ℕ → List (List ℕ)
  | [] => [[]]
  | size :: sizes => (List.range size).flatMap fun k => (selections sizes).map (k :: ·)

theorem mem_selections {sizes places : List ℕ} :
    places ∈ selections sizes ↔ List.Forall₂ (fun size k => k < size) sizes places := by
  induction sizes generalizing places with
  | nil => simp [selections]
  | cons size sizes ih =>
    simp only [selections, List.mem_flatMap, List.mem_range, List.mem_map, ih,
      List.forall₂_cons_left_iff]
    constructor
    · rintro ⟨k, hk, rest, hrest, rfl⟩
      exact ⟨k, rest, hk, hrest, rfl⟩
    · rintro ⟨k, rest, hk, hrest, rfl⟩
      exact ⟨k, hk, rest, hrest, rfl⟩

/-- Each selection comes before the next one in lexicographic order. -/
theorem pairwise_selections (sizes : List ℕ) : (selections sizes).Pairwise (· < ·) := by
  induction sizes with
  | nil => exact List.pairwise_singleton _ _
  | cons size sizes ih =>
    rw [selections, List.pairwise_flatMap]
    constructor
    · -- behind one and the same first place
      intro k _
      rw [List.pairwise_map]
      exact ih.imp fun h => List.cons_lt_cons_iff.2 (Or.inr ⟨rfl, h⟩)
    · -- behind a smaller and a greater one
      refine List.pairwise_lt_range.imp fun {j k} hjk places hplaces places' hplaces' => ?_
      obtain ⟨rest, -, rfl⟩ := List.mem_map.1 hplaces
      obtain ⟨rest', -, rfl⟩ := List.mem_map.1 hplaces'
      exact List.cons_lt_cons_iff.2 (Or.inl hjk)

theorem length_selections (sizes : List ℕ) : (selections sizes).length = sizes.prod := by
  induction sizes with
  | nil => rfl
  | cons size sizes ih =>
    simp [selections, List.length_flatMap, ih]

namespace Atom

variable {values : SymbolValues}

/-- The numbers of texts that the atoms may become. -/
def sizes (values : SymbolValues) (atoms : List Atom) : List ℕ :=
  atoms.map fun a => (a.texts values).length

/-- The text made of one text for each atom, the one at the given place among those that it may
become. -/
def selected (values : SymbolValues) (atoms : List Atom) (places : List ℕ) : Text :=
  (List.zipWith (fun a k => (a.texts values).getD k []) atoms places).flatten

/-- The texts are those of all selections from the atoms, each selection once and in lexicographic
order. -/
structure Enumerates (values : SymbolValues) (atoms : List Atom) (order : List (List ℕ))
    (ts : List Text) : Prop where
  texts : ts = order.map (selected values atoms)
  ascending : order.Pairwise (· < ·)
  all : ∀ places, places ∈ order ↔
    List.Forall₂ (fun a k => k < (a.texts values).length) atoms places

/-- The symbols among the atoms, each as often as it occurs. -/
def symbols (atoms : List Atom) : List ℕ :=
  atoms.filterMap fun
    | .symbol i => some i
    | .literal _ => none

private theorem map_getD_range_length (ts : List Text) :
    (List.range ts.length).map (ts.getD · []) = ts := by
  refine List.ext_getElem (by simp) fun i _ hi => ?_
  simp [hi]

/-- The combinations for atoms are the texts of the selections from them. -/
theorem combinations_eq_map_selected (values : SymbolValues) (atoms : List Atom) :
    Atom.combinations (values.map List.toArray).toArray atoms =
      (selections (sizes values atoms)).map (selected values atoms) := by
  induction atoms with
  | nil => rfl
  | cons a atoms ih =>
    have hsizes : sizes values (a :: atoms) = (a.texts values).length :: sizes values atoms := rfl
    rw [combinations_cons, ih, concatenations, hsizes, selections, List.map_flatMap]
    nth_rewrite 1 [← map_getD_range_length (a.texts values)]
    rw [List.flatMap_map]
    refine List.flatMap_congr fun k _ => ?_
    rw [List.map_map, List.map_map]
    rfl

/-- The combinations for atoms enumerate the selections from them. -/
theorem enumerates_combinations (values : SymbolValues) (atoms : List Atom) :
    Enumerates values atoms (selections (sizes values atoms))
      (Atom.combinations (values.map List.toArray).toArray atoms) where
  texts := combinations_eq_map_selected values atoms
  ascending := pairwise_selections _
  all places := by rw [mem_selections, sizes, List.forall₂_map_left_iff]

/-- Only symbols count in the number of selections, since a literal has one text. -/
theorem prod_sizes (values : SymbolValues) (atoms : List Atom) :
    (sizes values atoms).prod = ((symbols atoms).map fun i => (values.getD i []).length).prod := by
  induction atoms with
  | nil => rfl
  | cons a atoms ih =>
    rw [sizes, List.map_cons, List.prod_cons]
    cases a with
    | symbol i => exact congrArg _ ih
    | literal c => exact (Nat.one_mul _).trans ih

theorem length_combinations (values : SymbolValues) (atoms : List Atom) :
    (Atom.combinations (values.map List.toArray).toArray atoms).length =
      ((symbols atoms).map fun i => (values.getD i []).length).prod := by
  rw [combinations_eq_map_selected, List.length_map, length_selections, prod_sizes]

end Atom

/-! ## Counting without listing -/

namespace Listing

theorem size_atCandidate (values : Array (Array Text)) (atoms : List Atom) (search : Search) :
    (atCandidate values atoms search).size = (Atom.combinations values atoms).length := by
  rw [Atom.combinations, ← Choices.map_combination_range, List.length_map, List.length_range]
  rfl

/-- What a search leads to is counted candidate by candidate. -/
theorem countFrom_eq {values : Array (Array Text)} {search : Search}
    {candidates : List (List Atom)} (h : Yields Search.next? search candidates) (n : ℕ) :
    countFrom values n search =
      n + (candidates.flatMap (Atom.combinations values)).length := by
  induction candidates generalizing search n with
  | nil =>
    have hnone := yields_nil_iff.1 h
    rw [countFrom]
    split
    · rfl
    · next hsome => rw [hnone] at hsome; cases hsome
  | cons atoms candidates ih =>
    obtain ⟨search', hnext, hsearch⟩ := yields_cons_iff.1 h
    rw [countFrom]
    split
    · next hnone => rw [hnext] at hnone; cases hnone
    · next hsome =>
      rw [hnext] at hsome
      cases hsome
      rw [ih hsearch, size_atCandidate, List.flatMap_cons, List.length_append, Nat.add_assoc]

/-- The number of strings that a listing still gives is the number of those it is followed to. -/
theorem count_eq {l : Listing} {candidates : List (List Atom)}
    (h : Yields Search.next? l.search candidates) :
    l.count = (l.left ++ candidates.flatMap (Atom.combinations l.values)).length := by
  rw [List.length_append, left, List.length_map, List.length_range']
  exact countFrom_eq h _

end Listing

namespace Formula

variable {f : Formula}

/-- The combinations of values for the symbols of a candidate. -/
def combinations (f : Formula) (atoms : List Atom) : List Text :=
  Atom.combinations (f.legend.values.map List.toArray).toArray atoms

/-- The strings of a bounded formula come candidate by candidate, in the order in which the search
gives the candidates, which are all different.  For one candidate they are all combinations of a
value for each symbol that occurs, in lexicographic order.  So the number of strings is the sum over
the candidates of the products of the numbers of values, and this is what a listing counts. -/
theorem strings_yields_combinations (hbounded : f.pattern.isUnbounded = false) :
    ∃ search candidates l, f.pattern.candidates? = some search ∧
      Yields Search.next? search candidates ∧ candidates.Nodup ∧
      f.strings = .ok l ∧ Yields Listing.next? l (candidates.flatMap f.combinations) ∧
      (∀ atoms, ∃ order, Atom.Enumerates f.legend.values atoms order (f.combinations atoms)) ∧
      (candidates.flatMap f.combinations).length = (candidates.map fun atoms =>
        ((Atom.symbols atoms).map fun i => (f.legend.values.getD i []).length).prod).sum ∧
      l.count = (candidates.flatMap f.combinations).length := by
  have hsearch : f.pattern.candidates? = some (.start f.pattern) := by
    rw [Pattern.candidates?, hbounded]
    rfl
  have hcandidates := Search.start_yields f.pattern
  obtain ⟨l, hl, hyields⟩ := strings_yields_listing hbounded
  refine ⟨_, _, l, hsearch, hcandidates, nodup_eraseDups _, hl, hyields, fun atoms => ?_, ?_, ?_⟩
  · exact ⟨_, Atom.enumerates_combinations f.legend.values atoms⟩
  · simp only [List.length_flatMap, combinations, Atom.length_combinations]
  · rw [strings, hsearch] at hl
    cases hl
    rw [Listing.count_eq hcandidates, Listing.left_start, List.nil_append]
    rfl

/-- Two optional copies of a name: the second value does not depend on the first, and the two ways
to write one copy count once. -/
theorem strings_yields_combinations_copies :
    let i : Ingredient := ⟨['B'], [['k'], ['g']]⟩
    let f : Formula := ⟨['(', 'a', '?', ')', '{', '2', '}'],
      [[⟨.exactly 2, .group [[⟨.optional, .symbol 0⟩]]⟩]], ⟨[('a', i)]⟩⟩
    ofLine ['(', 'B', '?', ')', '{', '2', '}'] (Pantry.ofList [i]) {} = .ok f ∧
      f.pattern.isUnbounded = false ∧
      ∃ l, f.strings = .ok l ∧ l.count = 1 + 2 + 2 * 2 ∧ Yields Listing.next? l
        [[], ['k'], ['g'], ['k', 'k'], ['k', 'g'], ['g', 'k'], ['g', 'g']] := by
  intro i f
  have h : ofLine ['(', 'B', '?', ')', '{', '2', '}'] (Pantry.ofList [i]) {} = .ok f :=
    ofLine_eq_ok_iff.2 ⟨Legend.ofPantry_singleton (by simp [i]), by decide +kernel, by cbv⟩
  obtain ⟨search, candidates, l, hsearch, hcandidates, -, hl, hyields, -, hlength, hcount⟩ :=
    strings_yields_combinations (f := f) rfl
  obtain rfl : Search.start f.pattern = search := Option.some.inj hsearch
  have hlisting : f.pattern.listing.eraseDups = [[], [.symbol 0], [.symbol 0, .symbol 0]] := by
    decide
  obtain rfl := (hlisting ▸ Search.start_yields f.pattern).unique hcandidates
  exact ⟨h, rfl, l, hl, hcount.trans hlength, hyields⟩

end Formula

end Confection
