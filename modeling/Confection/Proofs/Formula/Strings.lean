import Confection.Formula.Strings
import Confection.Proofs.Formula.Basic
import Confection.Proofs.Pattern.Candidates

/-!
# The listing of a formula is its language

The lazy listing of a bounded formula is the plain one: for every candidate of the search, in order,
all combinations of a value for each of its symbols, the last symbol varying fastest.  Its strings
are those that the formula accepts.  The listing and the matcher have no code in common; they meet
in the language of the pattern.

## Shape of the proof

* A number below the number of combinations, divided by the number of combinations of all places but
  the first, gives the place of the first value, and the remainder numbers the combination of the
  others.  So `combination` counts through `Choices.combinations` (`map_combination_range`).
* `Listing.yields` follows a listing to its end.  The induction is on the candidates to come and,
  within a candidate, on the combinations that are left of it.
* The combinations for a list of atoms are the texts that the atoms become (`listed_combinations`),
  and the candidates are the words of the pattern's language of atoms, so the strings are the words
  of its language of texts (`Pattern.language_eq_substitute`).
-/

namespace Confection

namespace Choices

/-! ## All combinations -/

/-- All combinations, in lexicographic order of the places of the values. -/
def combinations : Choices → List Text
  | [] => [[]]
  | values :: rest => concatenations values.toList (combinations rest)

variable {values : Array Text} {choices : Choices}

theorem count_cons (values : Array Text) (choices : Choices) :
    count (values :: choices) = values.size * count choices := by
  have hfoldl (n : ℕ) : choices.foldl (fun n values => n * values.size) n = n * count choices := by
    induction choices generalizing n with
    | nil => simp [count]
    | cons values choices ih =>
      rw [count, List.foldl_cons, List.foldl_cons, ih, ih (1 * _), one_mul, Nat.mul_assoc]
  rw [count, List.foldl_cons, hfoldl, one_mul]

theorem combinationFrom_cons (values : Array Text) (choices : Choices) (number : ℕ) :
    combinationFrom (values :: choices) number =
      (values.getD ((combinationFrom choices number).2 % values.size) [] ++
          (combinationFrom choices number).1,
        (combinationFrom choices number).2 / values.size) := rfl

/-- The lower digits of a number make the combination, and the higher ones are left. -/
theorem combinationFrom_mul_add (choices : Choices) (i : ℕ) {j : ℕ} (hj : j < count choices) :
    combinationFrom choices (i * count choices + j) = (combination choices j, i) := by
  induction choices generalizing i j with
  | nil =>
    obtain rfl : j = 0 := by simpa [count] using hj
    simp [combinationFrom, combination, count]
  | cons values choices ih =>
    rw [count_cons] at hj ⊢
    have hpos : 0 < count choices := Nat.pos_of_mul_pos_left (Nat.zero_lt_of_lt hj)
    have hdigit : j / count choices < values.size := Nat.div_lt_of_lt_mul (by rwa [Nat.mul_comm])
    -- the other places leave the digit of the first, and above it `n`
    have hrest (n : ℕ) : combinationFrom choices (n * count choices + j) =
        (combination choices (j % count choices), n + j / count choices) := by
      rw [← ih _ (Nat.mod_lt j hpos), Nat.add_mul, Nat.add_assoc, Nat.div_add_mod']
    have hfirst := hrest 0
    rw [Nat.zero_mul, Nat.zero_add, Nat.zero_add] at hfirst
    rw [combination, combinationFrom_cons, combinationFrom_cons, hfirst, ← Nat.mul_assoc, hrest]
    simp only [Nat.mul_add_mod', Nat.mod_eq_of_lt hdigit]
    rw [Nat.mul_comm, Nat.mul_add_div (Nat.zero_lt_of_lt hdigit), Nat.div_eq_of_lt hdigit,
      Nat.add_zero]

/-- A combination begins with the value that the highest digit of its number stands for. -/
theorem combination_mul_add {i j : ℕ} (hi : i < values.size) (hj : j < count choices) :
    combination (values :: choices) (i * count choices + j) =
      values.getD i [] ++ combination choices j := by
  rw [combination, combinationFrom_cons, combinationFrom_mul_add choices i hj,
    Nat.mod_eq_of_lt hi]

/-- The numbers below a product, in rows. -/
private theorem range_mul (m n : ℕ) :
    List.range (m * n) = (List.range m).flatMap fun i => (List.range n).map (i * n + ·) := by
  induction m with
  | zero => simp
  | succ m ih => rw [Nat.succ_mul, List.range_add, ih, List.range_succ]; simp

private theorem map_getD_range (values : Array Text) :
    (List.range values.size).map (values.getD · []) = values.toList := by
  refine List.ext_getElem (by simp) fun i _ hi => ?_
  rw [Array.length_toList] at hi
  simp [Array.getD, hi]

/-- The numbers below the number of combinations make all combinations, in order. -/
theorem map_combination_range (choices : Choices) :
    (List.range choices.count).map choices.combination = choices.combinations := by
  induction choices with
  | nil => rfl
  | cons values choices ih =>
    rw [count_cons, range_mul, List.map_flatMap, combinations, concatenations, ← ih,
      ← map_getD_range, List.flatMap_map]
    refine List.flatMap_congr fun i hi => ?_
    rw [List.map_map, List.map_map]
    refine List.map_congr_left fun j hj => ?_
    exact combination_mul_add (List.mem_range.1 hi) (List.mem_range.1 hj)

end Choices

/-! ## The lazy listing -/

/-- The texts that a list of atoms becomes, in order. -/
def Atom.combinations (values : Array (Array Text)) (atoms : List Atom) : List Text :=
  Choices.combinations (atoms.map (Atom.choices values))

namespace Listing

/-- The combinations of the current candidate that are still to come. -/
def left (l : Listing) : List Text :=
  (List.range' l.number (l.size - l.number)).map l.current.combination

/-- The listing after all combinations of the current candidate. -/
def skip (l : Listing) : Listing := { l with number := l.size }

variable {l : Listing}

theorem left_of_lt (h : l.number < l.size) :
    l.left = l.current.combination l.number :: left { l with number := l.number + 1 } := by
  have hsize : l.size - l.number = l.size - (l.number + 1) + 1 := by omega
  rw [left, hsize, List.range'_succ]
  rfl

theorem left_of_not_lt (h : ¬ l.number < l.size) : l.left = [] := by
  simp [left, Nat.sub_eq_zero_of_le (Nat.not_lt.1 h)]

theorem left_start (values : List (List Text)) (search : Search) :
    (start values search).left = [] :=
  left_of_not_lt (Nat.lt_irrefl 1)

theorem left_atCandidate (values : Array (Array Text)) (atoms : List Atom) (search : Search) :
    (atCandidate values atoms search).left = Atom.combinations values atoms := by
  rw [Atom.combinations, ← Choices.map_combination_range, List.range_eq_range']
  rfl

theorem next?_of_lt (h : l.number < l.size) :
    l.next? = some (l.current.combination l.number, { l with number := l.number + 1 }) := by
  rw [next?, if_pos h]

theorem next?_of_not_lt (h : ¬ l.number < l.size) : l.next? = l.skip.next? := by
  rw [skip, next?, next?, if_neg h, if_neg (Nat.lt_irrefl _)]

theorem next?_skip_of_none (h : l.search.next? = none) : l.skip.next? = none := by
  rw [skip, next?, if_neg (Nat.lt_irrefl _)]
  split
  · rfl
  · next hsome => rw [h] at hsome; cases hsome

theorem next?_skip_of_some {atoms : List Atom} {search : Search}
    (h : l.search.next? = some (atoms, search)) :
    l.skip.next? = (atCandidate l.values atoms search).next? := by
  rw [skip, next?, if_neg (Nat.lt_irrefl _)]
  split
  · next hnone => rw [h] at hnone; cases hnone
  · next hsome => rw [h] at hsome; cases hsome; rfl

/-- A listing yields what is left of the current candidate before anything else. -/
private theorem yields_left {ts : List Text} (h : Yields next? l.skip ts) :
    Yields next? l (l.left ++ ts) := by
  induction hleft : l.size - l.number generalizing l with
  | zero =>
    have hlt : ¬ l.number < l.size := by omega
    rw [left_of_not_lt hlt]
    exact h.of_next_eq (next?_of_not_lt hlt)
  | succ n ih =>
    have hlt : l.number < l.size := by omega
    have hleft' : l.size - (l.number + 1) = n := by omega
    rw [left_of_lt hlt]
    exact yields_cons_iff.2 ⟨_, next?_of_lt hlt, ih h hleft'⟩

/-- A listing yields what is left of the current candidate, and then all combinations of each
candidate that its search yields. -/
theorem yields {candidates : List (List Atom)} (h : Yields Search.next? l.search candidates) :
    Yields next? l (l.left ++ candidates.flatMap (Atom.combinations l.values)) := by
  induction candidates generalizing l with
  | nil => exact yields_left (yields_nil_iff.2 (next?_skip_of_none (yields_nil_iff.1 h)))
  | cons atoms candidates ih =>
    obtain ⟨search, hnext, hsearch⟩ := yields_cons_iff.1 h
    have hcandidate := ih (l := atCandidate l.values atoms search) hsearch
    rw [left_atCandidate] at hcandidate
    exact yields_left (hcandidate.of_next_eq (next?_skip_of_some hnext))

end Listing

/-! ## Strings and the language of the pattern -/

/-- The combinations for a list of atoms are the texts that the atoms become. -/
theorem listed_combinations (choices : Choices) :
    listed choices.combinations = (choices.map fun values => listed values.toList).prod := by
  induction choices with
  | nil => exact Language.ext fun t => by simp [mem_listed, Choices.combinations]
  | cons values choices ih =>
    rw [Choices.combinations, listed_concatenations, ih, List.map_cons, List.prod_cons]

/-- The choices for an atom are the texts that it may become. -/
theorem Atom.toList_choices (values : SymbolValues) (a : Atom) :
    (a.choices (values.map List.toArray).toArray).toList = a.texts values := by
  cases a with
  | symbol i =>
    by_cases hi : i < values.length <;> simp [Atom.choices, Atom.texts, hi]
  | literal c => rfl

/-- The combinations for atoms begin with a text of the first and go on with a combination for the
others. -/
theorem Atom.combinations_cons (values : SymbolValues) (a : Atom) (atoms : List Atom) :
    Atom.combinations (values.map List.toArray).toArray (a :: atoms) =
      concatenations (a.texts values)
        (Atom.combinations (values.map List.toArray).toArray atoms) := by
  rw [← Atom.toList_choices]
  rfl

theorem Atom.mem_combinations {values : SymbolValues} {atoms : List Atom} {t : Text} :
    t ∈ Atom.combinations (values.map List.toArray).toArray atoms ↔
      t ∈ (atoms.map (Atom.strings values)).prod := by
  rw [← mem_listed, Atom.combinations, listed_combinations, List.map_map]
  simp only [Function.comp_def, Atom.toList_choices]
  rfl

namespace Formula

variable {f : Formula}

/-- All strings of a formula with a bounded pattern: for each candidate, in the order of the plain
listing, all combinations of values for its symbols. -/
def listing (f : Formula) : List Text :=
  f.pattern.listing.eraseDups.flatMap
    (Atom.combinations (f.legend.values.map List.toArray).toArray)

/-- The plain listing of a bounded formula has the texts of its pattern. -/
theorem mem_listing (h : f.pattern.isUnbounded = false) {t : Text} :
    t ∈ f.listing ↔ t ∈ f.pattern.language (Atom.strings f.legend.values) := by
  rw [Pattern.language_eq_substitute, ← f.pattern.listed_listing h, mem_substitute, listing,
    List.mem_flatMap]
  simp only [List.mem_eraseDups, mem_listed, Atom.mem_combinations]

/-- The lazy listing of a bounded formula ends, and is the plain one. -/
theorem strings_yields_listing (h : f.pattern.isUnbounded = false) :
    ∃ l, f.strings = .ok l ∧ Yields Listing.next? l f.listing := by
  refine ⟨.start f.legend.values (.start f.pattern), ?_, ?_⟩
  · rw [strings, Pattern.candidates?, h]
    rfl
  · have hyields := Listing.yields (l := .start f.legend.values (.start f.pattern))
      (Search.start_yields f.pattern)
    rwa [Listing.left_start, List.nil_append] at hyields

/-- The lazy listing of a bounded formula ends.  It is the plain one, and its strings are those that
the formula accepts. -/
theorem strings_yields_accepted {line : Text} {pantry : Pantry} {settings : Settings}
    (h : ofLine line pantry settings = .ok f) (hbounded : f.pattern.isUnbounded = false) :
    ∃ l, f.strings = .ok l ∧ Yields Listing.next? l f.listing ∧
      ∀ t, t ∈ f.listing ↔ f.accepts t = true := by
  obtain ⟨l, hl, hyields⟩ := strings_yields_listing hbounded
  refine ⟨l, hl, hyields, fun t => ?_⟩
  rw [mem_listing hbounded, (wellFormed_of_ofLine h).accepts_iff]

/-- One value is empty, and one begins another and ends with what may follow it. -/
theorem strings_yields_accepted_overlapping :
    let i : Ingredient := ⟨['B'], [[], ['k'], ['k', 'g']]⟩
    let f : Formula := ⟨['a', 'g', '?'], [[⟨.once, .symbol 0⟩, ⟨.optional, .literal 'g'⟩]],
      ⟨[('a', i)]⟩⟩
    ofLine ['B', ' ', 'g', '?'] (Pantry.ofList [i]) {} = .ok f ∧
      ∃ l, f.strings = .ok l ∧
        Yields Listing.next? l [[], ['k'], ['k', 'g'], ['g'], ['k', 'g'], ['k', 'g', 'g']] ∧
        f.accepts ['k', 'g'] = true ∧ f.accepts ['g', 'k'] = false := by
  intro i f
  have h : ofLine ['B', ' ', 'g', '?'] (Pantry.ofList [i]) {} = .ok f :=
    ofLine_eq_ok_iff.2 ⟨Legend.ofPantry_singleton (by simp [i]), by decide +kernel, by cbv⟩
  have hlisting : f.listing = [[], ['k'], ['k', 'g'], ['g'], ['k', 'g'], ['k', 'g', 'g']] := by
    decide
  obtain ⟨l, hl, hyields, hmem⟩ := strings_yields_accepted h rfl
  rw [hlisting] at hyields
  refine ⟨h, l, hl, hyields, (hmem _).1 (by decide), ?_⟩
  rw [← Bool.not_eq_true, ← hmem, hlisting]
  decide

end Formula

end Confection
