import Confection.Legend

/-!
# The legend of a pantry

`ofPantry_eq_ok_iff` says for which pantries there is a legend, and which one it is.  What is used
of the letters later is only that they are different ones of `letters`, `Lettered`: the letter for a
name is then the symbol with the number of the name.
-/

namespace Confection.Legend

theorem mem_assignmentOrder {p : Pantry} {i : Ingredient} :
    i ∈ assignmentOrder p ↔ i ∈ p.ingredients :=
  (List.mergeSort_perm ..).mem_iff

theorem length_assignmentOrder (p : Pantry) : (assignmentOrder p).length = p.size :=
  (List.mergeSort_perm ..).length_eq

/-- A pantry has a legend exactly if there are letters enough and every ingredient has values. -/
theorem ofPantry_eq_ok_iff {p : Pantry} {l : Legend} :
    ofPantry p = .ok l ↔
      p.size ≤ letters.length ∧ (∀ i ∈ p.ingredients, i.values ≠ []) ∧
      l = ⟨letters.zip (assignmentOrder p)⟩ := by
  have hfind : (assignmentOrder p).find? (·.values.isEmpty) = none ↔
      ∀ i ∈ p.ingredients, i.values ≠ [] := by
    simp only [List.find?_eq_none, mem_assignmentOrder, List.isEmpty_iff, ne_eq]
  unfold ofPantry
  split
  · next hsize =>
    constructor
    · intro h
      cases h
    · rintro ⟨hle, -⟩
      omega
  next hsize =>
  rw [← hfind]
  dsimp only
  split
  · next hsome => rw [hsome]; simp
  · next hnone => rw [hnone]; simp [eq_comm, Nat.not_lt.1 hsize]

/-- The symbols of a legend that is made from a pantry have values. -/
theorem values_ne_nil {p : Pantry} {l : Legend} (h : ofPantry p = .ok l) :
    ∀ vs ∈ l.values, vs ≠ [] := by
  obtain ⟨-, hvalues, rfl⟩ := ofPantry_eq_ok_iff.1 h
  intro vs hvs
  obtain ⟨⟨c, i⟩, hentry, rfl⟩ := List.mem_map.1 hvs
  exact hvalues i (mem_assignmentOrder.1 (List.of_mem_zip hentry).2)

/-- Where every ingredient has values, letters can only run out. -/
theorem eq_of_ofPantry_eq_error {p : Pantry} {e : Error} (hp : ∀ i ∈ p.ingredients, i.values ≠ [])
    (h : ofPantry p = .error e) : e = .tooManyIngredients p.size := by
  have hsize : letters.length < p.size := by
    refine Nat.lt_of_not_le fun hle => ?_
    rw [ofPantry_eq_ok_iff.2 ⟨hle, hp, rfl⟩] at h
    cases h
  rw [ofPantry, if_pos hsize] at h
  cases h
  rfl

/-- Ingredients under new names come after those that are in the pantry. -/
theorem ingredients_foldl_insert {is : List Ingredient} {p : Pantry}
    (h : (p.names ++ is.map (·.name)).Nodup) :
    (is.foldl Pantry.insert p).ingredients = p.ingredients ++ is := by
  induction is generalizing p with
  | nil => simp
  | cons i is ih =>
    have hnew : i.name ∉ p.names := fun hmem =>
      (List.nodup_append.1 h).2.2 _ hmem _ (List.mem_cons_self ..) rfl
    rw [List.foldl_cons, ih, Pantry.ingredients_insert, if_neg hnew, List.append_assoc,
      List.singleton_append]
    rw [Pantry.names_insert, if_neg hnew, List.append_assoc]
    exact h

/-- Ingredients that stand longest names first get the letters in the order in which they stand. -/
theorem ofPantry_ofList {is : List Ingredient} (hnames : (is.map (·.name)).Nodup)
    (horder : is.Pairwise fun i j => j.name.length ≤ i.name.length)
    (hsize : is.length ≤ letters.length) (hvalues : ∀ i ∈ is, i.values ≠ []) :
    ofPantry (Pantry.ofList is) = .ok ⟨letters.zip is⟩ := by
  have hingredients : (Pantry.ofList is).ingredients = is := ingredients_foldl_insert hnames
  have hlength : (Pantry.ofList is).size = is.length := congrArg List.length hingredients
  rw [ofPantry_eq_ok_iff, hlength, hingredients, assignmentOrder, hingredients,
    List.mergeSort_of_pairwise (by simpa using horder)]
  exact ⟨hsize, hvalues, rfl⟩

/-- The legend of a single ingredient gives it the first letter. -/
theorem ofPantry_singleton {i : Ingredient} (h : i.values ≠ []) :
    ofPantry (Pantry.ofList [i]) = .ok ⟨[('a', i)]⟩ :=
  ofPantry_ofList (by simp) (by simp) (show 1 ≤ letters.length by decide) (by simpa using h)

/-- The names of the ingredients, in the order of the letters. -/
def names (l : Legend) : List Text := l.entries.map (·.2.name)

/-- The ingredients of a legend are those of its pantry, in the order of the letters. -/
theorem ingredients_eq {p : Pantry} {l : Legend} (h : ofPantry p = .ok l) :
    l.entries.map (·.2) = assignmentOrder p := by
  obtain ⟨hsize, -, rfl⟩ := ofPantry_eq_ok_iff.1 h
  have hlength := length_assignmentOrder p
  exact List.map_snd_zip (by omega)

/-- The names of a legend are different from one another. -/
theorem nodup_names {p : Pantry} {l : Legend} (h : ofPantry p = .ok l) : l.names.Nodup := by
  have hnames : l.names = (assignmentOrder p).map (·.name) := by
    rw [← ingredients_eq h, List.map_map]
    rfl
  have hperm : ((assignmentOrder p).map (·.name)).Perm p.names := (List.mergeSort_perm ..).map _
  rw [hnames]
  exact hperm.nodup_iff.2 p.nodup_names

/-- What stands in a legend at the number of a name is the ingredient of that name. -/
theorem get?_of_getElem?_names {p : Pantry} {l : Legend} (h : ofPantry p = .ok l) {w : Text}
    {i : Nat} (hi : l.names[i]? = some w) :
    ∃ found, p.get? w = some found ∧ l.values[i]? = some found.values := by
  rw [names, List.getElem?_map, Option.map_eq_some_iff] at hi
  obtain ⟨⟨c, found⟩, hentry, hname⟩ := hi
  have hmem : found ∈ assignmentOrder p := by
    rw [← ingredients_eq h]
    exact List.mem_map.2 ⟨_, List.mem_of_getElem? hentry, rfl⟩
  refine ⟨found, Pantry.get?_eq_some_iff.2 ⟨mem_assignmentOrder.1 hmem, hname⟩, ?_⟩
  rw [values, List.getElem?_map, hentry]
  rfl

/-- The names of a legend are those of its pantry. -/
theorem mem_names_iff {p : Pantry} {l : Legend} (h : ofPantry p = .ok l) {w : Text} :
    w ∈ l.names ↔ ∃ found, p.get? w = some found := by
  constructor
  · intro hw
    obtain ⟨i, hi⟩ := List.mem_iff_getElem?.1 hw
    obtain ⟨found, hfound, -⟩ := get?_of_getElem?_names h hi
    exact ⟨found, hfound⟩
  · rintro ⟨found, hfound⟩
    obtain ⟨hmem, hname⟩ := Pantry.get?_eq_some_iff.1 hfound
    rw [← mem_assignmentOrder, ← ingredients_eq h] at hmem
    obtain ⟨entry, hentry, rfl⟩ := List.mem_map.1 hmem
    exact List.mem_map.2 ⟨entry, hentry, hname⟩

/-- The symbols of the legend are different letters. -/
structure Lettered (l : Legend) : Prop where
  nodup : l.symbols.Nodup
  mem_letters : ∀ c ∈ l.symbols, c ∈ letters

/-- The symbols of a legend that is made from a pantry are different letters. -/
theorem lettered_of_ofPantry {p : Pantry} {l : Legend} (h : ofPantry p = .ok l) : l.Lettered := by
  obtain ⟨-, -, rfl⟩ := ofPantry_eq_ok_iff.1 h
  have hsublist : ((letters.zip (assignmentOrder p)).map (·.1)).Sublist letters := by
    rw [List.zip_eq_zip_take_min, List.map_fst_zip (by simp)]
    exact List.take_sublist _ _
  exact ⟨hsublist.nodup (by decide), fun c hc => hsublist.subset hc⟩

variable {l : Legend} {w : Text}

/-- The letter for a name stands at the number of the name. -/
theorem letterOf?_eq_bind (l : Legend) (w : Text) :
    l.letterOf? w = (l.names.idxOf? w).bind (l.symbols[·]?) := by
  have hnumber : l.names.idxOf? w = l.entries.findIdx? (·.2.name == w) := List.findIdx?_map
  rw [letterOf?, List.find?_eq_bind_findIdx?_getElem?, hnumber]
  cases l.entries.findIdx? (·.2.name == w) <;> simp [symbols]

/-- What is no name has no letter. -/
theorem letterOf?_eq_none (h : l.names.idxOf? w = none) : l.letterOf? w = none := by
  rw [letterOf?_eq_bind, h]
  rfl

/-- The letter for a name is the symbol with the number of the name. -/
theorem Lettered.exists_letter (hl : l.Lettered) {i : Nat} (h : l.names.idxOf? w = some i) :
    ∃ c ∈ l.symbols, l.letterOf? w = some c ∧ l.indexOf? c = some i := by
  obtain ⟨hi, -, -⟩ := List.idxOf?_eq_some_iff.1 h
  have hi' : i < l.symbols.length := by simpa [names, symbols] using hi
  refine ⟨l.symbols[i], List.getElem_mem hi', ?_, ?_⟩
  · rw [letterOf?_eq_bind, h]
    exact List.getElem?_eq_getElem hi'
  · exact List.idxOf?_eq_some_iff.2
      ⟨hi', rfl, fun j hj => List.pairwise_iff_getElem.1 hl.nodup j i (by omega) hi' hj⟩

theorem mem_symbols_of_letterOf? {c : Char} (h : l.letterOf? w = some c) : c ∈ l.symbols := by
  rw [letterOf?_eq_bind, Option.bind_eq_some_iff] at h
  obtain ⟨i, -, hi⟩ := h
  exact List.mem_of_getElem? hi

theorem mem_symbols_of_indexOf? {c : Char} {i : Nat} (h : l.indexOf? c = some i) :
    c ∈ l.symbols :=
  List.isSome_idxOf?.1 (Option.isSome_of_eq_some h)

end Confection.Legend
