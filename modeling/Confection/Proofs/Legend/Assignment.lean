import Mathlib.Data.List.Nodup
import Confection.Proofs.Legend

/-!
# Which ingredient gets which letter

The order in which ingredients get their letters is fixed by two rules: longer names come first,
and of two names of the same length the one that stands first in the pantry.  `IsLetterOrder` says
that of a list of ingredients, and there is one such list for every pantry.

`ofPantry_iff_letterOrder` says by that order alone what a legend is: when there is none and why,
which ingredient each letter stands for, and that names and letters determine each other.
-/

namespace Confection.Legend

/-- Does `i` get its letter before `j`? -/
def ComesBefore (p : Pantry) (i j : Ingredient) : Prop :=
  j.name.length < i.name.length ∨
    j.name.length = i.name.length ∧ p.ingredients.idxOf i < p.ingredients.idxOf j

/-- The list holds each ingredient of the pantry once, in the order of the letters. -/
structure IsLetterOrder (p : Pantry) (order : List Ingredient) : Prop where
  perm : order.Perm p.ingredients
  pairwise : order.Pairwise (ComesBefore p)

variable {p : Pantry} {l : Legend}

/-! ## The order -/

theorem nodup_ingredients (p : Pantry) : p.ingredients.Nodup :=
  List.Nodup.of_map Ingredient.name p.nodup_names

/-- Only one list is in the order of the letters. -/
theorem IsLetterOrder.unique {order other : List Ingredient} (h : IsLetterOrder p order)
    (hother : IsLetterOrder p other) : other = order := by
  refine List.Perm.eq_of_pairwise (fun i j _ _ hij hji => ?_) hother.pairwise h.pairwise
    (hother.perm.trans h.perm.symm)
  -- no two ingredients get their letters before each other
  rcases hij with hij | ⟨_, hij⟩ <;> rcases hji with hji | ⟨_, hji⟩ <;> omega

/-- The comparison by which the ingredients are sorted. -/
private def noShorter (i j : Ingredient) : Bool := j.name.length ≤ i.name.length

/-- A stable sort compares the places where it finds no difference in length. -/
private theorem zipIdxLE_noShorter {a b : Ingredient × Nat} :
    List.zipIdxLE noShorter a b = true ↔ b.1.name.length < a.1.name.length ∨
      b.1.name.length = a.1.name.length ∧ a.2 ≤ b.2 := by
  unfold List.zipIdxLE noShorter
  simp only [decide_eq_true_eq]
  split
  · split
    · rw [decide_eq_true_eq]
      omega
    · simp only [true_iff]
      omega
  · simp only [Bool.false_eq_true, false_iff]
    omega

theorem isLetterOrder_assignmentOrder (p : Pantry) : IsLetterOrder p (assignmentOrder p) := by
  have hperm : (assignmentOrder p).Perm p.ingredients := List.mergeSort_perm ..
  refine ⟨hperm, ?_⟩
  let numbered := p.ingredients.zipIdx.mergeSort (List.zipIdxLE noShorter)
  have horder : assignmentOrder p = numbered.map (·.1) := List.mergeSort_zipIdx.symm
  have hnumber {a : Ingredient × Nat} (ha : a ∈ numbered) :
      a.1 ∈ p.ingredients ∧ p.ingredients.idxOf a.1 = a.2 := by
    have hplace := List.mem_zipIdx_iff_getElem?.1 (List.mem_mergeSort.1 ha)
    obtain ⟨hlt, hentry⟩ := List.getElem?_eq_some_iff.1 hplace
    refine ⟨List.mem_of_getElem? hplace, ?_⟩
    rw [← hentry]
    exact (nodup_ingredients p).idxOf_getElem _ hlt
  have hsorted : numbered.Pairwise fun a b => List.zipIdxLE noShorter a b = true := by
    refine List.pairwise_mergeSort (fun a b c => ?_) (fun a b => ?_) _
    · simp only [zipIdxLE_noShorter]
      omega
    · simp only [Bool.or_eq_true, zipIdxLE_noShorter]
      omega
  have hdistinct : numbered.Pairwise fun a b => a.1 ≠ b.1 := by
    rw [← List.pairwise_map (R := (· ≠ ·)), ← horder]
    exact hperm.nodup_iff.2 (nodup_ingredients p)
  rw [horder, List.pairwise_map]
  refine (hsorted.and hdistinct).imp_of_mem fun ha hb h => ?_
  obtain ⟨hmem, hplace⟩ := hnumber ha
  have hne := mt (List.idxOf_inj hmem).1 h.2
  have hle := zipIdxLE_noShorter.1 h.1
  rw [hplace, (hnumber hb).2] at hne
  rw [ComesBefore, hplace, (hnumber hb).2]
  omega

/-! ## Names and letters -/

/-- The letter for a name is the symbol that has the name's number. -/
theorem letterOf?_eq_some_iff (h : ofPantry p = .ok l) {w : Text} {c : Char} :
    l.letterOf? w = some c ↔ ∃ i, l.indexOf? c = some i ∧ l.names[i]? = some w := by
  have hlettered := lettered_of_ofPantry h
  constructor
  · intro hc
    have hbind := hc
    rw [letterOf?_eq_bind, Option.bind_eq_some_iff] at hbind
    obtain ⟨i, hi, -⟩ := hbind
    obtain ⟨c', -, hletter, hindex⟩ := hlettered.exists_letter hi
    rw [hc, Option.some.injEq] at hletter
    obtain ⟨hlt, hname, -⟩ := List.idxOf?_eq_some_iff.1 hi
    exact ⟨i, hletter ▸ hindex, List.getElem?_eq_some_iff.2 ⟨hlt, hname⟩⟩
  · rintro ⟨i, hindex, hname⟩
    obtain ⟨hlt, hsymbol, -⟩ := List.idxOf?_eq_some_iff.1 hindex
    obtain ⟨hlt', hname⟩ := List.getElem?_eq_some_iff.1 hname
    have hi : l.names.idxOf? w = some i := List.idxOf?_eq_some_iff.2
      ⟨hlt', hname, fun j hj hsame => by
        have := ((nodup_names h).getElem_inj_iff).1 (hsame.trans hname.symm)
        omega⟩
    rw [letterOf?_eq_bind, hi]
    exact List.getElem?_eq_some_iff.2 ⟨hlt, hsymbol⟩

/-- The names with a letter are those of the pantry. -/
theorem isSome_letterOf?_iff (h : ofPantry p = .ok l) {w : Text} :
    (l.letterOf? w).isSome ↔ w ∈ p.names := by
  have hnames : w ∈ l.names ↔ w ∈ p.names := by
    simp only [mem_names_iff h, Pantry.get?_eq_some_iff, Pantry.names, List.mem_map]
  rw [← hnames, letterOf?, Option.isSome_map, List.find?_isSome, names, List.mem_map]
  simp only [beq_iff_eq]

/-! ## The legend of a pantry -/

theorem ofPantry_eq_tooManyIngredients_iff {n : Nat} :
    ofPantry p = .error (.tooManyIngredients n) ↔ letters.length < p.size ∧ n = p.size := by
  unfold ofPantry
  split
  · next hsize => simp [hsize, eq_comm]
  · next hsize =>
    dsimp only
    split <;> simp [hsize]

/-- What is named is the first ingredient without values, in the order of the letters. -/
theorem ofPantry_eq_emptyIngredient_iff {name : Text} :
    ofPantry p = .error (.emptyIngredient name) ↔ p.size ≤ letters.length ∧
      ∃ i, (assignmentOrder p).find? (·.values.isEmpty) = some i ∧ i.name = name := by
  unfold ofPantry
  split
  · next hsize =>
    rw [Except.error.injEq]
    exact ⟨nofun, fun h => absurd hsize (Nat.not_lt.2 h.1)⟩
  · next hsize =>
    dsimp only
    split <;> next hfind => simp [hfind, Nat.not_lt.1 hsize]

/-- The first letters are used, as many as there are ingredients. -/
theorem ofPantry_eq_ok_iff_entries : ofPantry p = .ok l ↔
    p.size ≤ letters.length ∧ (∀ i ∈ p.ingredients, i.values ≠ []) ∧
      l.entries = (letters.take p.size).zip (assignmentOrder p) := by
  rw [ofPantry_eq_ok_iff]
  refine and_congr_right fun hsize => and_congr_right fun _ => ?_
  have hzip : letters.zip (assignmentOrder p) =
      (letters.take p.size).zip (assignmentOrder p) := by
    rw [List.zip_eq_zip_take_min, length_assignmentOrder, Nat.min_eq_right hsize,
      List.take_of_length_le (Nat.le_of_eq (length_assignmentOrder p))]
  obtain ⟨entries⟩ := l
  rw [← hzip, Legend.mk.injEq]

theorem symbols_of_ofPantry (h : ofPantry p = .ok l) : l.symbols = letters.take p.size := by
  obtain ⟨hsize, -, hentries⟩ := ofPantry_eq_ok_iff_entries.1 h
  rw [symbols, hentries]
  refine List.map_fst_zip ?_
  rw [List.length_take, length_assignmentOrder]
  omega

/-- A pantry with more ingredients than letters has no legend, and neither has one with an
ingredient without values, of which the first in the order of the letters is named.  Otherwise each
ingredient has the letter with its place in that order, and the letters in use and the names of the
pantry determine each other. -/
theorem ofPantry_iff_letterOrder (p : Pantry) :
    ∃ order, IsLetterOrder p order ∧ (∀ other, IsLetterOrder p other → other = order) ∧
      (∀ n, ofPantry p = .error (.tooManyIngredients n) ↔ 52 < p.size ∧ n = p.size) ∧
      ((∃ name, ofPantry p = .error (.emptyIngredient name)) ↔
        p.size ≤ 52 ∧ ∃ i ∈ p.ingredients, i.values = []) ∧
      (∀ name, ofPantry p = .error (.emptyIngredient name) →
        ∃ before i after, order = before ++ i :: after ∧ (∀ j ∈ before, j.values ≠ []) ∧
          i.values = [] ∧ i.name = name) ∧
      (∀ l, ofPantry p = .ok l ↔ p.size ≤ 52 ∧ (∀ i ∈ p.ingredients, i.values ≠ []) ∧
        l.entries = (letters.take p.size).zip order) ∧
      ∀ l, ofPantry p = .ok l → l.symbols = letters.take p.size ∧
        l.names = order.map (·.name) ∧ l.values = order.map (·.values) ∧
        (∀ w c, l.letterOf? w = some c ↔ ∃ i, l.indexOf? c = some i ∧ l.names[i]? = some w) ∧
        (∀ w, (l.letterOf? w).isSome ↔ w ∈ p.names) ∧
        ∀ c, (l.indexOf? c).isSome ↔ c ∈ letters.take p.size := by
  have horder := isLetterOrder_assignmentOrder p
  refine ⟨assignmentOrder p, horder, fun _ => horder.unique,
    fun n => ofPantry_eq_tooManyIngredients_iff, ?_, fun name hname => ?_, fun l => ?_,
    fun l hl => ?_⟩
  · constructor
    · rintro ⟨name, hname⟩
      obtain ⟨hsize, i, hi, -⟩ := ofPantry_eq_emptyIngredient_iff.1 hname
      exact ⟨hsize, i, mem_assignmentOrder.1 (List.mem_of_find?_eq_some hi),
        by simpa using List.find?_some hi⟩
    · rintro ⟨hsize, i, hi, hempty⟩
      have hsome : ((assignmentOrder p).find? (·.values.isEmpty)).isSome = true :=
        List.find?_isSome.2 ⟨i, mem_assignmentOrder.2 hi, List.isEmpty_iff.2 hempty⟩
      obtain ⟨first, hfirst⟩ := Option.isSome_iff_exists.1 hsome
      exact ⟨first.name, ofPantry_eq_emptyIngredient_iff.2 ⟨hsize, first, hfirst, rfl⟩⟩
  · obtain ⟨-, i, hi, hname⟩ := ofPantry_eq_emptyIngredient_iff.1 hname
    obtain ⟨hempty, before, after, heq, hbefore⟩ := List.find?_eq_some_iff_append.1 hi
    exact ⟨before, i, after, heq, by simpa using hbefore, by simpa using hempty, hname⟩
  · exact ofPantry_eq_ok_iff_entries
  · have hingredients := ingredients_eq hl
    refine ⟨symbols_of_ofPantry hl, ?_, ?_, fun w c => letterOf?_eq_some_iff hl, fun w => ?_,
      fun c => ?_⟩
    · rw [← hingredients, List.map_map]
      rfl
    · rw [← hingredients, List.map_map]
      rfl
    · exact isSome_letterOf?_iff hl
    · rw [← symbols_of_ofPantry hl]
      exact List.isSome_idxOf?

/-- A short name with the most bytes, and two longer ones of the same length, out of the order of
the alphabet. -/
theorem ofPantry_iff_letterOrder_tie :
    let p := Pantry.ofList [⟨['é', 'é'], [['x']]⟩, ⟨['T', 'w', 'o'], [['2']]⟩,
      ⟨['O', 'n', 'e'], [['1'], ['I']]⟩]
    let l : Legend := ⟨[('a', ⟨['T', 'w', 'o'], [['2']]⟩), ('b', ⟨['O', 'n', 'e'], [['1'], ['I']]⟩),
      ('c', ⟨['é', 'é'], [['x']]⟩)]⟩
    ofPantry p = .ok l ∧
      (l.letterOf? ['O', 'n', 'e'] = some 'b' ↔
        ∃ i, l.indexOf? 'b' = some i ∧ l.names[i]? = some ['O', 'n', 'e']) := by
  intro p l
  have hp : p.ingredients = [⟨['é', 'é'], [['x']]⟩, ⟨['T', 'w', 'o'], [['2']]⟩,
      ⟨['O', 'n', 'e'], [['1'], ['I']]⟩] := ingredients_foldl_insert (by decide)
  obtain ⟨order, -, hunique, -, -, -, hok, hletters⟩ := ofPantry_iff_letterOrder p
  have horder : l.entries.map (·.2) = order := by
    refine hunique _ ⟨?_, ?_⟩
    · rw [hp]
      decide
    · unfold ComesBefore
      rw [hp]
      decide
  have hl : ofPantry p = .ok l := by
    have hsize : p.size = 3 := congrArg List.length hp
    rw [hok, ← horder, hp, hsize]
    decide
  exact ⟨hl, (hletters l hl).2.2.2.1 _ _⟩

end Confection.Legend
