import Std.Data.HashMap
import Confection.Text.Basic

/-!
# The pantry

An ingredient is a name with a list of values.  A pantry holds ingredients under different names, in
the order in which the names were first put in.  Putting a name in again replaces its values and
keeps its place.

The ingredients stand in an array, and a table gives for each name its *slot* in the array.

## Shape of the lemmas

`SlotsAgree` is the invariant that every pantry carries: a name's slot is the one place where an
ingredient of that name stands.  `get?_insert` and `names_insert` say what `insert` does to the two
views of a pantry, the ingredient under a name and the list of names.
-/

namespace Confection

/-- A name with the values that it stands for. -/
structure Ingredient where
  name : Text
  values : List Text
deriving DecidableEq

/-- What a second definition of an ingredient does. -/
inductive Duplicates where
  /-- It replaces the first. -/
  | lastWins
  /-- It is an error. -/
  | reject
deriving DecidableEq

/-- The slot of a name is the one place where an ingredient of that name stands. -/
def SlotsAgree (entries : Array Ingredient) (slots : Std.HashMap Text Nat) : Prop :=
  ∀ (name : Text) (i : Nat), slots[name]? = some i ↔ entries[i]?.map Ingredient.name = some name

private theorem SlotsAgree.set {entries : Array Ingredient} {slots : Std.HashMap Text Nat} {i : Nat}
    {new : Ingredient} (h : SlotsAgree entries slots) (hi : slots[new.name]? = some i) :
    SlotsAgree (entries.setIfInBounds i new) slots := by
  intro name j
  rw [h, Array.getElem?_setIfInBounds]
  split
  · next hij =>
    subst hij
    obtain ⟨old, hold, hname⟩ := Option.map_eq_some_iff.1 ((h _ _).1 hi)
    obtain ⟨hlt, rfl⟩ := Array.getElem?_eq_some_iff.1 hold
    simp [hlt, hname]
  · rfl

private theorem SlotsAgree.push {entries : Array Ingredient} {slots : Std.HashMap Text Nat}
    {new : Ingredient} (h : SlotsAgree entries slots) (hnew : slots[new.name]? = none) :
    SlotsAgree (entries.push new) (slots.insert new.name entries.size) := by
  intro name j
  rw [Std.HashMap.getElem?_insert, Array.getElem?_push]
  by_cases hname : new.name = name
  · subst hname
    by_cases hj : j = entries.size
    · simp [hj]
    · have := (h new.name j).symm
      rw [hnew] at this
      simp only [beq_self_eq_true, if_true, hj, if_false, this, Option.some.injEq, reduceCtorEq,
        iff_false]
      exact fun heq => hj heq.symm
  · by_cases hj : j = entries.size
    · have := h name j
      simp only [hj, Array.getElem?_size, Option.map_none, reduceCtorEq, iff_false] at this
      simp [hname, hj, this]
    · rw [if_neg (by simpa using hname), if_neg hj]
      exact h name j

/-- Ingredients under different names, in order of their first insertion. -/
structure Pantry where
  entries : Array Ingredient
  slots : Std.HashMap Text Nat
  slots_agree : SlotsAgree entries slots

namespace Pantry

/-- A pantry with nothing in it. -/
def empty : Pantry := ⟨#[], ∅, by simp [SlotsAgree]⟩

/-- The ingredients, in order of their first insertion. -/
def ingredients (p : Pantry) : List Ingredient := p.entries.toList

/-- The number of ingredients. -/
def size (p : Pantry) : Nat := p.entries.size

/-- Is nothing in the pantry? -/
def isEmpty (p : Pantry) : Bool := p.entries.isEmpty

/-- The names, in order of their first insertion. -/
def names (p : Pantry) : List Text := p.ingredients.map (·.name)

/-- The ingredient with the given name. -/
def get? (p : Pantry) (name : Text) : Option Ingredient :=
  p.slots[name]?.bind fun i => p.entries[i]?

/-- Is there an ingredient with the given name? -/
def contains (p : Pantry) (name : Text) : Bool := p.slots.contains name

/-- Puts an ingredient in, and gives the one with its name whose place it takes if there is one. -/
def exchange : Pantry → Ingredient → Option Ingredient × Pantry
  | ⟨entries, slots, h⟩, new =>
    match hslot : slots[new.name]? with
    | some i => (entries[i]?, ⟨entries.setIfInBounds i new, slots, h.set hslot⟩)
    | none =>
      (none, ⟨entries.push new, slots.insert new.name entries.size, h.push hslot⟩)

/-- Puts an ingredient in, in the place of the one with its name if there is one. -/
def insert (p : Pantry) (new : Ingredient) : Pantry := (p.exchange new).2

/-- Puts ingredients in, one after the other. -/
def ofList (ingredients : List Ingredient) : Pantry := ingredients.foldl insert empty

/-! ## The views of a pantry -/

@[simp] theorem ingredients_empty : empty.ingredients = [] := rfl

/-- An ingredient is under its name exactly if it is in the list. -/
theorem get?_eq_some_iff {p : Pantry} {name : Text} {found : Ingredient} :
    p.get? name = some found ↔ found ∈ p.ingredients ∧ found.name = name := by
  rw [get?, Option.bind_eq_some_iff, ingredients, Array.mem_toList_iff, Array.mem_iff_getElem?]
  constructor
  · rintro ⟨i, hslot, hfound⟩
    have := (p.slots_agree name i).1 hslot
    rw [hfound, Option.map_some, Option.some.injEq] at this
    exact ⟨⟨i, hfound⟩, this⟩
  · rintro ⟨⟨i, hfound⟩, hname⟩
    exact ⟨i, (p.slots_agree name i).2 (by rw [hfound, Option.map_some, hname]), hfound⟩

/-- There is an ingredient with a name exactly if the name is in the list of names. -/
theorem contains_iff_mem_names {p : Pantry} {name : Text} :
    p.contains name = true ↔ name ∈ p.names := by
  rw [contains, Std.HashMap.contains_eq_isSome_getElem?, Option.isSome_iff_exists, names,
    List.mem_map]
  constructor
  · rintro ⟨i, hslot⟩
    obtain ⟨found, hfound, hname⟩ := Option.map_eq_some_iff.1 ((p.slots_agree name i).1 hslot)
    exact ⟨found, Array.mem_toList_iff.2 (Array.mem_of_getElem? hfound), hname⟩
  · rintro ⟨found, hfound, hname⟩
    obtain ⟨i, hi⟩ := Array.mem_iff_getElem?.1 (Array.mem_toList_iff.1 hfound)
    exact ⟨i, (p.slots_agree name i).2 (by rw [hi, Option.map_some, hname])⟩

/-- The names are different from one another. -/
theorem nodup_names (p : Pantry) : p.names.Nodup := by
  rw [List.Nodup, List.pairwise_iff_getElem]
  intro i j hi hj hij heq
  have hslot (k : Nat) (hk : k < p.names.length) : p.slots[p.names[k]]? = some k := by
    rw [p.slots_agree, ← Array.getElem?_toList, ← List.getElem?_map]
    exact List.getElem?_eq_getElem hk
  have := (hslot i hi).symm.trans (heq ▸ hslot j hj)
  rw [Option.some.injEq] at this
  omega

/-- An exchange gives what was under the name before. -/
theorem exchange_fst (p : Pantry) (new : Ingredient) :
    (p.exchange new).1 = p.get? new.name := by
  obtain ⟨entries, slots, h⟩ := p
  rw [exchange, get?]
  split <;> next hslot => simp [hslot]

/-- The ingredients after an insertion: an ingredient with the name is replaced where it stands, and
a new name comes last. -/
theorem ingredients_insert (p : Pantry) (new : Ingredient) :
    (p.insert new).ingredients =
      if new.name ∈ p.names then
        p.ingredients.map fun old => if old.name = new.name then new else old
      else p.ingredients ++ [new] := by
  have hmem := @contains_iff_mem_names p new.name
  obtain ⟨entries, slots, h⟩ := p
  rw [contains, Std.HashMap.contains_eq_isSome_getElem?] at hmem
  rw [insert, exchange]
  split
  · next i hslot =>
    rw [if_pos (hmem.1 (by simp [hslot]))]
    obtain ⟨old, hold, hname⟩ := Option.map_eq_some_iff.1 ((h _ _).1 hslot)
    refine List.ext_getElem? fun j => ?_
    simp only [ingredients, Array.toList_setIfInBounds, List.getElem?_set, List.getElem?_map,
      Array.getElem?_toList, Array.length_toList]
    by_cases hij : i = j
    · subst hij
      obtain ⟨hlt, rfl⟩ := Array.getElem?_eq_some_iff.1 hold
      simp [hlt, hname]
    · simp only [hij, if_false]
      cases hj : entries[j]? with
      | none => rfl
      | some other =>
        have hne : other.name ≠ new.name := by
          intro heq
          have := (h new.name j).2 (by rw [hj, Option.map_some, heq])
          rw [hslot, Option.some.injEq] at this
          exact hij this
        simp [hne]
  · next hslot =>
    rw [if_neg (fun hm => by simpa [hslot] using hmem.2 hm)]
    simp [ingredients]

/-- After an insertion there is nothing but the new ingredient and what was there before. -/
theorem eq_or_mem_of_mem_insert {p : Pantry} {new i : Ingredient}
    (h : i ∈ (p.insert new).ingredients) : i = new ∨ i ∈ p.ingredients := by
  rw [ingredients_insert] at h
  split at h
  · obtain ⟨old, hold, rfl⟩ := List.mem_map.1 h
    split
    · exact .inl rfl
    · exact .inr hold
  · rcases List.mem_append.1 h with h | h
    · exact .inr h
    · exact .inl (List.mem_singleton.1 h)

/-- A new name comes last, and a name that is there keeps its place. -/
theorem names_insert (p : Pantry) (new : Ingredient) :
    (p.insert new).names = if new.name ∈ p.names then p.names else p.names ++ [new.name] := by
  rw [names, ingredients_insert]
  split
  · rw [List.map_map, names]
    refine List.map_congr_left fun old _ => ?_
    by_cases heq : old.name = new.name <;> simp [heq]
  · simp [names]

/-- Under the name of the ingredient put in there is now that one, under all others what was there
before. -/
theorem get?_insert (p : Pantry) (new : Ingredient) (name : Text) :
    (p.insert new).get? name = if name = new.name then some new else p.get? name := by
  refine Option.ext fun found => ?_
  rw [get?_eq_some_iff, ingredients_insert]
  by_cases hname : name = new.name
  · subst hname
    rw [if_pos rfl, Option.some.injEq]
    split
    · next hmem =>
      constructor
      · rintro ⟨hfound, hn⟩
        obtain ⟨old, -, rfl⟩ := List.mem_map.1 hfound
        split at hn <;> simp_all
      · rintro rfl
        obtain ⟨old, hold, hn⟩ := List.mem_map.1 hmem
        exact ⟨List.mem_map.2 ⟨old, hold, by simp [hn]⟩, rfl⟩
    · next hmem =>
      constructor
      · rintro ⟨hfound, hn⟩
        rcases List.mem_append.1 hfound with hin | hin
        · exact absurd (List.mem_map.2 ⟨found, hin, hn⟩) hmem
        · exact (List.mem_singleton.1 hin).symm
      · rintro rfl
        simp
  · rw [if_neg hname, get?_eq_some_iff]
    split
    · constructor
      · rintro ⟨hfound, hn⟩
        obtain ⟨old, hold, rfl⟩ := List.mem_map.1 hfound
        split at hn
        · exact absurd hn.symm hname
        · next hne => rw [if_neg hne]; exact ⟨hold, hn⟩
      · rintro ⟨hfound, hn⟩
        exact ⟨List.mem_map.2 ⟨found, hfound, by simp [hn, hname]⟩, hn⟩
    · constructor
      · rintro ⟨hfound, hn⟩
        rcases List.mem_append.1 hfound with hin | hin
        · exact ⟨hin, hn⟩
        · rw [List.mem_singleton.1 hin] at hn
          exact absurd hn.symm hname
      · rintro ⟨hfound, hn⟩
        exact ⟨List.mem_append_left _ hfound, hn⟩

end Pantry

end Confection
