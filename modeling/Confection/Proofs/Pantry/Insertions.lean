import Confection.FirstOccurrences
import Confection.Pantry.Basic
import Mathlib.Data.Finset.Dedup
import Mathlib.Data.Finset.Card

/-!
# Pantries filled one ingredient after the other

However often names come back while a pantry is filled, it shows two things about the sequence: its
order is that of the first insertions, and under each name is the last one
(`ofList_firstPlaces_lastValues`).

## Shape of the proof

The first section ties the views of one pantry to its list of ingredients, in which every name
occurs once.  The second follows a sequence of insertions, by induction on its end: one more
insertion adds a name that is not there, and changes what is under one name.
-/

namespace Confection.Pantry

/-! ## The views of one pantry -/

variable (p : Pantry)

/-- The slot of a name is the place of the one entry that has it, and what names no entry has no
slot. -/
theorem slots_eq_findIdx? (name : Text) :
    p.slots[name]? = p.entries.findIdx? (·.name == name) := by
  refine Option.ext fun i => ?_
  rw [p.slots_agree, Array.findIdx?_eq_some_iff_getElem]
  constructor
  · intro h
    obtain ⟨found, hfound, hname⟩ := Option.map_eq_some_iff.1 h
    obtain ⟨hi, rfl⟩ := Array.getElem?_eq_some_iff.1 hfound
    refine ⟨hi, by simpa using hname, fun j hj hsame => ?_⟩
    -- a second entry of that name would have the same slot
    have hj' := (p.slots_agree name j).2 (by simpa [show j < p.entries.size by omega] using hsame)
    have hi' := (p.slots_agree name i).2 h
    rw [hi', Option.some.injEq] at hj'
    omega
  · rintro ⟨hi, hname, -⟩
    simpa [hi] using hname

/-- What is under a name is the ingredient in the list that has it. -/
theorem get?_eq_find? (name : Text) : p.get? name = p.ingredients.find? (·.name == name) := by
  rw [get?, slots_eq_findIdx?, ingredients, Array.find?_toList,
    Array.find?_eq_bind_findIdx?_getElem?]

theorem size_eq_length_names : p.size = p.names.length := by
  rw [names, List.length_map]
  rfl

/-! ## A sequence of insertions -/

variable (is : List Ingredient) (new : Ingredient)

theorem ofList_concat : ofList (is ++ [new]) = (ofList is).insert new := by
  rw [ofList, ofList, List.foldl_append]
  rfl

/-- The names stand in the order in which they came first. -/
theorem names_ofList : (ofList is).names = (is.map (·.name)).eraseDups := by
  induction is using List.reverseRecOn with
  | nil => rfl
  | append_singleton is new ih =>
    rw [ofList_concat, names_insert, ih, List.map_append, List.eraseDups_append]
    by_cases hmem : new.name ∈ is.map (·.name)
    · rw [if_pos (List.mem_eraseDups.2 hmem)]
      simp [List.removeAll, List.mem_map.1 hmem]
    · rw [if_neg (mt List.mem_eraseDups.1 hmem)]
      have hkept : [new.name].removeAll (is.map (·.name)) = [new.name] := by
        simpa [List.removeAll] using hmem
      rw [List.map_singleton, hkept, eraseDups_of_nodup (List.nodup_singleton _)]

/-- Under a name is what was put in last with it. -/
theorem get?_ofList (name : Text) :
    (ofList is).get? name = (is.filter (·.name == name)).getLast? := by
  induction is using List.reverseRecOn with
  | nil => simp [get?_eq_find?, ofList]
  | append_singleton is new ih =>
    rw [ofList_concat, get?_insert, List.filter_append]
    split
    · next hname => simp [hname]
    · next hname => simp [ih, Ne.symm hname]

/-- There are as many ingredients as different names. -/
theorem size_ofList : (ofList is).size = (is.map (·.name)).toFinset.card := by
  have hsame : (is.map (·.name)).toFinset = (is.map (·.name)).eraseDups.toFinset := by
    ext name
    simp only [List.mem_toFinset, List.mem_eraseDups]
  rw [size_eq_length_names, names_ofList, hsame,
    List.toFinset_card_of_nodup (nodup_eraseDups _)]

/-- A pantry filled from nothing has every name once, in the order of the first insertions, with
what was put in last under it.  All its views show that, and what an exchange gives back is what was
under the name before. -/
theorem ofList_firstPlaces_lastValues (is : List Ingredient) :
    let p := ofList is
    p.names.Nodup ∧ p.names = (is.map (·.name)).eraseDups ∧
      (∀ i ∈ p.ingredients, (is.filter (·.name == i.name)).getLast? = some i) ∧
      p.size = (is.map (·.name)).toFinset.card ∧
      (∀ name, p.get? name = p.ingredients.find? (·.name == name) ∧
        (p.contains name = true ↔ name ∈ p.names) ∧
        p.slots[name]? = p.entries.findIdx? (·.name == name)) ∧
      ∀ new, (p.exchange new).1 = p.get? new.name ∧ (p.exchange new).2 = ofList (is ++ [new]) := by
  intro p
  refine ⟨p.nodup_names, names_ofList is, fun i hi => ?_, size_ofList is, fun name => ?_,
    fun new => ⟨p.exchange_fst new, (ofList_concat is new).symm⟩⟩
  · rw [← get?_ofList]
    exact get?_eq_some_iff.2 ⟨hi, rfl⟩
  · exact ⟨p.get?_eq_find? name, contains_iff_mem_names, p.slots_eq_findIdx? name⟩

end Confection.Pantry
