import Confection.Proofs.Expression
import Mathlib.Data.List.Nodup

/-!
# Definitions, one after the other

The definitions of a document are resolved in order.  Each expression is read over the pantry that
the definitions before it have made, `Pantry.Makes`, and the names of the whole document are known
from the start, so that a name without values is an error and not a literal.
`resolve_eq_ok_iff` ties the running definition to this relation.

Two things follow for definitions that come later.  A repeated name is refused where it may not come
again, and only after everything before it has been resolved (`resolve_reject`).  And one more
definition leaves what the others make as it is (`resolve_concat_eq_ok_iff`).

## Shape of the proof

The inductions are on the end of the list, where one definition more is one step more of `Makes`.
Only the declared names depend on the rest of the document; more of them take meanings away from
tokens and change none (`tokenValues_append_eq_ok_iff`), so two documents can be compared at every
step.
-/

namespace Confection

/-- Is it an error that the token has in the expression of the ingredient? -/
inductive Error.OfToken (ingredient token : Text) : Error → Prop
  | unresolvedReference : OfToken ingredient token (.unresolvedReference ingredient token)
  | invalidRange : OfToken ingredient token (.invalidRange ingredient token)
  | invalidCodepoint : OfToken ingredient token (.invalidCodepoint ingredient token)

namespace Pantry

variable {p q : Pantry} {declared more : List Text} {ds : List Definition} {d : Definition}
  {duplicates : Duplicates} {e : Error}

/-! ## One definition -/

/-- An expression fails over one of its tokens. -/
theorem exists_ofToken {ingredient expression : Text}
    (h : p.expressionValues declared ingredient expression = .error e) :
    ∃ token ∈ expression.words, e.OfToken ingredient token := by
  obtain ⟨before, token, after, hwords, -, htoken⟩ := expressionValues_eq_error_iff.1 h
  refine ⟨token, by simp [hwords], ?_⟩
  cases tokenValues_eq_iff.1 htoken with
  | unresolved => exact .unresolvedReference
  | invalidRange => exact .invalidRange
  | invalidCodepoint => exact .invalidCodepoint

/-- A definition is refused where its name may not come again. -/
private theorem refused_iff :
    (duplicates = .reject && p.contains d.name) = true ↔
      duplicates = .reject ∧ d.name ∈ p.names := by
  rw [Bool.and_eq_true, decide_eq_true_iff, contains_iff_mem_names]

theorem define_eq_ok_iff : p.define duplicates declared d = .ok q ↔
    (duplicates = .reject → d.name ∉ p.names) ∧
      ∃ vs, p.expressionValues declared d.name d.expression = .ok vs ∧
        q = p.insert ⟨d.name, vs⟩ := by
  unfold define
  split
  · next hrefused =>
    obtain ⟨hreject, hname⟩ := refused_iff.1 hrefused
    simp [hreject, hname]
  · next hrefused =>
    rw [refused_iff, not_and] at hrefused
    rw [and_iff_right hrefused, bind_eq_ok]
    exact exists_congr fun vs => and_congr_right fun _ => pure_eq_ok

theorem define_eq_error_iff : p.define duplicates declared d = .error e ↔
    (duplicates = .reject ∧ d.name ∈ p.names ∧ e = .duplicateIngredient d.name) ∨
      ((duplicates = .reject → d.name ∉ p.names) ∧
        p.expressionValues declared d.name d.expression = .error e) := by
  unfold define
  split
  · next hrefused =>
    obtain ⟨hreject, hname⟩ := refused_iff.1 hrefused
    simp [hreject, hname, eq_comm]
  · next hrefused =>
    rw [refused_iff, not_and] at hrefused
    rw [and_iff_right hrefused, or_iff_right (fun h => hrefused h.1 h.2.1), bind_eq_error,
      or_iff_left]
    -- putting the ingredient in cannot fail
    rintro ⟨vs, -, ⟨⟩⟩

/-! ## One definition after the other -/

/-- The definitions make the pantry, each read over what those before it have made.  `declared` are
the names that have a definition, here or elsewhere in the document. -/
inductive Makes (declared : List Text) : List Definition → Pantry → Prop
  | nil : Makes declared [] empty
  | concat {ds : List Definition} {p : Pantry} {d : Definition} {vs : List Text}
      (hds : Makes declared ds p)
      (hvalues : p.expressionValues declared d.name d.expression = .ok vs) :
      Makes declared (ds ++ [d]) (p.insert ⟨d.name, vs⟩)

theorem makes_nil_iff : Makes declared [] p ↔ p = empty := by
  constructor
  · intro h
    generalize hds : ([] : List Definition) = ds at h
    cases h with
    | nil => rfl
    | concat => simp at hds
  · rintro rfl
    exact .nil

theorem makes_concat_iff : Makes declared (ds ++ [d]) q ↔
    ∃ p vs, Makes declared ds p ∧ p.expressionValues declared d.name d.expression = .ok vs ∧
      q = p.insert ⟨d.name, vs⟩ := by
  constructor
  · intro h
    generalize hall : ds ++ [d] = all at h
    cases h with
    | nil => simp at hall
    | concat hds hvalues =>
      obtain ⟨rfl, rfl⟩ := List.append_singleton_inj.1 hall
      exact ⟨_, _, hds, hvalues, rfl⟩
  · rintro ⟨p, vs, hds, hvalues, rfl⟩
    exact .concat hds hvalues

theorem nodup_names_concat : ((ds ++ [d]).map (·.name)).Nodup ↔
    d.name ∉ ds.map (·.name) ∧ (ds.map (·.name)).Nodup := by
  rw [List.map_append, List.map_singleton, ← List.concat_eq_append, List.nodup_concat]

/-- The names in a pantry are those that have been defined. -/
theorem Makes.mem_names_iff (h : Makes declared ds p) {name : Text} :
    name ∈ p.names ↔ name ∈ ds.map (·.name) := by
  induction h with
  | nil => rfl
  | @concat ds p d vs _ _ ih =>
    rw [names_insert, List.map_append, List.mem_append, ← ih]
    by_cases hmem : d.name ∈ p.names
    · rw [if_pos hmem]
      simp only [List.map_singleton, List.mem_singleton]
      exact ⟨.inl, fun h => h.elim id (· ▸ hmem)⟩
    · rw [if_neg hmem, List.mem_append]
      rfl

/-- What holds of every ingredient that is put in holds of all. -/
theorem Makes.forall_ingredients {P : Ingredient → Prop} (h : Makes declared ds p)
    (hstep : ∀ (p : Pantry) (d : Definition) (vs : List Text),
      (∀ i ∈ p.ingredients, P i) → d ∈ ds →
      p.expressionValues declared d.name d.expression = .ok vs → P ⟨d.name, vs⟩) :
    ∀ i ∈ p.ingredients, P i := by
  induction h with
  | nil => simp
  | @concat ds p d vs _ hvalues ih =>
    have hp := ih fun p d vs hp hd => hstep p d vs hp (List.mem_append_left _ hd)
    have hnew := hstep p d vs hp (by simp) hvalues
    intro i hi
    rcases eq_or_mem_of_mem_insert hi with rfl | hi
    · exact hnew
    · exact hp i hi

/-- The definitions make a pantry if each of them can be read, and no name comes twice where that is
not allowed. -/
theorem foldlM_define_eq_ok_iff : ds.foldlM (define duplicates declared) empty = .ok p ↔
    Makes declared ds p ∧ (duplicates = .reject → (ds.map (·.name)).Nodup) := by
  induction ds using List.reverseRecOn generalizing p with
  | nil =>
    rw [List.foldlM_nil, pure_eq_ok, makes_nil_iff]
    simp
  | append_singleton ds d ih =>
    rw [foldlM_concat, bind_eq_ok, makes_concat_iff]
    simp only [ih, define_eq_ok_iff]
    constructor
    · rintro ⟨p, ⟨hds, hnodup⟩, hname, vs, hvalues, rfl⟩
      refine ⟨⟨p, vs, hds, hvalues, rfl⟩, fun hreject => ?_⟩
      exact nodup_names_concat.2 ⟨mt hds.mem_names_iff.2 (hname hreject), hnodup hreject⟩
    · rintro ⟨⟨p, vs, hds, hvalues, rfl⟩, hnodup⟩
      rw [nodup_names_concat] at hnodup
      exact ⟨p, ⟨hds, fun hreject => (hnodup hreject).2⟩,
        fun hreject => mt hds.mem_names_iff.1 (hnodup hreject).1, vs, hvalues, rfl⟩

theorem resolve_eq_ok_iff : resolve ds duplicates = .ok p ↔
    Makes (ds.map (·.name)) ds p ∧ (duplicates = .reject → (ds.map (·.name)).Nodup) :=
  foldlM_define_eq_ok_iff

/-- An error of the definitions is about one of their names, or about a token that one of them
uses. -/
theorem exists_of_resolve_eq_error (h : resolve ds duplicates = .error e) :
    ∃ d ∈ ds, e = .duplicateIngredient d.name ∨
      ∃ token ∈ d.expression.words, e.OfToken d.name token := by
  obtain ⟨before, d, p, hplace, -, hd⟩ := foldlM_eq_error_iff.1 h
  refine ⟨d, hplace.subset (by simp), ?_⟩
  rcases define_eq_error_iff.1 hd with ⟨-, -, he⟩ | ⟨-, he⟩
  · exact .inl he
  · exact .inr (exists_ofToken he)

/-! ## Names that are defined again -/

/-- Right after these definitions stands the first one that defines a name again. -/
structure FirstRepeat (ds before : List Definition) (d : Definition) : Prop where
  place : before ++ [d] <+: ds
  nodup : (before.map (·.name)).Nodup
  mem : d.name ∈ before.map (·.name)

/-- There is a first repetition where not all names are different. -/
theorem exists_firstRepeat (h : ¬(ds.map (·.name)).Nodup) :
    ∃ before d, FirstRepeat ds before d := by
  induction ds using List.reverseRecOn with
  | nil => simp at h
  | append_singleton ds d ih =>
    by_cases hds : (ds.map (·.name)).Nodup
    · refine ⟨ds, d, List.prefix_refl _, hds, ?_⟩
      by_contra hmem
      exact h (nodup_names_concat.2 ⟨hmem, hds⟩)
    · obtain ⟨before, d', hrepeat⟩ := ih hds
      have hplace := hrepeat.place.trans (List.prefix_append ds [d])
      exact ⟨before, d', hplace, hrepeat.nodup, hrepeat.mem⟩

/-- Before any repetition nothing is refused. -/
theorem foldlM_define_reject (h : (ds.map (·.name)).Nodup) :
    ds.foldlM (define .reject declared) empty = ds.foldlM (define .lastWins declared) empty := by
  induction ds using List.reverseRecOn with
  | nil => rfl
  | append_singleton ds d ih =>
    obtain ⟨hfresh, hds⟩ := nodup_names_concat.1 h
    rw [foldlM_concat, foldlM_concat, ih hds]
    cases hrun : ds.foldlM (define .lastWins declared) empty with
    | error e => rfl
    | ok p =>
      have hname : d.name ∉ p.names := mt (foldlM_define_eq_ok_iff.1 hrun).1.mem_names_iff.1 hfresh
      show p.define .reject declared d = p.define .lastWins declared d
      unfold define
      rw [if_neg (by simpa [contains_iff_mem_names] using hname), if_neg (by simp)]

/-- Before any repetition no error is about one. -/
theorem ne_duplicateIngredient_of_nodup (h : (ds.map (·.name)).Nodup)
    (hrun : ds.foldlM (define duplicates declared) empty = .error e) (name : Text) :
    e ≠ .duplicateIngredient name := by
  rintro rfl
  obtain ⟨before, d, p, hplace, hp, hd⟩ := foldlM_eq_error_iff.1 hrun
  rcases define_eq_error_iff.1 hd with ⟨-, hname, -⟩ | ⟨-, hvalues⟩
  · have hnodup := h.sublist (hplace.sublist.map (·.name))
    exact (nodup_names_concat.1 hnodup).1 ((foldlM_define_eq_ok_iff.1 hp).1.mem_names_iff.1 hname)
  · obtain ⟨token, -, htoken⟩ := exists_ofToken hvalues
    cases htoken

/-- Definitions of different names are resolved in one way, whether or not a name may come again.
Definitions that repeat a name are refused where it may not, and for the first repetition exactly if
everything before it can be resolved. -/
theorem resolve_reject (ds : List Definition) :
    ((ds.map (·.name)).Nodup → resolve ds .reject = resolve ds .lastWins) ∧
      (¬(ds.map (·.name)).Nodup →
        (∃ e, resolve ds .reject = .error e) ∧ ∃ before d, FirstRepeat ds before d) ∧
      ∀ before d, FirstRepeat ds before d →
        (resolve ds .reject = .error (.duplicateIngredient d.name) ↔
          ∃ p, Makes (ds.map (·.name)) before p) := by
  refine ⟨foldlM_define_reject, fun h => ⟨?_, exists_firstRepeat h⟩, fun before d hrepeat => ?_⟩
  · cases hrun : resolve ds .reject with
    | error e => exact ⟨e, rfl⟩
    | ok p => exact absurd ((resolve_eq_ok_iff.1 hrun).2 rfl) h
  · cases hrun : before.foldlM (define .reject (ds.map (·.name))) empty with
    | ok p =>
      have hmakes := (foldlM_define_eq_ok_iff.1 hrun).1
      refine iff_of_true (foldlM_eq_error_iff.2 ⟨before, d, p, hrepeat.place, hrun, ?_⟩) ⟨p, hmakes⟩
      exact define_eq_error_iff.2 (.inl ⟨rfl, hmakes.mem_names_iff.2 hrepeat.mem, rfl⟩)
    | error e =>
      refine iff_of_false (fun hduplicate => ?_) ?_
      · have hbefore : before <+: ds := (List.prefix_append before [d]).trans hrepeat.place
        have he : resolve ds .reject = .error e := foldlM_eq_error_of_prefix hbefore hrun
        rw [hduplicate, Except.error.injEq] at he
        exact ne_duplicateIngredient_of_nodup hrepeat.nodup hrun d.name he.symm
      · rintro ⟨p, hmakes⟩
        rw [foldlM_define_eq_ok_iff.2 ⟨hmakes, fun _ => hrepeat.nodup⟩] at hrun
        cases hrun

/-- A name comes back after definitions that can be resolved, and after one that uses a name before
it is defined. -/
theorem resolve_reject_repeated :
    let first : List Definition := [⟨['A'], ['a'], 2⟩, ⟨['B'], ['A', ' ', 'b'], 3⟩]
    let waiting : List Definition := [⟨['A'], ['Z'], 2⟩]
    let again : Definition := ⟨['A'], ['c'], 4⟩
    let last : Definition := ⟨['Z'], ['z'], 5⟩
    resolve first .reject = resolve first .lastWins ∧
      resolve (first ++ [again, last]) .reject = .error (.duplicateIngredient ['A']) ∧
      resolve (waiting ++ [again, last]) .reject ≠ .error (.duplicateIngredient ['A']) := by
  intro first waiting again last
  have hfirst : FirstRepeat (first ++ [again, last]) first again :=
    ⟨⟨[last], rfl⟩, by decide, by decide⟩
  have hwaiting : FirstRepeat (waiting ++ [again, last]) waiting again :=
    ⟨⟨[last], rfl⟩, by decide, by decide⟩
  refine ⟨(resolve_reject first).1 (by decide), ((resolve_reject _).2.2 _ _ hfirst).2 ?_,
    mt ((resolve_reject _).2.2 _ _ hwaiting).1 ?_⟩
  · have hA : empty.expressionValues [['A'], ['B'], ['A'], ['Z']] ['A'] ['a'] = .ok [['a']] := by
      cbv
    have hB : (empty.insert ⟨['A'], [['a']]⟩).expressionValues [['A'], ['B'], ['A'], ['Z']]
        ['B'] ['A', ' ', 'b'] = .ok [['a'], ['b']] := by
      have hwords : Text.words ['A', ' ', 'b'] = [['A'], ['b']] := by decide
      simp [expressionValues, hwords, tokenValues, get?_insert, get?_empty, literal?]
      rfl
    exact ⟨_, .concat (.concat .nil hA) hB⟩
  · rintro ⟨p, hp⟩
    have hconcat : Makes [['A'], ['A'], ['Z']] ([] ++ waiting) p := hp
    obtain ⟨p, vs, hempty, hvalues, -⟩ := makes_concat_iff.1 hconcat
    have hA : empty.expressionValues [['A'], ['A'], ['Z']] ['A'] ['Z'] =
        .error (.unresolvedReference ['A'] ['Z']) := by
      cbv
    rw [makes_nil_iff.1 hempty] at hvalues
    cases hvalues.symm.trans hA

/-! ## Names that are defined later -/

/-- More declared names take meanings away from tokens and change none. -/
theorem tokenValues_append_eq_ok_iff {ingredient token : Text} {vs : List Text} :
    p.tokenValues (declared ++ more) ingredient token = .ok vs ↔
      (token ∈ more → token ∈ p.names) ∧ p.tokenValues declared ingredient token = .ok vs := by
  by_cases hfound : token ∈ p.names
  · obtain ⟨found, hmem, rfl⟩ := List.mem_map.1 hfound
    simp [tokenValues_name hmem, hfound]
  by_cases hdeclared : token ∈ declared
  · simp [tokenValues_unresolved hfound, hdeclared]
  by_cases hmore : token ∈ more
  · simp [tokenValues_unresolved hfound, hmore, hfound]
  · have hname : p.Unnamed declared token := ⟨hfound, hdeclared⟩
    have hname' : p.Unnamed (declared ++ more) token := ⟨hfound, by simp [hdeclared, hmore]⟩
    rw [tokenValues_of_unnamed hname, tokenValues_of_unnamed hname']
    simp [hmore]

theorem expressionValues_append_eq_ok_iff {ingredient expression : Text} {vs : List Text} :
    p.expressionValues (declared ++ more) ingredient expression = .ok vs ↔
      (∀ token ∈ expression.words, token ∈ more → token ∈ p.names) ∧
        p.expressionValues declared ingredient expression = .ok vs := by
  simp only [expressionValues_eq_ok_iff, tokenValues_append_eq_ok_iff, List.forall₂_and_left,
    and_assoc, exists_and_left]

/-- More declared names do not change what is made, unless they are used where they have not been
defined. -/
theorem makes_append_iff : Makes (declared ++ more) ds p ↔ Makes declared ds p ∧
    ∀ before d, before ++ [d] <+: ds → ∀ token ∈ d.expression.words, token ∈ more →
      token ∈ before.map (·.name) := by
  induction ds using List.reverseRecOn generalizing p with
  | nil => simp [makes_nil_iff]
  | append_singleton ds d ih =>
    simp only [makes_concat_iff, ih, expressionValues_append_eq_ok_iff]
    constructor
    · rintro ⟨p, vs, ⟨hds, hbefore⟩, ⟨hd, hvalues⟩, rfl⟩
      refine ⟨⟨p, vs, hds, hvalues, rfl⟩, fun before d' hplace => ?_⟩
      rcases List.prefix_concat_iff.1 hplace with heq | hplace
      · obtain ⟨rfl, rfl⟩ := List.append_singleton_inj.1 heq
        exact fun token htoken hmore => hds.mem_names_iff.1 (hd token htoken hmore)
      · exact hbefore before d' hplace
    · rintro ⟨⟨p, vs, hds, hvalues, rfl⟩, hbefore⟩
      refine ⟨p, vs, ⟨hds, fun before d' hplace => ?_⟩,
        ⟨fun token htoken hmore => ?_, hvalues⟩, rfl⟩
      · exact hbefore before d' (hplace.trans (List.prefix_append ds [d]))
      · exact hds.mem_names_iff.2 (hbefore ds d (List.prefix_refl _) token htoken hmore)

/-- One more definition sets its own name and changes nothing else: the definitions before it have
been resolved without it, and its expression is read over what they make.  It is in the way only
where it may not come again, or where an earlier expression uses its name before there are values
for it. -/
theorem resolve_concat_eq_ok_iff (ds : List Definition) (d : Definition) (duplicates : Duplicates)
    (q : Pantry) :
    resolve (ds ++ [d]) duplicates = .ok q ↔
      ∃ p vs, resolve ds duplicates = .ok p ∧
        p.expressionValues ((ds ++ [d]).map (·.name)) d.name d.expression = .ok vs ∧
        (duplicates = .reject → d.name ∉ p.names) ∧
        (∀ before earlier, before ++ [earlier] <+: ds → d.name ∈ earlier.expression.words →
          d.name ∈ before.map (·.name)) ∧
        q = p.insert ⟨d.name, vs⟩ ∧
        q.ingredients =
          if d.name ∈ p.names then
            p.ingredients.map fun old => if old.name = d.name then ⟨d.name, vs⟩ else old
          else p.ingredients ++ [⟨d.name, vs⟩] := by
  have hnames : (ds ++ [d]).map (·.name) = ds.map (·.name) ++ [d.name] := List.map_append
  rw [resolve_eq_ok_iff, makes_concat_iff, nodup_names_concat, hnames]
  simp only [resolve_eq_ok_iff, makes_append_iff, List.mem_singleton]
  constructor
  · rintro ⟨⟨p, vs, ⟨hds, hbefore⟩, hvalues, rfl⟩, hnodup⟩
    exact ⟨p, vs, ⟨hds, fun hreject => (hnodup hreject).2⟩, hvalues,
      fun hreject => mt hds.mem_names_iff.1 (hnodup hreject).1,
      fun before earlier hplace huse => hbefore before earlier hplace d.name huse rfl, rfl,
      ingredients_insert p _⟩
  · rintro ⟨p, vs, ⟨hds, hnodup⟩, hvalues, hname, hbefore, rfl, -⟩
    refine ⟨⟨p, vs, ⟨hds, ?_⟩, hvalues, rfl⟩,
      fun hreject => ⟨mt hds.mem_names_iff.2 (hname hreject), hnodup hreject⟩⟩
    rintro before earlier hplace _ huse rfl
    exact hbefore before earlier hplace huse

/-- A character stands for itself only as long as no later line defines it. -/
example :
    resolve [⟨['A'], ['Z'], 2⟩] .lastWins = .ok (ofList [⟨['A'], [['Z']]⟩]) ∧
      resolve [⟨['A'], ['Z'], 2⟩, ⟨['Z'], ['z'], 3⟩] .lastWins =
        .error (.unresolvedReference ['A'] ['Z']) := by
  constructor <;> cbv

end Pantry

end Confection
