import Confection.Proofs.Formula.Strings

/-!
# Listing does not fail

When the listing of strings comes to a candidate it looks up the values of the candidate's symbols,
and this is the one step that can fail.  `Listing.tryNext` has no result if it does; the result may
also say that the listing has ended.  `Formula.WellFormed.tryPull_eq` says that from the strings of
a well-formed formula any number can be pulled without a failure.

The listing has what it needs, `Listing.Supplied`, as long as its search yields only candidates
whose symbols are in range.  Going on to the next string keeps this.
-/

namespace Confection

/-! ## The listing -/

/-- Up to `n` elements of a lazy sequence whose steps can fail, and the state after them if the
sequence has not ended. -/
def tryPull {σ α : Type} (next : σ → Option (Option (α × σ))) : ℕ → σ → Option (List α × Option σ)
  | 0, s => some ([], some s)
  | n + 1, s => do
    match ← next s with
    | none => return ([], none)
    | some (a, s) => return (← tryPull next n s).map (a :: ·) id

/-- The choices for an atom, if its symbol is one of those with values. -/
def Atom.choices? (values : Array (Array Text)) : Atom → Option (Array Text)
  | .symbol i => values[i]?
  | .literal c => some #[[c]]

namespace Listing

/-- The next string, and the listing after it, or the end.  There is no result if a step fails. -/
def tryNext (l : Listing) : Option (Option (Text × Listing)) :=
  if l.number < l.size then
    some (some (l.current.combination l.number, { l with number := l.number + 1 }))
  else
    match _h : l.search.next? with
    | none => some none
    | some (atoms, search) => do
      let current : Choices ← atoms.mapM (Atom.choices? l.values)
      tryNext { values := l.values, current, size := current.count, number := 0, search }
termination_by l.search.weight
decreasing_by exact Search.weight_next?_lt _h

end Listing

/-! ## Listing succeeds -/

/-- A lazy sequence is pulled without a failure if an invariant of its states rules that out. -/
theorem tryPull_eq {σ α : Type} {next : σ → Option (α × σ)} {attempt : σ → Option (Option (α × σ))}
    {Inv : σ → Prop} (h : ∀ s, Inv s → attempt s = some (next s))
    (hnext : ∀ s, Inv s → ∀ a s', next s = some (a, s') → Inv s') (n : ℕ) {s : σ} (hs : Inv s) :
    tryPull attempt n s = some (pull next n s) := by
  induction n generalizing s with
  | zero => rfl
  | succ n ih =>
    rw [tryPull, h s hs, Option.bind_eq_bind, Option.bind_some]
    cases hstep : next s with
    | none =>
      rw [pull_succ_none hstep]
      rfl
    | some p =>
      obtain ⟨a, s'⟩ := p
      rw [pull_succ_some hstep]
      dsimp only
      rw [ih (hnext s hs a s' hstep)]
      rfl

/-- There are choices for an atom whose symbol is in range. -/
theorem Atom.choices?_eq {values : Array (Array Text)} {a : Atom} (h : a.InRange values.size) :
    a.choices? values = some (a.choices values) := by
  cases a with
  | symbol i =>
    have hi : i < values.size := h
    rw [Atom.choices?, Atom.choices, Array.getElem?_eq_getElem hi, Array.getD_eq_getD_getElem?,
      Array.getElem?_eq_getElem hi, Option.getD_some]
  | literal c => rfl

namespace Listing

variable {values : Array (Array Text)} {l : Listing}

/-- There are choices for all atoms of a candidate whose symbols are in range. -/
theorem mapM_choices?_eq {atoms : List Atom} (h : ∀ a ∈ atoms, a.InRange values.size) :
    atoms.mapM (Atom.choices? values) = some (atoms.map (Atom.choices values)) := by
  induction atoms with
  | nil => rfl
  | cons a atoms ih =>
    obtain ⟨ha, hatoms⟩ := List.forall_mem_cons.1 h
    rw [List.mapM_cons, Atom.choices?_eq ha, ih hatoms]
    rfl

/-- Whatever candidates the search still yields, their symbols have values. -/
def Supplied (l : Listing) : Prop :=
  ∃ candidates, Yields Search.next? l.search candidates ∧
    ∀ atoms ∈ candidates, ∀ a ∈ atoms, a.InRange l.values.size

/-- The next candidate of a supplied listing has values for its symbols, and the listing at this
candidate is supplied again. -/
theorem Supplied.candidate (h : l.Supplied) {atoms : List Atom} {search : Search}
    (hnext : l.search.next? = some (atoms, search)) :
    (∀ a ∈ atoms, a.InRange l.values.size) ∧ (atCandidate l.values atoms search).Supplied := by
  obtain ⟨candidates, hyields, hrange⟩ := h
  cases candidates with
  | nil =>
    rw [yields_nil_iff, hnext] at hyields
    cases hyields
  | cons first rest =>
    obtain ⟨search', hsome, hrest⟩ := yields_cons_iff.1 hyields
    rw [hnext] at hsome
    cases hsome
    obtain ⟨hfirst, hrange⟩ := List.forall_mem_cons.1 hrange
    exact ⟨hfirst, rest, hrest, hrange⟩

/-- The next string of a supplied listing is found without a failure. -/
theorem Supplied.tryNext_eq (h : l.Supplied) : l.tryNext = some l.next? := by
  fun_induction next? l with
  | case1 values current number search hlt => rw [tryNext, if_pos hlt]
  | case2 values current number search hnone hlt => rw [tryNext, if_neg hlt, hnone]
  | case3 values current number search atoms search' hsome hlt ih =>
    obtain ⟨hrange, hsupplied⟩ := h.candidate hsome
    rw [tryNext, if_neg hlt, hsome]
    dsimp only
    rw [mapM_choices?_eq hrange]
    exact ih hsupplied

/-- After its next string a supplied listing is supplied. -/
theorem Supplied.next (h : l.Supplied) {t : Text} {l' : Listing} (hnext : l.next? = some (t, l')) :
    l'.Supplied := by
  fun_induction next? l with
  | case1 => cases hnext; exact h
  | case2 => cases hnext
  | case3 values current number search atoms search' hsome hlt ih =>
    exact ih (h.candidate hsome).2 hnext

end Listing

/-- The strings of a well-formed formula are supplied with values. -/
theorem Formula.WellFormed.supplied {f : Formula} (h : f.WellFormed) {l : Listing}
    (hl : f.strings = .ok l) : l.Supplied := by
  have hbounded : f.pattern.isUnbounded = false := by
    by_contra hunbounded
    rw [Bool.not_eq_false] at hunbounded
    rw [strings, Pattern.candidates?, if_pos hunbounded] at hl
    cases hl
  rw [strings, Pattern.candidates?, hbounded] at hl
  cases hl
  refine ⟨_, Search.start_yields f.pattern, fun atoms hatoms => ?_⟩
  have hmem : atoms ∈ f.pattern.language Atom.alone := by
    rw [← f.pattern.listed_listing hbounded]
    exact List.mem_eraseDups.1 hatoms
  have hsize : (Listing.start f.legend.values (.start f.pattern)).values.size = f.legend.size := by
    simp [Listing.start, Legend.values, Legend.size]
  rw [hsize]
  exact Pattern.inRange_of_mem_language _ h.pattern.2 _ hmem

/-- Any number of strings of a well-formed formula can be pulled. -/
theorem Formula.WellFormed.tryPull_eq {f : Formula} (h : f.WellFormed) {l : Listing}
    (hl : f.strings = .ok l) (n : ℕ) :
    tryPull Listing.tryNext n l = some (pull Listing.next? n l) :=
  Confection.tryPull_eq (fun _ hs => hs.tryNext_eq) (fun _ hs _ _ hnext => hs.next hnext) n
    (h.supplied hl)

end Confection
