import Confection.Proofs.Pattern.Items

/-!
# The limit on nesting

The limit bounds the depth of groups and does nothing else (`parse_eq_ite_depth`): a pattern that can
be read with some limit is read as the same pattern with every limit that its groups keep within, and
with a smaller one the first group that is too deep is the first mistake.

## Shape of the proof

`Draft.depth` is how deep groups are nested in what has been read, the open ones included.  Only an
opening changes it, since a group that is closed counts in the layer around it for just what its own
layer counted for.  So two readings with different limits run side by side until the depth passes
the smaller one, and the depth never goes back.
-/

namespace Confection

/-! ## Depth of what is put together -/

theorem Sequence.depth_le_iff {s : Sequence} {n : ℕ} :
    Sequence.depth s ≤ n ↔ ∀ it ∈ s, it.element.depth ≤ n := by
  induction s with
  | nil => simp [Sequence.depth]
  | cons it s ih =>
    obtain ⟨q, e⟩ := it
    rw [Sequence.depth, max_le_iff, ih, List.forall_mem_cons]

theorem Pattern.depth_le_iff {p : Pattern} {n : ℕ} :
    Pattern.depth p ≤ n ↔ ∀ s ∈ p, Sequence.depth s ≤ n := by
  induction p with
  | nil => simp [Pattern.depth]
  | cons s p ih => rw [Pattern.depth, max_le_iff, ih, List.forall_mem_cons]

theorem Sequence.depth_reverse (s : Sequence) : Sequence.depth s.reverse = Sequence.depth s :=
  eq_of_forall_ge_iff fun n => by simp only [depth_le_iff, List.mem_reverse]

theorem Pattern.depth_reverse (p : Pattern) : Pattern.depth p.reverse = Pattern.depth p :=
  eq_of_forall_ge_iff fun n => by simp only [depth_le_iff, List.mem_reverse]

namespace Pattern

variable {d d' e : Draft} {x : Lexeme} {ls : List Lexeme} {limit bound : ℕ}

/-- How deep groups are nested in the layer. -/
def Layer.depth (l : Layer) : ℕ := max (Sequence.depth l.items) (Pattern.depth l.complete)

namespace Layer

theorem depth_push (l : Layer) (it : Item) : (l.push it).depth = max it.element.depth l.depth := by
  obtain ⟨q, e⟩ := it
  exact max_assoc _ _ _

theorem depth_requantify (l : Layer) (q : Quantifier) : (l.requantify q).depth = l.depth := by
  unfold requantify
  split
  · rfl
  · next it rest hitems =>
    obtain ⟨_, e⟩ := it
    simp only [depth, hitems, Sequence.depth]

theorem depth_toPattern (l : Layer) : l.toPattern.depth = l.depth := by
  rw [toPattern, Pattern.depth_reverse, Pattern.depth, Sequence.depth_reverse, depth]

theorem depth_nextAlternative (l : Layer) : l.nextAlternative.depth = l.depth := by
  rw [← depth_toPattern l, toPattern, Pattern.depth_reverse]
  exact Nat.zero_max _

end Layer

/-- How deep groups are nested in the layers, each having the layers after it around it. -/
def Layers.depth : List Layer → ℕ
  | [] => 0
  | l :: around => max (around.length + l.depth) (Layers.depth around)

/-- How deep groups are nested in what has been read, the open ones included. -/
def Draft.depth (d : Draft) : ℕ := Layers.depth (d.layer :: d.around)

/-! ## One lexeme -/

/-- A group that is opened is one level deeper than the layers around it. -/
theorem Draft.depth_opening (d : Draft) :
    (⟨.empty, d.layer :: d.around, .closed⟩ : Draft).depth = max (d.around.length + 1) d.depth :=
  rfl

/-- Only an opening changes the depth. -/
theorem Draft.Step.depth_eq (h : d.Step limit x d') (hx : x.Flat) (hopen : x ≠ .opening) :
    d'.depth = d.depth := by
  cases h with
  | element el =>
    have hel : el.depth = 0 := Element.depth_eq_zero hx
    simp only [depth, Layers.depth, Layer.depth_push, hel, Nat.zero_max]
  | repetition => simp only [depth, Layers.depth, Layer.depth_requantify]
  | lazy => rfl
  | bar => simp only [depth, Layers.depth, Layer.depth_nextAlternative]
  | opening => exact absurd rfl hopen
  | closing haround =>
    simp only [depth, haround, Layers.depth, Layer.depth_push, Element.depth,
      Layer.depth_toPattern, List.length_cons]
    omega

theorem Draft.Step.depth_le (h : d.Step limit x d') (hx : x.Flat) : d.depth ≤ d'.depth := by
  by_cases hopen : x = .opening
  · subst hopen
    cases h
    exact (le_max_right _ _).trans_eq d.depth_opening.symm
  · exact (h.depth_eq hx hopen).ge

/-- With another limit a lexeme does the same, unless it is an opening that goes too deep. -/
theorem Draft.Step.step_of_le (h : d.Step bound x d') (hx : x.Flat) (hd : d.depth ≤ limit) :
    d.step limit x = if d'.depth ≤ limit then .ok d' else .error (.nestedTooDeep limit) := by
  by_cases hopen : x = .opening
  · subst hopen
    cases h
    have hdepth : max (d.around.length + 1) d.depth ≤ limit ↔ d.around.length < limit :=
      ⟨fun h => (max_le_iff.1 h).1, fun h => max_le h hd⟩
    simp only [depth_opening, hdepth, step]
  · rw [h.depth_eq hx hopen, if_pos hd, step_eq_ok_iff]
    cases h with
    | element e => exact .element e
    | repetition hslot => exact .repetition hslot
    | lazy hslot => exact .lazy hslot
    | bar => exact .bar
    | opening => exact absurd rfl hopen
    | closing haround => exact .closing haround

/-! ## All lexemes -/

theorem Draft.depth_le_of_run (hls : ∀ x ∈ ls, x.Flat)
    (h : ls.foldlM (Draft.step bound) d = .ok e) : d.depth ≤ e.depth := by
  induction ls generalizing d with
  | nil => cases h; exact le_rfl
  | cons x ls ih =>
    obtain ⟨hx, hls⟩ := List.forall_mem_cons.1 hls
    obtain ⟨d₁, hstep, h⟩ := bind_eq_ok.1 h
    exact ((step_eq_ok_iff.1 hstep).depth_le hx).trans (ih hls h)

/-- With another limit the reading ends in the same draft, or at the first group that is too
deep. -/
theorem Draft.run_of_le (hls : ∀ x ∈ ls, x.Flat) (hd : d.depth ≤ limit)
    (h : ls.foldlM (Draft.step bound) d = .ok e) :
    ls.foldlM (Draft.step limit) d =
      if e.depth ≤ limit then .ok e else .error (.nestedTooDeep limit) := by
  induction ls generalizing d with
  | nil =>
    cases h
    rw [if_pos hd]
    rfl
  | cons x ls ih =>
    obtain ⟨hx, hls⟩ := List.forall_mem_cons.1 hls
    obtain ⟨d₁, hstep, h⟩ := bind_eq_ok.1 h
    rw [List.foldlM_cons, (step_eq_ok_iff.1 hstep).step_of_le hx hd]
    by_cases hd₁ : d₁.depth ≤ limit
    · rw [if_pos hd₁]
      exact ih hls hd₁ h
    · have he : ¬ e.depth ≤ limit := fun he => hd₁ ((depth_le_of_run hls h).trans he)
      rw [if_neg hd₁, if_neg he]
      rfl

theorem Draft.depth_of_finish {p : Pattern} (h : d.finish = .ok p) : d.depth = p.depth := by
  obtain ⟨haround, rfl⟩ := finish_eq_ok_iff.1 h
  rw [depth, haround, Layers.depth, Layers.depth, Layer.depth_toPattern]
  simp

variable {t : Text} {symbols : List Char} {p : Pattern}

/-- A pattern that can be read with some limit is read in the same way with every limit that its
groups keep within, so with every larger one, and is refused with every other limit for the group
that is too deep. -/
theorem parse_eq_ite_depth (h : parse t symbols bound = .ok p) :
    (∀ limit, parse t symbols limit =
      if p.depth ≤ limit then .ok p else .error (.nestedTooDeep limit)) ∧
    ∀ limit ≥ bound, parse t symbols limit = .ok p := by
  have hall (limit : ℕ) : parse t symbols limit =
      if p.depth ≤ limit then .ok p else .error (.nestedTooDeep limit) := by
    obtain ⟨d, hrun, hfinish⟩ := bind_eq_ok.1 h
    have hrun' := Draft.run_of_le (flat_lexemes _) (Nat.zero_le limit) hrun
    rw [parse, ofTokens, ofLexemes, hrun', Draft.depth_of_finish hfinish]
    split
    · exact hfinish
    · rfl
  exact ⟨hall, fun limit hle => (hall limit).trans (if_pos ((depth_le_of_parse h).trans hle))⟩

/-- Groups side by side and with quantifiers do not add up. -/
theorem parse_eq_ite_depth_siblings :
    let p : Pattern := [[⟨.oneOrMore, .group [[⟨.once, .symbol 0⟩,
      ⟨.optional, .group [[⟨.once, .literal 'x'⟩]]⟩]]⟩, ⟨.once, .group [[⟨.once, .symbol 0⟩]]⟩]]
    parse "(a(?:x)?)+(a)".toList ['a'] 8 = .ok p ∧
      parse "(a(?:x)?)+(a)".toList ['a'] 2 = .ok p ∧
      parse "(a(?:x)?)+(a)".toList ['a'] 1 = .error (.nestedTooDeep 1) ∧
      parse "(a(?:x)?)+(a)".toList ['a'] 9 = .ok p := by
  intro p
  have h : parse "(a(?:x)?)+(a)".toList ['a'] 8 = .ok p := by cbv
  obtain ⟨hall, hge⟩ := parse_eq_ite_depth h
  exact ⟨h, hall 2, hall 1, hge 9 (by decide)⟩

end Pattern

end Confection
