import Confection.Proofs.Pattern.Lexing

/-!
# Reading on from a draft

What is read after something else has been read differs from what is read by itself in one place:
its first alternative goes on from where the other has stopped.  `Draft.Onto` relates the two
readings lexeme by lexeme.  The reading by itself must succeed: a quantifier at its start would be a
mistake there, but may apply to what comes before it.

## Shape of the proof

The outermost layer is the only one that differs, so `Layer.Onto` relates layers, with a lemma for
each thing that is done to a layer, and `Draft.Onto` says which of the layers it is.
-/

namespace Confection.Pattern

/-- The first pattern with the second one after it: the last alternative of the one and the first of
the other become one alternative. -/
def join : Pattern → Pattern → Pattern
  | [], q => q
  | [s], t :: q => (s ++ t) :: q
  | s :: p, q => s :: join p q

theorem join_append_singleton (p : Pattern) (s t : Sequence) (q : Pattern) :
    join (p ++ [s]) (t :: q) = p ++ (s ++ t) :: q := by
  induction p with
  | nil => rfl
  | cons r p ih =>
    cases p with
    | nil => rfl
    | cons r' p => exact congrArg (r :: ·) ih

/-! ## Layers -/

/-- The second layer is the first one, written after `base`. -/
inductive Layer.Onto (base : Layer) : Layer → Layer → Prop
  | current (items : Sequence) : Onto base ⟨[], items⟩ ⟨base.complete, items ++ base.items⟩
  | later (complete : List Sequence) (first items : Sequence) :
      Onto base ⟨complete ++ [first], items⟩
        ⟨complete ++ (base.items.reverse ++ first) :: base.complete, items⟩

namespace Layer.Onto

variable {base l l' : Layer}

theorem refl_empty (base : Layer) : Onto base .empty base := .current []

theorem push (h : Onto base l l') (it : Item) : Onto base (l.push it) (l'.push it) := by
  cases h with
  | current items => exact .current (it :: items)
  | later complete first items => exact .later complete first (it :: items)

theorem requantify (h : Onto base l l') (hitems : l.items ≠ []) (q : Quantifier) :
    Onto base (l.requantify q) (l'.requantify q) := by
  cases h with
  | current items =>
    obtain ⟨it, items, rfl⟩ := List.exists_cons_of_ne_nil hitems
    exact .current (⟨q, it.element⟩ :: items)
  | later complete first items =>
    obtain ⟨it, items, rfl⟩ := List.exists_cons_of_ne_nil hitems
    exact .later complete first (⟨q, it.element⟩ :: items)

theorem nextAlternative (h : Onto base l l') : Onto base l.nextAlternative l'.nextAlternative := by
  cases h with
  | current items =>
    have hlayer : Onto base _ _ := later [] items.reverse []
    rwa [List.nil_append, List.nil_append, ← List.reverse_append] at hlayer
  | later complete first items => exact .later (items.reverse :: complete) first []

theorem toPattern (h : Onto base l l') : l'.toPattern = base.toPattern.join l.toPattern := by
  cases h with
  | current items => simp [Layer.toPattern, join_append_singleton]
  | later complete first items => simp [Layer.toPattern, join_append_singleton]

end Layer.Onto

theorem Layer.push_items_ne_nil (l : Layer) (it : Item) : (l.push it).items ≠ [] :=
  List.cons_ne_nil _ _

theorem Layer.requantify_items_ne_nil {l : Layer} (h : l.items ≠ []) (q : Quantifier) :
    (l.requantify q).items ≠ [] := by
  obtain ⟨it, items, hitems⟩ := List.exists_cons_of_ne_nil h
  simp [Layer.requantify, hitems]

/-- A pattern that is written has an alternative. -/
theorem Layer.toPattern_ne_nil (l : Layer) : l.toPattern ≠ [] := by simp [Layer.toPattern]

/-! ## Drafts -/

/-- The second draft is the first one, with its outermost layer written after `base`.  Where the
next lexeme may do something to the last item of the first draft, it may do the same in the
second. -/
inductive Draft.Onto (base : Layer) : Draft → Draft → Prop
  | outermost {l l' slot slot'} (h : Layer.Onto base l l')
      (hslot : slot ≠ .closed → slot' = slot ∧ l.items ≠ []) :
      Onto base ⟨l, [], slot⟩ ⟨l', [], slot'⟩
  | inside {l around outer outer' slot slot'} (h : Layer.Onto base outer outer')
      (hslot : slot ≠ .closed → slot' = slot ∧ l.items ≠ []) :
      Onto base ⟨l, around ++ [outer], slot⟩ ⟨l, around ++ [outer'], slot'⟩

namespace Draft.Onto

variable {base : Layer} {d d' e : Draft} {limit : ℕ}

/-- A draft in which no group is open goes on from its own layer. -/
theorem empty (base : Layer) (slot : Slot) : Onto base .empty ⟨base, [], slot⟩ :=
  .outermost (.refl_empty base) fun h => absurd rfl h

theorem slot_eq (h : Onto base d d') (hslot : d.slot ≠ .closed) :
    d'.slot = d.slot ∧ d.layer.items ≠ [] := by
  cases h with
  | outermost _ h => exact h hslot
  | inside _ h => exact h hslot

/-- The last item of both drafts gets the same quantifier. -/
theorem requantify (h : Onto base d d') (hitems : d.layer.items ≠ []) (q : Quantifier)
    (slot : Slot) :
    Onto base { d with layer := d.layer.requantify q, slot := slot }
      { d' with layer := d'.layer.requantify q, slot := slot } := by
  have hitems' : (d.layer.requantify q).items ≠ [] := Layer.requantify_items_ne_nil hitems q
  cases h with
  | outermost h => exact .outermost (h.requantify hitems q) fun _ => ⟨rfl, hitems'⟩
  | inside h => exact .inside h fun _ => ⟨rfl, hitems'⟩

/-- Nothing more may be done to the last item of either draft. -/
theorem close (h : Onto base d d') :
    Onto base { d with slot := .closed } { d' with slot := .closed } := by
  cases h with
  | outermost h => exact .outermost h fun h => absurd rfl h
  | inside h => exact .inside h fun h => absurd rfl h

/-- A lexeme that can be read by itself does the same after something else. -/
theorem step {x : Lexeme} (h : Onto base d d') (hx : d.step limit x = .ok e) :
    ∃ e', d'.step limit x = .ok e' ∧ Onto base e e' := by
  simp only [step_eq_ok_iff] at hx ⊢
  cases hx with
  | element el =>
    refine ⟨_, .element el, ?_⟩
    cases h with
    | outermost h => exact .outermost (h.push _) fun _ => ⟨rfl, Layer.push_items_ne_nil _ _⟩
    | inside h => exact .inside h fun _ => ⟨rfl, Layer.push_items_ne_nil _ _⟩
  | repetition hslot =>
    obtain ⟨hslot', hitems⟩ := h.slot_eq (by simp [hslot])
    exact ⟨_, .repetition (hslot'.trans hslot), h.requantify hitems _ .quantified⟩
  | lazy hslot =>
    obtain ⟨hslot', -⟩ := h.slot_eq (by simp [hslot])
    exact ⟨_, .lazy (hslot'.trans hslot), h.close⟩
  | bar =>
    refine ⟨_, .bar, ?_⟩
    cases h with
    | outermost h => exact .outermost h.nextAlternative fun h => absurd rfl h
    | inside h => exact .inside h fun h => absurd rfl h
  | opening hdepth =>
    cases h with
    | @outermost l _ _ _ h =>
      refine ⟨_, .opening hdepth, ?_⟩
      show Onto base ⟨.empty, [] ++ [l], .closed⟩ _
      exact .inside h fun h => absurd rfl h
    | @inside l around outer _ _ _ h =>
      refine ⟨_, .opening (by simpa using hdepth), ?_⟩
      show Onto base ⟨.empty, (l :: around) ++ [outer], .closed⟩ _
      exact .inside h fun h => absurd rfl h
  | closing haround =>
    cases h with
    | outermost => cases haround
    | @inside l around outer outer' _ _ h =>
      cases around with
      | nil =>
        cases haround
        exact ⟨_, .closing rfl, .outermost (h.push _) fun _ => ⟨rfl, Layer.push_items_ne_nil _ _⟩⟩
      | cons enclosing around =>
        cases haround
        exact ⟨_, .closing rfl, .inside h fun _ => ⟨rfl, Layer.push_items_ne_nil _ _⟩⟩

/-- What can be read by itself is read on from any draft in which no group is open. -/
theorem run {ls : List Lexeme} (h : Onto base d d') (hd : ls.foldlM (Draft.step limit) d = .ok e) :
    ∃ e', ls.foldlM (Draft.step limit) d' = .ok e' ∧ Onto base e e' := by
  induction ls generalizing d d' with
  | nil =>
    cases hd
    exact ⟨d', rfl, h⟩
  | cons x ls ih =>
    obtain ⟨d₁, hstep, hd⟩ := bind_eq_ok.1 hd
    obtain ⟨d₁', hstep', h⟩ := h.step hstep
    obtain ⟨e', hd', h⟩ := ih h hd
    exact ⟨e', bind_eq_ok.2 ⟨d₁', hstep', hd'⟩, h⟩

theorem finish {p : Pattern} (h : Onto base d d') (hp : d.finish = .ok p) :
    d'.finish = .ok (base.toPattern.join p) := by
  cases h with
  | outermost h =>
    cases hp
    exact congrArg Except.ok h.toPattern
  | inside h => simp [Draft.finish] at hp

end Draft.Onto

/-- An element in front of a pattern that can be read by itself is put in front of its first
alternative. -/
theorem ofLexemes_element {limit : ℕ} {ls : List Lexeme} {p : Pattern} (e : Element)
    (h : ofLexemes limit ls = .ok p) :
    ofLexemes limit (.element e :: ls) = .ok (p.modifyHead (⟨.once, e⟩ :: ·)) := by
  obtain ⟨d, hrun, hfinish⟩ := bind_eq_ok.1 h
  obtain ⟨d', hrun', hd⟩ := (Draft.Onto.empty ⟨[], [⟨.once, e⟩]⟩ .bare).run hrun
  have hne : p ≠ [] := by
    unfold Draft.finish at hfinish
    split at hfinish
    · cases hfinish
      exact d.layer.toPattern_ne_nil
    · cases hfinish
  have hjoin : join [[⟨.once, e⟩]] p = p.modifyHead (⟨.once, e⟩ :: ·) := by
    obtain ⟨s, q, rfl⟩ := List.exists_cons_of_ne_nil hne
    rfl
  rw [← hjoin]
  exact bind_eq_ok.2 ⟨d', bind_eq_ok.2 ⟨_, rfl, hrun'⟩, hd.finish hfinish⟩

end Confection.Pattern
