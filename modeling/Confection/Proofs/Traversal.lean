import Mathlib.Data.List.Forall2
import Mathlib.Data.List.Infix

/-!
# Computations that can fail, along a list

A computation on each element of a list, or one that takes a state through a list, ends at the first
failure.  The lemmas say when such a run succeeds, and which element is at fault when it does not.

`before ++ [x] <+: xs` says where in the list the element stands: right after `before`.
-/

namespace Confection

variable {ε α β : Type}

/-! ## Two steps -/

/-- A computation made of two steps succeeds when both do. -/
theorem bind_eq_ok {x : Except ε α} {f : α → Except ε β} {b : β} :
    x >>= f = .ok b ↔ ∃ a, x = .ok a ∧ f a = .ok b := by
  cases x with
  | error e => simp [bind, Except.bind]
  | ok a => simp [bind, Except.bind]

/-- A computation made of two steps fails when the first does, or else the second. -/
theorem bind_eq_error {x : Except ε α} {f : α → Except ε β} {e : ε} :
    x >>= f = .error e ↔ x = .error e ∨ ∃ a, x = .ok a ∧ f a = .error e := by
  cases x with
  | error e => simp [bind, Except.bind]
  | ok a => simp [bind, Except.bind]

/-- A computation that only returns something succeeds with it. -/
theorem pure_eq_ok {a b : α} : (pure a : Except ε α) = .ok b ↔ b = a :=
  ⟨fun h => (Except.ok.inj h).symm, fun h => congrArg Except.ok h.symm⟩

/-! ## One computation for each element -/

section Each

variable {f : α → Except ε β} {xs : List α} {ys : List β}

/-- It succeeds with one result for each element. -/
theorem mapM_eq_ok_iff : xs.mapM f = .ok ys ↔ List.Forall₂ (f · = .ok ·) xs ys := by
  induction xs generalizing ys with
  | nil =>
    rw [List.forall₂_nil_left_iff]
    exact ⟨fun h => by cases h; rfl, fun h => congrArg Except.ok h.symm⟩
  | cons x xs ih =>
    rw [List.mapM_cons, bind_eq_ok, List.forall₂_cons_left_iff]
    constructor
    · rintro ⟨y, hy, h⟩
      obtain ⟨ys, hys, h⟩ := bind_eq_ok.1 h
      cases h
      exact ⟨y, ys, hy, ih.1 hys, rfl⟩
    · rintro ⟨y, ys, hy, hys, rfl⟩
      exact ⟨y, hy, bind_eq_ok.2 ⟨ys, ih.2 hys, rfl⟩⟩

/-- What is in the results has come from one of the elements. -/
theorem exists_of_mapM_eq_ok (h : xs.mapM f = .ok ys) : ∀ y ∈ ys, ∃ x ∈ xs, f x = .ok y := by
  have hall := mapM_eq_ok_iff.1 h
  clear h
  induction hall with
  | nil => exact List.forall_mem_nil _
  | cons hy _ ih =>
    refine List.forall_mem_cons.2 ⟨⟨_, List.mem_cons_self, hy⟩, fun z hz => ?_⟩
    obtain ⟨x, hx, hz⟩ := ih z hz
    exact ⟨x, List.mem_cons_of_mem _ hx, hz⟩

/-- It fails as on the first element on which it does not succeed. -/
theorem mapM_eq_error_iff {e : ε} :
    xs.mapM f = .error e ↔ ∃ before x after, xs = before ++ x :: after ∧
      (∀ w ∈ before, ∃ y, f w = .ok y) ∧ f x = .error e := by
  constructor
  · intro h
    induction xs with
    | nil => cases h
    | cons x xs ih =>
      rw [List.mapM_cons] at h
      rcases bind_eq_error.1 h with hx | ⟨y, hy, h⟩
      · exact ⟨[], x, xs, rfl, List.forall_mem_nil _, hx⟩
      · rcases bind_eq_error.1 h with h | ⟨ys, -, h⟩
        · obtain ⟨before, x', after, rfl, hbefore, hx'⟩ := ih h
          exact ⟨x :: before, x', after, rfl, List.forall_mem_cons.2 ⟨⟨y, hy⟩, hbefore⟩, hx'⟩
        · cases h
  · rintro ⟨before, x, after, rfl, hbefore, hx⟩
    induction before with
    | nil => exact List.mapM_cons.trans (bind_eq_error.2 (.inl hx))
    | cons w before ih =>
      obtain ⟨⟨y, hy⟩, hbefore⟩ := List.forall_mem_cons.1 hbefore
      rw [List.cons_append, List.mapM_cons]
      exact bind_eq_error.2 (.inr ⟨y, hy, bind_eq_error.2 (.inl (ih hbefore))⟩)

end Each

/-! ## A state taken through the list -/

section State

variable {f : β → α → Except ε β} {xs : List α} {x : α} {b c : β} {e : ε}

theorem foldlM_concat : (xs ++ [x]).foldlM f b = (xs.foldlM f b >>= fun c => f c x) := by
  rw [List.foldlM_append]
  exact bind_congr fun c => bind_pure (f c x)

/-- It fails exactly if the state after the elements before some element does not admit that one. -/
theorem foldlM_eq_error_iff : xs.foldlM f b = .error e ↔
    ∃ before x c, before ++ [x] <+: xs ∧ before.foldlM f b = .ok c ∧ f c x = .error e := by
  induction xs using List.reverseRecOn with
  | nil => simp [pure, Except.pure]
  | append_singleton xs x ih =>
    rw [foldlM_concat, bind_eq_error, ih]
    constructor
    · rintro (⟨before, y, c, hplace, h⟩ | ⟨c, hc, hx⟩)
      · exact ⟨before, y, c, hplace.trans (List.prefix_append xs [x]), h⟩
      · exact ⟨xs, x, c, List.prefix_refl _, hc, hx⟩
    · rintro ⟨before, y, c, hplace, hc, hy⟩
      rcases List.prefix_concat_iff.1 hplace with heq | hplace
      · obtain ⟨rfl, rfl⟩ := List.append_singleton_inj.1 heq
        exact .inr ⟨c, hc, hy⟩
      · exact .inl ⟨before, y, c, hplace, hc, hy⟩

/-- Nothing after a failure can undo it. -/
theorem foldlM_eq_error_of_prefix {ys : List α} (hplace : ys <+: xs)
    (h : ys.foldlM f b = .error e) : xs.foldlM f b = .error e := by
  obtain ⟨before, x, c, hx, hfails⟩ := foldlM_eq_error_iff.1 h
  exact foldlM_eq_error_iff.2 ⟨before, x, c, hx.trans hplace, hfails⟩

end State

end Confection
