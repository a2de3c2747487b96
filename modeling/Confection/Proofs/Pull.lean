import Mathlib.Data.Nat.Notation
import Confection.Pull

/-!
# Lazy sequences that end

`Yields next s xs` says that the lazy sequence from the state `s` ends and that its elements are
`xs`.  It is about `pull`: some number of elements can be asked for so that all of `xs` comes and no
state is left.
-/

namespace Confection

variable {σ α : Type} {next : σ → Option (α × σ)} {s s' : σ} {a : α} {xs : List α}

/-- The sequence from `s` consists of `xs` and then ends. -/
def Yields (next : σ → Option (α × σ)) (s : σ) (xs : List α) : Prop :=
  ∃ n, pull next n s = (xs, none)

/-- A state yields nothing exactly if it has no next element. -/
theorem yields_nil_iff : Yields next s [] ↔ next s = none := by
  constructor
  · rintro ⟨n, hn⟩
    cases n with
    | zero => cases hn
    | succ n =>
      cases hs : next s with
      | none => rfl
      | some p => rw [pull_succ_some hs] at hn; cases hn
  · intro h
    exact ⟨1, pull_succ_none h 0⟩

/-- A state yields its next element and then what the state after it yields. -/
theorem yields_cons_iff :
    Yields next s (a :: xs) ↔ ∃ s', next s = some (a, s') ∧ Yields next s' xs := by
  constructor
  · rintro ⟨n, hn⟩
    cases n with
    | zero => cases hn
    | succ n =>
      cases hs : next s with
      | none => rw [pull_succ_none hs] at hn; cases hn
      | some p =>
        obtain ⟨b, s'⟩ := p
        rw [pull_succ_some hs, Prod.mk.injEq, List.cons.injEq] at hn
        obtain ⟨⟨rfl, hxs⟩, hend⟩ := hn
        exact ⟨s', rfl, n, Prod.ext hxs hend⟩
  · rintro ⟨s', hs, n, hn⟩
    exact ⟨n + 1, by rw [pull_succ_some hs, hn]⟩

/-- A state yields one list only. -/
theorem Yields.unique {ys : List α} (hxs : Yields next s xs) (hys : Yields next s ys) :
    xs = ys := by
  induction xs generalizing s ys with
  | nil =>
    have hend := yields_nil_iff.1 hxs
    cases ys with
    | nil => rfl
    | cons b ys =>
      obtain ⟨_, hnext, -⟩ := yields_cons_iff.1 hys
      rw [hend] at hnext
      cases hnext
  | cons a xs ih =>
    obtain ⟨s', hnext, hrest⟩ := yields_cons_iff.1 hxs
    cases ys with
    | nil =>
      rw [yields_nil_iff.1 hys] at hnext
      cases hnext
    | cons b ys =>
      obtain ⟨s'', hnext', hrest'⟩ := yields_cons_iff.1 hys
      rw [hnext] at hnext'
      cases hnext'
      rw [ih hrest hrest']

/-- A state yields what another with the same next element yields. -/
theorem Yields.of_next_eq (h : next s = next s') (hxs : Yields next s' xs) : Yields next s xs := by
  cases xs with
  | nil => rw [yields_nil_iff] at hxs ⊢; exact h.trans hxs
  | cons a xs => rw [yields_cons_iff] at hxs ⊢; rwa [h]

end Confection
