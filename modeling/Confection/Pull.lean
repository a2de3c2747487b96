/-!
# Pulling elements one by one

A lazy sequence is a state with a function `next` that gives the first element and the state after
it, or nothing at the end.  `pull` takes a bounded number of elements and gives the state after
them, so that the sequence can be taken further later; a sequence that has ended leaves no state.

No state is kept while the next one is made, so a large state can be changed in place.
-/

namespace Confection

variable {σ α : Type}

/-- Adds up to `n` further elements, last first, to those collected. -/
def pullOnto (next : σ → Option (α × σ)) : Nat → List α → σ → List α × Option σ
  | 0, collected, s => (collected, some s)
  | n + 1, collected, s =>
    match next s with
    | none => (collected, none)
    | some (a, s) => pullOnto next n (a :: collected) s

/-- Up to `n` elements of the sequence, fewer only if it ends, and the state after them if it does
not. -/
def pull (next : σ → Option (α × σ)) (n : Nat) (s : σ) : List α × Option σ :=
  let (collected, s) := pullOnto next n [] s
  (collected.reverse, s)

private theorem pullOnto_eq (next : σ → Option (α × σ)) (n : Nat) (collected : List α) (s : σ) :
    pullOnto next n collected s =
      ((pull next n s).1.reverse ++ collected, (pull next n s).2) := by
  induction n generalizing collected s with
  | zero => simp [pullOnto, pull]
  | succ n ih =>
    rw [pull, pullOnto, pullOnto]
    cases next s with
    | none => simp
    | some p => obtain ⟨a, s'⟩ := p; simp [ih]

@[simp] theorem pull_zero (next : σ → Option (α × σ)) (s : σ) : pull next 0 s = ([], some s) := rfl

theorem pull_succ_none {next : σ → Option (α × σ)} {s : σ} (h : next s = none) (n : Nat) :
    pull next (n + 1) s = ([], none) := by
  simp [pull, pullOnto, h]

theorem pull_succ_some {next : σ → Option (α × σ)} {s s' : σ} {a : α} (h : next s = some (a, s'))
    (n : Nat) : pull next (n + 1) s = (a :: (pull next n s').1, (pull next n s').2) := by
  simp [pull, pullOnto, h, pullOnto_eq next n [a]]

end Confection
