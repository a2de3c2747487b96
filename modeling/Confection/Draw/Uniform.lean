import Confection.Draw.Sources
import Confection.Pattern.Basic

/-!
# Uniform choices

A word `v`, one of `words` many, is turned into a number below `n` by a widening multiplication: the
number is the high part of `v * n`, its quotient by `words`, and the word is rejected when the low
part lies above a bound, the *zone*.  With a zone that keeps a multiple of `n` words every number
has the same chance.

* A number from an interval, and an element of a list, use the zone that is `n` shifted up to the
  top bit, less one.  It is cheap to compute and rejects less than half of all words.
* A printable character uses the greatest zone.

A source could reject without end only if it never gave a word in the zone.  The number of
rejections is therefore bounded by a number that no run reaches, and then the last word counts: a
drawn number is below `n` whatever the source does.

## Shape of a draw

`below_lt` says that a drawn number is in range, `choose_mem` that a drawn element is in the list,
`between_mem` that a drawn number is in the interval, and `printable_mem` that a drawn character is
printable.
-/

namespace Confection.Draw

variable {σ α : Type}

/-- The bound on the low part that is `n` shifted up to the top of `bits` bits, less one. -/
def shiftedZone (bits n : Nat) : Nat := (n <<< (bits - 1 - n.log2)) - 1

/-- The greatest bound on the low part that keeps a multiple of `n` of the words. -/
def greatestZone (words n : Nat) : Nat := words - 1 - (words - n) % n

/-- After this many rejections a word is taken as it is. -/
def maxRejections : Nat := UInt64.size

/-- A number below `n`, drawn with words below `words` of which at most the given number are
rejected for a low part above `zone`. -/
def below (word : σ → Nat × σ) (words zone n : Nat) : Nat → σ → Nat × σ
  | 0, s =>
    let (v, s) := word s
    (v * n / words, s)
  | rejections + 1, s =>
    let (v, s) := word s
    if v * n % words ≤ zone then (v * n / words, s) else below word words zone n rejections s

section

variable [WordSource σ]

/-- A 32-bit word as a number. -/
def word32 (s : σ) : Nat × σ := (WordSource.word32 s).map UInt32.toNat id

/-- A 64-bit word as a number. -/
def word64 (s : σ) : Nat × σ := (WordSource.word64 s).map UInt64.toNat id

/-- An element of the list; none, and nothing drawn, if the list is empty. -/
def choose (xs : List α) (s : σ) : Option α × σ :=
  if xs.isEmpty then (none, s)
  else
    let (i, s) := below word32 UInt32.size (shiftedZone 32 xs.length) xs.length maxRejections s
    (xs[i]?, s)

/-- A number from `lo` to `hi`.  A word is drawn even if there is only one such number. -/
def between (lo hi : Nat) (s : σ) : Nat × σ :=
  let n := hi - lo + 1
  let (i, s) := below word64 UInt64.size (shiftedZone 64 n) n maxRejections s
  (lo + i, s)

/-- A printable ASCII character. -/
def printable (s : σ) : Option Char × σ :=
  let n := printableAscii.length
  let (i, s) := below word32 UInt32.size (greatestZone UInt32.size n) n maxRejections s
  (printableAscii[i]?, s)

end

/-- A drawn number is in range, whatever the words are. -/
theorem below_lt {word : σ → Nat × σ} {words n : Nat} (hword : ∀ s, (word s).1 < words)
    (hn : 0 < n) (zone rejections : Nat) (s : σ) :
    (below word words zone n rejections s).1 < n := by
  have hlt (v : Nat) (hv : v < words) : v * n / words < n := by
    rw [Nat.div_lt_iff_lt_mul (Nat.zero_lt_of_lt hv), Nat.mul_comm n]
    exact Nat.mul_lt_mul_of_pos_right hv hn
  induction rejections generalizing s with
  | zero => exact hlt _ (hword s)
  | succ k ih =>
    rw [below]
    split
    next v s' hv =>
    split
    · have := hword s
      rw [hv] at this
      exact hlt _ this
    · exact ih s'

variable [WordSource σ]

theorem word32_lt (s : σ) : (word32 s).1 < UInt32.size := UInt32.toNat_lt_size _

theorem word64_lt (s : σ) : (word64 s).1 < UInt64.size := UInt64.toNat_lt_size _

/-- Of a list that is not empty an element is drawn. -/
theorem choose_mem {xs : List α} (h : xs ≠ []) (s : σ) : ∃ x ∈ xs, (choose xs s).1 = some x := by
  have hlt := below_lt word32_lt (List.length_pos_iff.2 h) (shiftedZone 32 xs.length)
    maxRejections s
  refine ⟨_, List.getElem_mem hlt, ?_⟩
  simp [choose, h]

/-- A number is drawn from the interval. -/
theorem between_mem {lo hi : Nat} (h : lo ≤ hi) (s : σ) :
    lo ≤ (between lo hi s).1 ∧ (between lo hi s).1 ≤ hi := by
  have hlt := below_lt word64_lt (show 0 < hi - lo + 1 by omega) (shiftedZone 64 (hi - lo + 1))
    maxRejections s
  simp only [between]
  omega

/-- A printable character is drawn. -/
theorem printable_mem (s : σ) : ∃ c ∈ printableAscii, (printable s).1 = some c := by
  have hpos : 0 < printableAscii.length := by decide
  have hlt := below_lt word32_lt hpos (greatestZone UInt32.size printableAscii.length)
    maxRejections s
  refine ⟨_, List.getElem_mem hlt, ?_⟩
  simp [printable]

end Confection.Draw
