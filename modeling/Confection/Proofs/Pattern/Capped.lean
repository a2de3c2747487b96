import Mathlib.Algebra.Order.Monoid.Unbundled.Pow
import Confection.Proofs.Pattern.Language
import Confection.Proofs.Pattern.WellFormed

/-!
# Patterns with a cap on repetitions

Where a pattern gives no greatest number of repetitions, a random string has at most a limit that is
set elsewhere, or the least number if this is greater.  `Pattern.capped` writes this bound into the
pattern.  What is left is a well-formed pattern with a smaller language.
-/

namespace Confection

/-- The quantifier with `limit`, or the least number of repetitions, for a greatest number that is
missing. -/
def Quantifier.capped (limit : ℕ) (q : Quantifier) : Quantifier :=
  match q.max? with
  | some _ => q
  | none => .between q.min (max limit q.min)

mutual

/-- The element with a cap on all repetitions in it. -/
def Element.capped (limit : ℕ) : Element → Element
  | .symbol i => .symbol i
  | .literal c => .literal c
  | .oneOf members => .oneOf members
  | .any => .any
  | .group p => .group (Pattern.capped limit p)
termination_by structural e => e

/-- The sequence with a cap on all repetitions in it, at any depth. -/
def Sequence.capped (limit : ℕ) : Sequence → Sequence
  | [] => []
  | ⟨q, e⟩ :: rest => ⟨q.capped limit, e.capped limit⟩ :: Sequence.capped limit rest
termination_by structural s => s

/-- The pattern with a cap on all repetitions in it, at any depth. -/
def Pattern.capped (limit : ℕ) : Pattern → Pattern
  | [] => []
  | s :: rest => Sequence.capped limit s :: Pattern.capped limit rest
termination_by structural p => p

end

namespace Quantifier

variable {limit : ℕ} {q : Quantifier}

@[simp] theorem min_capped : (q.capped limit).min = q.min := by
  unfold capped
  split <;> rfl

@[simp] theorem max?_capped : (q.capped limit).max? = some (q.max?.getD (max limit q.min)) := by
  unfold capped
  split
  · next m hm => rw [hm]; rfl
  · next hm => rw [hm]; rfl

theorem Ordered.capped (h : q.Ordered) (limit : ℕ) : (q.capped limit).Ordered := by
  intro m hm
  rw [max?_capped, Option.mem_some_iff] at hm
  rw [min_capped, ← hm]
  cases hmax : q.max? with
  | none => exact Nat.le_max_right limit q.min
  | some m => exact h m hmax

/-- A number of repetitions that the cap allows is allowed without it. -/
theorem Allows.of_capped {k : ℕ} (h : (q.capped limit).Allows k) : q.Allows k := by
  obtain ⟨hmin, hmax⟩ := h
  rw [min_capped] at hmin
  refine ⟨hmin, fun m hm => hmax m ?_⟩
  rw [max?_capped, hm]
  rfl

end Quantifier

section

variable (limit : ℕ) {n : ℕ}

mutual

theorem Element.WellFormed.capped : ∀ {e : Element}, e.WellFormed n → (e.capped limit).WellFormed n
  | .symbol _, h => h
  | .literal _, h => h
  | .oneOf _, h => h
  | .any, h => h
  | .group [], h => absurd rfl h.1
  | .group (_ :: _), h => ⟨List.cons_ne_nil _ _, Pattern.alternativesWellFormed_capped h.2⟩

theorem Sequence.WellFormed.capped : ∀ {s : Sequence}, Sequence.WellFormed n s →
    Sequence.WellFormed n (Sequence.capped limit s)
  | [], _ => trivial
  | ⟨_, _⟩ :: _, h =>
    ⟨⟨h.1.1.capped limit, Element.WellFormed.capped h.1.2⟩, Sequence.WellFormed.capped h.2⟩

theorem Pattern.alternativesWellFormed_capped : ∀ {p : Pattern},
    Pattern.AlternativesWellFormed n p →
      Pattern.AlternativesWellFormed n (Pattern.capped limit p)
  | [], _ => trivial
  | _ :: _, h => ⟨Sequence.WellFormed.capped h.1, Pattern.alternativesWellFormed_capped h.2⟩

end

/-- A cap keeps a pattern well-formed. -/
theorem Pattern.WellFormed.capped {p : Pattern} (h : p.WellFormed n) :
    (Pattern.capped limit p).WellFormed n :=
  Element.WellFormed.capped limit (e := .group p) h

variable {α : Type*} (of : Atom → Language α)

mutual

theorem Element.mem_language_of_capped : ∀ (e : Element) {w : List α},
    w ∈ (e.capped limit).language of → w ∈ e.language of
  | .symbol _, _, hw => hw
  | .literal _, _, hw => hw
  | .oneOf _, _, hw => hw
  | .any, _, hw => hw
  | .group p, _, hw => Pattern.mem_language_of_capped p hw

theorem Sequence.mem_language_of_capped : ∀ (s : Sequence) {w : List α},
    w ∈ Sequence.language of (Sequence.capped limit s) → w ∈ Sequence.language of s
  | [], _, hw => hw
  | ⟨_, e⟩ :: rest, _, hw => by
    obtain ⟨u, ⟨k, hk, hu⟩, v, hv, rfl⟩ := hw
    have hle : (e.capped limit).language of ≤ e.language of := fun _ => e.mem_language_of_capped
    exact ⟨u, ⟨k, hk.of_capped, pow_le_pow_left' hle k hu⟩, v,
      Sequence.mem_language_of_capped rest hv, rfl⟩

/-- A cap makes no new words. -/
theorem Pattern.mem_language_of_capped : ∀ (p : Pattern) {w : List α},
    w ∈ Pattern.language of (Pattern.capped limit p) → w ∈ Pattern.language of p
  | [], _, hw => hw
  | s :: _, _, Or.inl hw => Or.inl (Sequence.mem_language_of_capped s hw)
  | _ :: rest, _, Or.inr hw => Or.inr (Pattern.mem_language_of_capped rest hw)

end

end

/-! ## What a cap leaves out

A bounded pattern has nothing to cap.  In any other, the words that are no longer than the limit
stay: of the rounds that make such a word, those that add nothing can be left out. -/

section

variable {α : Type*} {l m : Language α}

/-- The rounds that make a word can be fewer, down to some number that is no greater than the length
of the word: rounds that add nothing are left out. -/
theorem exists_forall_mem_pow {k : ℕ} {w : List α} (hw : w ∈ l ^ k) :
    ∃ j ≤ k, j ≤ w.length ∧ ∀ i, j ≤ i → i ≤ k → w ∈ l ^ i := by
  induction k generalizing w with
  | zero =>
    refine ⟨0, Nat.le_refl 0, Nat.zero_le _, fun i _ hi => ?_⟩
    rwa [Nat.le_zero.1 hi]
  | succ k ih =>
    rw [pow_succ', Language.mem_mul] at hw
    obtain ⟨u, hu, v, hv, rfl⟩ := hw
    obtain ⟨j, hjk, hjv, hpow⟩ := ih hv
    have hsucc (i : ℕ) (hji : j ≤ i) (hik : i ≤ k) : u ++ v ∈ l ^ (i + 1) := by
      rw [pow_succ']
      exact Language.append_mem_mul hu (hpow i hji hik)
    by_cases hempty : u = []
    · refine ⟨j, by omega, by rw [List.length_append]; omega, fun i hji hik => ?_⟩
      by_cases hlast : i ≤ k
      · rw [hempty, List.nil_append]
        exact hpow i hji hlast
      · obtain rfl : i = k + 1 := by omega
        exact hsucc k hjk (Nat.le_refl k)
    · have hpos : 0 < u.length := List.length_pos_iff.2 hempty
      refine ⟨j + 1, by omega, by rw [List.length_append]; omega, fun i hji hik => ?_⟩
      obtain ⟨i, rfl⟩ : ∃ i', i = i' + 1 := ⟨i - 1, by omega⟩
      exact hsucc i (by omega) (by omega)

/-- Words of a length that is within the limit are made of words of such a length. -/
theorem mem_pow_of_length_le {limit : ℕ} (h : ∀ u ∈ l, u.length ≤ limit → u ∈ m) (k : ℕ)
    {w : List α} (hw : w ∈ l ^ k) (hlength : w.length ≤ limit) : w ∈ m ^ k := by
  induction k generalizing w with
  | zero => exact hw
  | succ k ih =>
    rw [pow_succ', Language.mem_mul] at hw
    obtain ⟨u, hu, v, hv, rfl⟩ := hw
    rw [List.length_append] at hlength
    rw [pow_succ']
    exact Language.append_mem_mul (h u hu (by omega)) (ih hv (by omega))

/-- A cap leaves the words that are no longer than the limit. -/
theorem Quantifier.mem_powers_capped {q : Quantifier} {limit : ℕ} {w : List α}
    (hw : w ∈ q.powers l) (hlength : w.length ≤ limit) : w ∈ (q.capped limit).powers l := by
  cases hmax : q.max? with
  | some _ =>
    have hsame : q.capped limit = q := by rw [capped, hmax]
    rwa [hsame]
  | none =>
    obtain ⟨k, hk, hpow⟩ := hw
    obtain ⟨j, hjk, hjw, hfewer⟩ := exists_forall_mem_pow hpow
    have hmin := hk.1
    refine ⟨max j q.min, ⟨?_, fun b hb => ?_⟩, hfewer _ (by omega) (by omega)⟩
    · rw [min_capped]
      omega
    · rw [max?_capped, hmax, Option.getD_none, Option.mem_some_iff] at hb
      omega

end

section

variable (limit : ℕ) {α : Type*} (of : Atom → Language α)

mutual

theorem Element.mem_language_capped : ∀ (e : Element) {w : List α}, w.length ≤ limit →
    w ∈ e.language of → w ∈ (e.capped limit).language of
  | .symbol _, _, _, hw => hw
  | .literal _, _, _, hw => hw
  | .oneOf _, _, _, hw => hw
  | .any, _, _, hw => hw
  | .group p, _, hlength, hw => Pattern.mem_language_capped p hlength hw

theorem Sequence.mem_language_capped : ∀ (s : Sequence) {w : List α}, w.length ≤ limit →
    w ∈ Sequence.language of s → w ∈ Sequence.language of (Sequence.capped limit s)
  | [], _, _, hw => hw
  | ⟨q, e⟩ :: rest, _, hlength, hw => by
    obtain ⟨u, hu, v, hv, rfl⟩ := hw
    rw [List.length_append] at hlength
    obtain ⟨k, hk, hpow⟩ := Quantifier.mem_powers_capped hu (show u.length ≤ limit by omega)
    have hmem : ∀ x ∈ e.language of, x.length ≤ limit → x ∈ (e.capped limit).language of :=
      fun x hx hxlength => e.mem_language_capped hxlength hx
    have hu' : u ∈ (q.capped limit).powers ((e.capped limit).language of) :=
      ⟨k, hk, mem_pow_of_length_le hmem k hpow (by omega)⟩
    exact Language.append_mem_mul hu' (Sequence.mem_language_capped rest (by omega) hv)

/-- A word that is no longer than the limit is a word of the capped pattern. -/
theorem Pattern.mem_language_capped : ∀ (p : Pattern) {w : List α}, w.length ≤ limit →
    w ∈ Pattern.language of p → w ∈ Pattern.language of (Pattern.capped limit p)
  | [], _, _, hw => hw
  | s :: _, _, hlength, Or.inl hw => Or.inl (Sequence.mem_language_capped s hlength hw)
  | _ :: rest, _, hlength, Or.inr hw => Or.inr (Pattern.mem_language_capped rest hlength hw)

end

mutual

theorem Element.capped_of_bounded : ∀ e : Element, e.isUnbounded = false → e.capped limit = e
  | .symbol _, _ => rfl
  | .literal _, _ => rfl
  | .oneOf _, _ => rfl
  | .any, _ => rfl
  | .group p, h => congrArg Element.group (Pattern.capped_of_bounded p h)

theorem Sequence.capped_of_bounded : ∀ s : Sequence, Sequence.isUnbounded s = false →
    Sequence.capped limit s = s
  | [], _ => rfl
  | ⟨q, e⟩ :: rest, h => by
    rw [Sequence.isUnbounded, Bool.or_eq_false_iff, Bool.or_eq_false_iff] at h
    obtain ⟨⟨hq, he⟩, hrest⟩ := h
    have hsame : q.capped limit = q := by
      unfold Quantifier.capped
      cases hmax : q.max? with
      | some _ => rfl
      | none => rw [hmax] at hq; cases hq
    rw [Sequence.capped, hsame, e.capped_of_bounded he, Sequence.capped_of_bounded rest hrest]

/-- A bounded pattern is its own cap. -/
theorem Pattern.capped_of_bounded : ∀ p : Pattern, Pattern.isUnbounded p = false →
    Pattern.capped limit p = p
  | [], _ => rfl
  | s :: rest, h => by
    rw [Pattern.isUnbounded, Bool.or_eq_false_iff] at h
    rw [Pattern.capped, Sequence.capped_of_bounded s h.1, Pattern.capped_of_bounded rest h.2]

end

end

end Confection
