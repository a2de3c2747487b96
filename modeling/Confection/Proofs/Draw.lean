import Mathlib.Data.Nat.Notation
import Confection.Draw.Uniform

/-!
# Every result can be drawn

A draw has many possible results, and for each of them there is a word that makes the draw give it
at once.  So a source with the right script makes any choice of results come out.  This is said with
`CanGive`: some words, put in front of whatever a source has, are used up by the draw and give the
result.

The reason is arithmetic, `exists_word`: the products `v * n` are `n` apart, so the first of them
that is not below `i` times the number of words has the quotient `i`, and lies less than `n` above
this multiple.  No zone is as small as that.
-/

namespace Confection

/-- The source that gives these words first. -/
def Scripted.before (words : List UInt64) (s : Scripted) : Scripted :=
  { s with words := words ++ s.words }

@[simp] theorem Scripted.before_nil (s : Scripted) : s.before [] = s := rfl

@[simp] theorem Scripted.before_before (us vs : List UInt64) (s : Scripted) :
    (s.before vs).before us = s.before (us ++ vs) := by
  simp [before]

namespace Draw

/-- There are words that the draw uses up, giving this result. -/
def CanGive {α : Type} (draw : Scripted → α × Scripted) (a : α) : Prop :=
  ∃ words, ∀ s, draw (s.before words) = (a, s)

/-- What a draw can give, a function of it can give. -/
theorem CanGive.map {α β : Type} {draw : Scripted → α × Scripted} {a : α} (h : CanGive draw a)
    (f : α → β) : CanGive (fun s => (draw s).map f id) (f a) := by
  obtain ⟨words, hwords⟩ := h
  refine ⟨words, fun s => ?_⟩
  show (draw (s.before words)).map f id = (f a, s)
  rw [hwords]
  rfl

/-- For every number below `n` there is a word that is turned into it and is not rejected. -/
theorem exists_word {words zone n i : ℕ} (hle : n ≤ words) (hzone : n ≤ zone + 1) (hi : i < n) :
    ∃ v < words, v * n % words ≤ zone ∧ v * n / words = i := by
  obtain ⟨r, hr, v, hv⟩ : ∃ r < n, ∃ v, v * n = i * words + r := by
    by_cases hdvd : n ∣ i * words
    · obtain ⟨v, hv⟩ := hdvd
      exact ⟨0, by omega, v, by rw [hv, Nat.mul_comm, Nat.add_zero]⟩
    · have hpos := Nat.pos_of_ne_zero (mt Nat.dvd_of_mod_eq_zero hdvd)
      have hlt := Nat.mod_lt (i * words) (show n > 0 by omega)
      refine ⟨n - i * words % n, by omega, i * words / n + 1, ?_⟩
      have hdiv := Nat.div_add_mod' (i * words) n
      rw [Nat.add_mul, Nat.one_mul]
      omega
  have hvlt : v < words := by
    have hnext : (i + 1) * words ≤ n * words := Nat.mul_le_mul_right words hi
    refine Nat.lt_of_mul_lt_mul_right (a := n) ?_
    rw [hv, Nat.mul_comm words n]
    rw [Nat.add_mul, Nat.one_mul] at hnext
    omega
  refine ⟨v, hvlt, ?_, ?_⟩
  · rw [hv, Nat.mul_comm, Nat.mul_add_mod, Nat.mod_eq_of_lt (by omega)]
    omega
  · rw [hv, Nat.mul_comm, Nat.mul_add_div (by omega), Nat.div_eq_of_lt (by omega), Nat.add_zero]

/-- The shifted zone is not as small as `n`. -/
theorem le_shiftedZone (bits n : ℕ) : n ≤ shiftedZone bits n + 1 := by
  have hshift : n ≤ n <<< (bits - 1 - n.log2) := by
    rw [Nat.shiftLeft_eq]
    exact Nat.le_mul_of_pos_right n (Nat.two_pow_pos _)
  unfold shiftedZone
  omega

/-- A word that is not rejected is turned into a number at once. -/
theorem below_of_word {σ : Type} {word : σ → ℕ × σ} {words zone n v : ℕ} {s s' : σ}
    (hword : word s = (v, s')) (hzone : v * n % words ≤ zone) (rejections : ℕ) :
    below word words zone n rejections s = (v * n / words, s') := by
  cases rejections with
  | zero => simp only [below, hword]
  | succ k => simp only [below, hword, if_pos hzone]

/-- Every word can be prescribed. -/
theorem canGive_word64 {v : ℕ} (hv : v < UInt64.size) : CanGive word64 v := by
  refine ⟨[UInt64.ofNat v], fun s => ?_⟩
  show ((UInt64.ofNat v).toNat, s) = (v, s)
  rw [UInt64.toNat_ofNat_of_lt' hv]

theorem canGive_word32 {v : ℕ} (hv : v < UInt32.size) : CanGive word32 v := by
  refine ⟨[UInt64.ofNat v], fun s => ?_⟩
  have hv' : v < 2 ^ 32 := hv
  show ((UInt64.ofNat v).toUInt32.toNat, s) = (v, s)
  rw [UInt64.toNat_toUInt32, UInt64.toNat_ofNat_of_lt' (by rw [UInt64.size]; omega),
    Nat.mod_eq_of_lt hv']

/-- Every number below `n` can be drawn. -/
theorem canGive_below {word : Scripted → ℕ × Scripted} {words zone n i : ℕ}
    (hword : ∀ v < words, CanGive word v) (hle : n ≤ words) (hzone : n ≤ zone + 1) (hi : i < n)
    (rejections : ℕ) : CanGive (below word words zone n rejections) i := by
  obtain ⟨v, hv, hlow, hquotient⟩ := exists_word hle hzone hi
  obtain ⟨ws, hws⟩ := hword v hv
  refine ⟨ws, fun s => ?_⟩
  rw [below_of_word (hws s) hlow, hquotient]

/-- Every element of a list that 32 bits can count can be chosen. -/
theorem canGive_choose {α : Type} {xs : List α} (hxs : xs.length < UInt32.size) {i : ℕ} {x : α}
    (hx : xs[i]? = some x) : CanGive (choose xs) (some x) := by
  obtain ⟨hi, -⟩ := List.getElem?_eq_some_iff.1 hx
  obtain ⟨words, hwords⟩ := canGive_below (fun v hv => canGive_word32 hv) (Nat.le_of_lt hxs)
    (le_shiftedZone 32 xs.length) hi maxRejections
  refine ⟨words, fun s => ?_⟩
  have hne : ¬ xs.isEmpty = true := by
    rw [List.isEmpty_iff, ← List.length_eq_zero_iff]
    omega
  rw [choose, if_neg hne, hwords, ← hx]

/-- Every number of an interval that 64 bits can count can be drawn. -/
theorem canGive_between {lo hi k : ℕ} (hhi : hi < UInt64.size) (hlo : lo ≤ k) (hk : k ≤ hi) :
    CanGive (between lo hi) k := by
  have hoffset : k - lo < hi - lo + 1 := by omega
  obtain ⟨words, hwords⟩ := canGive_below (fun v hv => canGive_word64 hv)
    (show hi - lo + 1 ≤ UInt64.size by omega) (le_shiftedZone 64 _) hoffset maxRejections
  refine ⟨words, fun s => ?_⟩
  simp only [between, hwords, Nat.add_sub_cancel' hlo]

/-- Every printable character can be drawn. -/
theorem canGive_printable {c : Char} (hc : c ∈ printableAscii) :
    CanGive printable (some c) := by
  obtain ⟨i, hi⟩ := List.mem_iff_getElem?.1 hc
  obtain ⟨hlt, -⟩ := List.getElem?_eq_some_iff.1 hi
  have hzone : printableAscii.length ≤ greatestZone UInt32.size printableAscii.length + 1 := by
    decide
  obtain ⟨words, hwords⟩ :=
    canGive_below (fun v hv => canGive_word32 hv) (by decide) hzone hlt maxRejections
  refine ⟨words, fun s => ?_⟩
  simp only [printable, hwords, hi]

end Draw

end Confection
