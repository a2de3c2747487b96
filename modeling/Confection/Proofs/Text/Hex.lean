import Confection.Text.Hex
import Mathlib.Data.List.Induction
import Mathlib.Data.Nat.Digits.Defs

/-!
# What is a hexadecimal number

The reader of hexadecimal numbers goes from left to right and keeps the number so far, so in it
nothing says what the texts look like that stand for a given number.  They are the digits of the
number, in either case, after any number of zeros (`hex?_eq_some_iff`).  In particular there is no
sign, and no number is too large to be read.

The induction goes over the text from the right, since the last digit is what one step of the reader
and one step of writing a number have in common: the digits of `n` are those of `n / 16`, and one
for `n % 16`.
-/

namespace Confection.Text

/-- Is the text the number in hexadecimal digits of either case, perhaps after zeros? -/
def IsHex (t : Text) (n : ℕ) : Prop :=
  ∃ zeros, t.map Char.toLower = List.replicate zeros '0' ++ hexDigits n

/-! ## One digit -/

theorem hexDigit?_digitChar {n : ℕ} (hn : n < 16) : hexDigit? (Nat.digitChar n) = some n := by
  have hall : ∀ n < 16, hexDigit? (Nat.digitChar n) = some n := by decide
  exact hall n hn

/-- What holds of all characters up to one is seen from their codes. -/
private theorem of_codes (P : Char → Prop) {last : Char}
    (h : ∀ n ≤ last.toNat, P (Char.ofNat n)) {c : Char} (hc : c ≤ last) : P c := by
  have := h c.toNat hc
  rwa [Char.ofNat_toNat] at this

/-- Both cases of a letter have one value. -/
theorem hexDigit?_toLower (c : Char) : hexDigit? c.toLower = hexDigit? c := by
  by_cases hupper : c.val ≥ 'A'.val ∧ c.val ≤ 'Z'.val
  · exact of_codes (fun c => hexDigit? c.toLower = hexDigit? c) (by decide +kernel) hupper.2
  · have hsame : c.toLower = c := dif_neg hupper
    rw [hsame]

theorem le_of_hexDigit?_eq_some {c : Char} {d : ℕ} (h : hexDigit? c = some d) : c ≤ 'f' := by
  unfold hexDigit? at h
  split at h
  · next hc => exact Char.le_trans hc.2 (by decide)
  · split at h
    · next hc => exact hc.2
    · split at h
      · next hc => exact Char.le_trans hc.2 (by decide)
      · cases h

/-- The digits with a given value are the one that is written for it, and its capital. -/
theorem hexDigit?_eq_some_iff {c : Char} {d : ℕ} :
    hexDigit? c = some d ↔ d < 16 ∧ c.toLower = Nat.digitChar d := by
  constructor
  · intro h
    have hcodes := of_codes (fun c => ∀ d ∈ hexDigit? c, d < 16 ∧ c.toLower = Nat.digitChar d)
      (by decide +kernel) (le_of_hexDigit?_eq_some h)
    exact hcodes d h
  · rintro ⟨hd, hc⟩
    rw [← hexDigit?_toLower, hc]
    exact hexDigit?_digitChar hd

/-! ## Whole numbers -/

theorem hexDigits_of_lt {n : ℕ} (hn : n < 16) : hexDigits n = [Nat.digitChar n] :=
  Nat.toDigits_of_lt_base hn

/-- The last digit comes off the end. -/
theorem hexDigits_of_le {n : ℕ} (hn : 16 ≤ n) :
    hexDigits n = hexDigits (n / 16) ++ [Nat.digitChar (n % 16)] :=
  Nat.toDigits_of_base_le (by decide) hn

/-- A text is nothing but zeros exactly if it is empty or stands for zero. -/
theorem eq_nil_or_isHex_zero_iff {t : Text} :
    t = [] ∨ IsHex t 0 ↔ ∃ zeros, t.map Char.toLower = List.replicate zeros '0' := by
  constructor
  · rintro (rfl | ⟨zeros, h⟩)
    · exact ⟨0, rfl⟩
    · exact ⟨zeros + 1, h.trans List.replicate_succ'.symm⟩
  · rintro ⟨zeros, h⟩
    rcases zeros with _ | zeros
    · exact .inl (List.map_eq_nil_iff.1 h)
    · exact .inr ⟨zeros, h.trans List.replicate_succ'⟩

/-- A number without its last digit is nothing, or the number of sixteens in it. -/
theorem isHex_concat_iff {t : Text} {c : Char} {n : ℕ} :
    IsHex (t ++ [c]) n ↔
      (t = [] ∧ n / 16 = 0 ∨ IsHex t (n / 16)) ∧ c.toLower = Nat.digitChar (n % 16) := by
  have hstep (zeros : ℕ) (digits : Text) :
      (t ++ [c]).map Char.toLower =
          List.replicate zeros '0' ++ (digits ++ [Nat.digitChar (n % 16)]) ↔
        t.map Char.toLower = List.replicate zeros '0' ++ digits ∧
          c.toLower = Nat.digitChar (n % 16) := by
    rw [List.map_append, ← List.append_assoc]
    exact List.append_singleton_inj
  by_cases hn : n < 16
  · rw [Nat.div_eq_of_lt hn, and_iff_left rfl, eq_nil_or_isHex_zero_iff, ← exists_and_right]
    refine exists_congr fun zeros => ?_
    rw [← List.append_nil (List.replicate zeros '0'), ← hstep, hexDigits_of_lt hn,
      Nat.mod_eq_of_lt hn, List.append_nil, List.nil_append]
  · have hle : 16 ≤ n := Nat.not_lt.1 hn
    have hne : ¬(t = [] ∧ n / 16 = 0) := by omega
    rw [or_iff_right hne, IsHex, IsHex, ← exists_and_right]
    refine exists_congr fun zeros => ?_
    rw [hexDigits_of_le hle, hstep]

theorem not_isHex_nil {n : ℕ} : ¬IsHex [] n := by
  rintro ⟨zeros, h⟩
  have hdigits : hexDigits n = [] := (List.append_eq_nil_iff.1 h.symm).2
  have hpos : 0 < (hexDigits n).length := Nat.length_toDigits_pos
  rw [hdigits] at hpos
  exact absurd hpos (by decide)

/-- The number that a run of digits stands for, where no digits stand for zero. -/
theorem foldlM_hexDigit?_eq_some_iff {t : Text} {n : ℕ} :
    t.foldlM (fun n c => (hexDigit? c).map (16 * n + ·)) 0 = some n ↔
      t = [] ∧ n = 0 ∨ IsHex t n := by
  induction t using List.reverseRecOn generalizing n with
  | nil =>
    rw [or_iff_left not_isHex_nil, and_iff_right rfl, eq_comm]
    exact Option.some_inj
  | append_singleton t c ih =>
    have hne : t ++ [c] ≠ [] := List.concat_ne_nil c t
    rw [List.foldlM_append, or_iff_right (fun h => hne h.1), isHex_concat_iff, ← ih]
    simp only [List.foldlM_cons, List.foldlM_nil, bind_pure, Option.bind_eq_bind,
      Option.bind_eq_some_iff, Option.map_eq_some_iff, hexDigit?_eq_some_iff]
    constructor
    · rintro ⟨m, hm, d, ⟨hd, hc⟩, rfl⟩
      rw [Nat.mul_add_div (by decide), Nat.div_eq_of_lt hd, Nat.add_zero, Nat.mul_add_mod,
        Nat.mod_eq_of_lt hd]
      exact ⟨hm, hc⟩
    · rintro ⟨hm, hc⟩
      exact ⟨_, hm, _, ⟨Nat.mod_lt _ (by decide), hc⟩, Nat.div_add_mod n 16⟩

/-- What is read as a number is the number, written in digits of either case and perhaps after
zeros. -/
theorem hex?_eq_some_iff {t : Text} {n : ℕ} : t.hex? = some n ↔ IsHex t n := by
  rcases eq_or_ne t [] with rfl | ht
  · simp [hex?, not_isHex_nil]
  · rw [hex?, if_neg (by simpa using ht), foldlM_hexDigit?_eq_some_iff]
    simp [ht]

end Confection.Text
