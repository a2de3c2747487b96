import Confection.Text.Basic

/-!
# Character codes in hexadecimal

Reading and writing the codes of characters.  A code is a *scalar* when some character has it: codes
run to 10FFFF, and the surrogates D800 to DFFF are not characters.
-/

namespace Confection.Text

/-- The value of a hexadecimal digit, in either case. -/
def hexDigit? (c : Char) : Option Nat :=
  if '0' ≤ c ∧ c ≤ '9' then some (c.toNat - '0'.toNat)
  else if 'a' ≤ c ∧ c ≤ 'f' then some (c.toNat - 'a'.toNat + 10)
  else if 'A' ≤ c ∧ c ≤ 'F' then some (c.toNat - 'A'.toNat + 10)
  else none

/-- The number that a non-empty run of hexadecimal digits stands for. -/
def hex? (t : Text) : Option Nat :=
  if t.isEmpty then none
  else t.foldlM (fun n c => (hexDigit? c).map (16 * n + ·)) 0

/-- The character with the given code, if there is one. -/
def scalar? (n : Nat) : Option Char :=
  if n.isValidChar then some (Char.ofNat n) else none

/-- The characters with codes from `lo` to `hi`, ascending. -/
def scalarsBetween (lo hi : Nat) : List Char :=
  (List.range' lo (hi + 1 - lo)).filterMap scalar?

/-- A code stands for the character that has it. -/
theorem scalar?_eq_some_iff {n : Nat} {c : Char} : scalar? n = some c ↔ n = c.toNat := by
  have hvalid : c.toNat.isValidChar := c.valid
  constructor
  · intro h
    rw [scalar?] at h
    split at h
    · next hn =>
      cases h
      rw [Char.ofNat, dif_pos hn]
      rfl
    · cases h
  · rintro rfl
    rw [scalar?, if_pos hvalid, Char.ofNat_toNat]

/-- The surrogates are left out, since no character has such a code. -/
theorem mem_scalarsBetween_iff {lo hi : Nat} {c : Char} :
    c ∈ scalarsBetween lo hi ↔ lo ≤ c.toNat ∧ c.toNat ≤ hi := by
  simp only [scalarsBetween, List.mem_filterMap, scalar?_eq_some_iff, List.mem_range'_1]
  constructor
  · rintro ⟨n, hn, rfl⟩
    omega
  · exact fun h => ⟨_, by omega, rfl⟩

theorem pairwise_scalarsBetween (lo hi : Nat) : (scalarsBetween lo hi).Pairwise (· < ·) := by
  refine List.Pairwise.filterMap scalar? (fun m n hmn c hc d hd => ?_) List.pairwise_lt_range'
  rw [scalar?_eq_some_iff.1 hc, scalar?_eq_some_iff.1 hd] at hmn
  exact hmn

/-- The lowercase hexadecimal digits of a number, without leading zeros. -/
def hexDigits (n : Nat) : Text := Nat.toDigits 16 n

/-- The two lowercase hexadecimal digits of a number below 256. -/
def twoHexDigits (n : Nat) : Text :=
  [Nat.digitChar (n / 16 % 16), Nat.digitChar (n % 16)]

end Confection.Text
