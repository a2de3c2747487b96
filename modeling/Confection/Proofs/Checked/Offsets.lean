import Mathlib.Algebra.GroupWithZero.Nat
import Mathlib.Data.Finset.Card
import Confection.Proofs.Pattern.Matching

/-!
# Byte offsets

A place in a text can be given by the number of bytes before it, as the text is written in UTF-8.
Not every number of bytes is such a place: one that is too large is not, and neither is one that
ends within a character.  `Text.fromByte?` takes a text apart at an offset and fails for all others.

A position, which counts characters, has one offset, `Text.offset`, and no other position has it.
So a set of positions can be told from its offsets, `Text.offsets`, and the operations on sets of
positions are those on sets of offsets.  All these offsets are among the `Text.boundaries`, of which
there is at most one more than the text has bytes.
-/

namespace Confection

namespace Text

/-- The number of bytes of the text. -/
def byteSize (t : Text) : ℕ := (t.map Char.utf8Size).sum

/-- The text from a byte offset on, if a character of the text begins there or the text ends. -/
def fromByte? : Text → ℕ → Option Text
  | t, 0 => some t
  | [], _ + 1 => none
  | c :: rest, b + 1 => if c.utf8Size ≤ b + 1 then fromByte? rest (b + 1 - c.utf8Size) else none

/-- The number of bytes before a position. -/
def offset (t : Text) (i : ℕ) : ℕ := byteSize (t.take i)

@[simp] theorem byteSize_nil : byteSize [] = 0 := rfl

@[simp] theorem byteSize_cons (c : Char) (t : Text) : byteSize (c :: t) = c.utf8Size + byteSize t :=
  rfl

@[simp] theorem byteSize_append (t u : Text) : byteSize (t ++ u) = byteSize t + byteSize u := by
  simp [byteSize]

theorem fromByte?_cons (c : Char) (t : Text) (b : ℕ) :
    fromByte? (c :: t) (c.utf8Size + b) = fromByte? t b := by
  obtain ⟨n, hn⟩ : ∃ n, c.utf8Size + b = n + 1 :=
    ⟨c.utf8Size + b - 1, by have := c.utf8Size_pos; omega⟩
  rw [hn, fromByte?, if_pos (by omega), ← hn, Nat.add_sub_cancel_left]

/-- Taking a text apart at an offset succeeds exactly if so many bytes are a beginning of it. -/
theorem fromByte?_eq_some_iff {t v : Text} {b : ℕ} :
    t.fromByte? b = some v ↔ ∃ u, t = u ++ v ∧ b = u.byteSize := by
  constructor
  · intro h
    fun_induction fromByte? t b with
    | case1 t => cases h; exact ⟨[], rfl, rfl⟩
    | case2 => cases h
    | case3 c rest b hle ih =>
      obtain ⟨u, rfl, hu⟩ := ih h
      exact ⟨c :: u, rfl, by rw [byteSize_cons]; omega⟩
    | case4 => cases h
  · rintro ⟨u, rfl, rfl⟩
    induction u with
    | nil => simp [fromByte?]
    | cons c u ih => rw [List.cons_append, byteSize_cons, fromByte?_cons, ih]

/-- Within a character there is no offset. -/
example : fromByte? ['é', 'x'] 1 = none := rfl

variable {t : Text} {i j : ℕ}

theorem offset_zero : t.offset 0 = 0 := by simp [offset]

theorem offset_length : t.offset t.length = t.byteSize := by rw [offset, List.take_length]

/-- The offset of a position is where the characters after it begin. -/
theorem fromByte?_offset (t : Text) (i : ℕ) : t.fromByte? (t.offset i) = some (t.drop i) :=
  fromByte?_eq_some_iff.2 ⟨t.take i, (List.take_append_drop i t).symm, rfl⟩

theorem fromByte?_offset_bind {α : Type} (t : Text) (i : ℕ) (read : Text → Option α) :
    t.fromByte? (t.offset i) >>= read = read (t.drop i) := by
  rw [fromByte?_offset, Option.bind_eq_bind, Option.bind_some]

/-- A word ends as many bytes after its start as it has. -/
theorem Spans.offset_eq {u : Text} (h : t.Spans i u j) : t.offset j = t.offset i + u.byteSize := by
  obtain ⟨-, ⟨v, hv⟩, rfl⟩ := h
  rw [offset, List.take_add, byteSize_append, ← hv, List.take_left, offset]

/-- No two positions of a text have the same offset. -/
theorem offset_inj (hi : i ≤ t.length) (hj : j ≤ t.length) : t.offset i = t.offset j ↔ i = j := by
  constructor
  · intro h
    have hdrop := fromByte?_offset t i
    rw [h, fromByte?_offset, Option.some.injEq] at hdrop
    have := congrArg List.length hdrop
    rw [List.length_drop, List.length_drop] at this
    omega
  · exact congrArg t.offset

end Text

/-- A set of byte offsets. -/
abbrev Offsets := Finset ℕ

/-- A power of two is the set of a single position. -/
theorem Positions.has_two_pow {i j : ℕ} : has (2 ^ i) j = true ↔ j = i := by
  rw [has, Nat.testBit_two_pow, decide_eq_true_iff, eq_comm]

theorem Positions.within_two_pow {i n : ℕ} (hi : i ≤ n) : Within n (2 ^ i) := by
  intro j hj
  rwa [has_two_pow.1 hj]

namespace Text

/-- The offsets of a set of positions. -/
def offsets (t : Text) (s : Positions) : Offsets :=
  ((Finset.range (t.length + 1)).filter (s.has ·)).image t.offset

variable {t : Text} {s u : Positions} {b i : ℕ}

theorem mem_offsets : b ∈ t.offsets s ↔ ∃ i ≤ t.length, s.has i = true ∧ t.offset i = b := by
  simp only [offsets, Finset.mem_image, Finset.mem_filter, Finset.mem_range, Nat.lt_succ_iff,
    and_assoc]

/-- The offset of a position is among those of a set exactly if the position is in the set. -/
theorem offset_mem_offsets (hi : i ≤ t.length) : t.offset i ∈ t.offsets s ↔ s.has i = true := by
  rw [mem_offsets]
  constructor
  · rintro ⟨j, hj, hs, heq⟩
    rwa [← (offset_inj hj hi).1 heq]
  · intro hs
    exact ⟨i, hi, hs, rfl⟩

@[simp] theorem offsets_zero : t.offsets 0 = ∅ := by simp [offsets]

theorem offsets_two_pow (hi : i ≤ t.length) : t.offsets (2 ^ i) = {t.offset i} := by
  ext b
  simp only [mem_offsets, Positions.has_two_pow, Finset.mem_singleton]
  constructor
  · rintro ⟨j, -, rfl, rfl⟩
    rfl
  · rintro rfl
    exact ⟨i, hi, rfl, rfl⟩

theorem offsets_start : t.offsets .start = {0} :=
  (offsets_two_pow (Nat.zero_le _)).trans (congrArg _ offset_zero)

theorem offsets_or : t.offsets (s ||| u) = t.offsets s ∪ t.offsets u := by
  ext b
  simp only [mem_offsets, Finset.mem_union, Positions.has_or, Bool.or_eq_true, or_and_right,
    and_or_left, exists_or]

/-- A set of positions in the text is empty exactly if it has no offsets. -/
theorem offsets_eq_empty_iff (h : s.Within t.length) : t.offsets s = ∅ ↔ s = 0 := by
  constructor
  · intro hempty
    rw [Positions.eq_zero_iff]
    intro i
    by_contra hs
    rw [Bool.not_eq_false] at hs
    have hmem := (offset_mem_offsets (h i hs)).2 hs
    rw [hempty] at hmem
    exact Finset.notMem_empty _ hmem
  · rintro rfl
    exact offsets_zero

/-- Sets of positions in the text with the same offsets are equal. -/
theorem offsets_inj (hs : s.Within t.length) (hu : u.Within t.length) :
    t.offsets s = t.offsets u ↔ s = u := by
  refine ⟨fun h => Positions.eq_of_has_eq fun i => Bool.eq_iff_iff.2 ?_, congrArg t.offsets⟩
  constructor
  · intro hi
    rwa [← offset_mem_offsets (hs i hi), ← h, offset_mem_offsets (hs i hi)]
  · intro hi
    rwa [← offset_mem_offsets (hu i hi), h, offset_mem_offsets (hu i hi)]

/-! ## Boundaries -/

/-- The offsets at which the text can be taken apart. -/
def boundaries (t : Text) : Offsets :=
  (Finset.range (t.byteSize + 1)).filter fun b => (t.fromByte? b).isSome

/-- A text of `n` bytes has no more than `n + 1` boundaries. -/
theorem card_boundaries_le (t : Text) : t.boundaries.card ≤ t.byteSize + 1 :=
  (Finset.card_filter_le _ _).trans_eq (Finset.card_range _)

/-- The boundaries are the offsets of the positions. -/
theorem mem_boundaries : b ∈ t.boundaries ↔ ∃ i ≤ t.length, t.offset i = b := by
  rw [boundaries, Finset.mem_filter, Finset.mem_range, Option.isSome_iff_exists]
  simp only [fromByte?_eq_some_iff]
  constructor
  · rintro ⟨-, v, u, rfl, rfl⟩
    exact ⟨u.length, by simp, by rw [offset, List.take_left]⟩
  · rintro ⟨i, -, rfl⟩
    have hsplit := List.take_append_drop i t
    have hsize := congrArg byteSize hsplit
    rw [byteSize_append] at hsize
    exact ⟨by rw [offset]; omega, t.drop i, t.take i, hsplit.symm, rfl⟩

theorem offsets_subset_boundaries (t : Text) (s : Positions) : t.offsets s ⊆ t.boundaries := by
  intro b hb
  obtain ⟨i, hi, -, rfl⟩ := mem_offsets.1 hb
  exact mem_boundaries.2 ⟨i, hi, rfl⟩

/-- Boundaries are the offsets of some positions. -/
theorem exists_offsets_eq {starts : Offsets} (h : starts ⊆ t.boundaries) :
    ∃ s : Positions, s.Within t.length ∧ t.offsets s = starts := by
  induction starts using Finset.induction_on with
  | empty => exact ⟨0, by simp [Positions.Within], offsets_zero⟩
  | insert b starts _ ih =>
    rw [Finset.insert_subset_iff, mem_boundaries] at h
    obtain ⟨⟨i, hi, rfl⟩, hstarts⟩ := h
    obtain ⟨s, hs, rfl⟩ := ih hstarts
    refine ⟨2 ^ i ||| s, fun j hj => ?_, ?_⟩
    · rw [Positions.has_or, Bool.or_eq_true] at hj
      exact hj.elim (Positions.within_two_pow hi j) (hs j)
    · rw [offsets_or, offsets_two_pow hi, Finset.insert_eq]

end Text

end Confection
