import Mathlib.Data.List.Basic
import Mathlib.Data.List.TakeDrop
import Mathlib.Data.List.TakeWhile
import Confection.Text.Basic

/-!
# Lines and the blanks around them

What the ways to take a text apart give, said without them: the parts around a separator
(`splitAtFirst_eq_some_iff`), the text between the blanks at both ends (`trim_eq_iff`), and the lines
up to a line feed (`HasLines`).

A carriage return in front of a line feed belongs to the end of the line in one convention and to
the line itself in the other.  Trimmed lines do not show the difference, `HasLines.map_trim`.
-/

namespace Confection.Text

/-- A text is cut at the first occurrence of the separator. -/
theorem splitAtFirst_eq_some_iff {sep : Char} {t before after : Text} :
    t.splitAtFirst sep = some (before, after) ↔ t = before ++ sep :: after ∧ sep ∉ before := by
  rw [splitAtFirst, List.span_eq_takeWhile_dropWhile]
  constructor
  · intro h
    split at h
    · cases h
    · next x _ hcut =>
      cases h
      obtain ⟨hbefore, hafter⟩ := Prod.mk.inj hcut
      have hne : t.dropWhile (· != sep) ≠ [] := by simp [hafter]
      have hx : x = sep := by simpa [hafter] using List.head_dropWhile_not (· != sep) hne
      refine ⟨?_, fun hsep => ?_⟩
      · rw [← hx, ← hbefore, ← hafter, List.takeWhile_append_dropWhile]
      · rw [← hbefore] at hsep
        simpa using List.mem_takeWhile_imp hsep
  · rintro ⟨rfl, hsep⟩
    have hall : ∀ c ∈ before, (c != sep) = true := by
      intro c hc
      exact bne_iff_ne.2 fun h => hsep (h ▸ hc)
    rw [List.takeWhile_append_of_pos hall, List.dropWhile_append_of_pos hall]
    simp

/-! ## Blanks at both ends -/

/-- Does the text consist of blanks? -/
def AllBlank (t : Text) : Prop := ∀ c ∈ t, isBlank c = true

/-- Does the text neither start nor end with a blank? -/
structure IsTrimmed (t : Text) : Prop where
  head : ∀ c ∈ t.head?, isBlank c = false
  last : ∀ c ∈ t.getLast?, isBlank c = false

/-- Is the line the text with any blanks before and after it? -/
def IsPadded (t line : Text) : Prop :=
  ∃ before after, AllBlank before ∧ AllBlank after ∧ line = before ++ t ++ after

variable {t u line : Text}

theorem allBlank_nil : AllBlank [] := List.forall_mem_nil _

theorem AllBlank.append (ht : AllBlank t) (hu : AllBlank u) : AllBlank (t ++ u) :=
  List.forall_mem_append.2 ⟨ht, hu⟩

/-- What stands between two trimmed texts does not count. -/
theorem IsTrimmed.append (ht : IsTrimmed t) (hu : IsTrimmed u) (htne : t ≠ []) (hune : u ≠ [])
    (between : Text) : IsTrimmed (t ++ between ++ u) where
  head c hc := by
    rw [List.append_assoc, List.head?_append_of_ne_nil _ htne] at hc
    exact ht.head c hc
  last c hc := by
    rw [List.getLast?_append_of_ne_nil _ hune] at hc
    exact hu.last c hc

/-- A text is what trimming leaves of it, with blanks on both sides. -/
theorem isPadded_trim (t : Text) : IsPadded t.trim t := by
  refine ⟨t.takeWhile isBlank, ((t.dropWhile isBlank).reverse.takeWhile isBlank).reverse,
    fun c hc => List.mem_takeWhile_imp hc,
    fun c hc => List.mem_takeWhile_imp (List.mem_reverse.1 hc), ?_⟩
  rw [trim, List.append_assoc, ← List.reverse_append, List.takeWhile_append_dropWhile,
    List.reverse_reverse, List.takeWhile_append_dropWhile]

theorem isBlank_of_mem_head?_dropWhile {c : Char} (hc : c ∈ (t.dropWhile isBlank).head?) :
    isBlank c = false := by
  have hnot := List.head?_dropWhile_not isBlank t
  rw [Option.mem_def.1 hc] at hnot
  exact hnot

theorem isTrimmed_trim (t : Text) : IsTrimmed t.trim where
  head c hc := by
    -- what trimming leaves is the start of what is left without the blanks in front
    have hprefix : t.trim <+: t.dropWhile isBlank := by
      rw [trim, ← List.reverse_suffix, List.reverse_reverse]
      exact List.dropWhile_suffix _
    obtain ⟨after, hafter⟩ := hprefix
    refine isBlank_of_mem_head?_dropWhile (t := t) ?_
    rw [← hafter, List.head?_append, Option.mem_def.1 hc]
    rfl
  last c hc := by
    rw [trim, List.getLast?_reverse] at hc
    exact isBlank_of_mem_head?_dropWhile hc

theorem dropWhile_isBlank_append (ht : AllBlank t) (hu : ∀ c ∈ u.head?, isBlank c = false) :
    (t ++ u).dropWhile isBlank = u := by
  rw [List.dropWhile_append_of_pos ht]
  cases u with
  | nil => rfl
  | cons c u => exact List.dropWhile_cons_of_neg (by simp [hu c rfl])

/-- Trimming a line gives the one trimmed text of which it is made by adding blanks. -/
theorem trim_eq_iff : line.trim = t ↔ IsTrimmed t ∧ IsPadded t line := by
  constructor
  · rintro rfl
    exact ⟨isTrimmed_trim line, isPadded_trim line⟩
  · rintro ⟨htrimmed, before, after, hbefore, hafter, rfl⟩
    have hreverse : AllBlank after.reverse := fun c hc => hafter c (List.mem_reverse.1 hc)
    have hlast : ∀ c ∈ t.reverse.head?, isBlank c = false := by
      rw [List.head?_reverse]
      exact htrimmed.last
    cases t with
    | nil =>
      have hblank : AllBlank (before ++ [] ++ after) := by simpa using hbefore.append hafter
      rw [trim, List.dropWhile_eq_nil_iff.2 hblank]
      rfl
    | cons c t =>
      have hhead : ∀ d ∈ (c :: t ++ after).head?, isBlank d = false := htrimmed.head
      rw [trim, List.append_assoc, dropWhile_isBlank_append hbefore hhead, List.reverse_append,
        dropWhile_isBlank_append hreverse hlast, List.reverse_reverse]

/-- The first character of a trimmed text is the first one that is not blank. -/
theorem head?_trim (t : Text) : t.trim.head? = t.find? (!isBlank ·) := by
  obtain ⟨before, after, hbefore, hafter, ht⟩ := isPadded_trim t
  have hnone {u : Text} (hu : AllBlank u) : u.find? (!isBlank ·) = none :=
    List.find?_eq_none.2 fun c hc => by simp [hu c hc]
  conv_rhs => rw [ht, List.append_assoc, List.find?_append, hnone hbefore, Option.none_or]
  cases htrim : t.trim with
  | nil => exact (hnone hafter).symm
  | cons c u =>
    have hc : isBlank c = false := (isTrimmed_trim t).head c (by rw [htrim]; rfl)
    exact (List.find?_cons_of_pos (by simp [hc])).symm

/-! ## Lines -/

/-- The text consists of the lines.  Each of them but the last is ended by a line feed, with a
carriage return in front of it or without. -/
inductive HasLines : Text → List Text → Prop
  | last {line : Text} (hline : '\n' ∉ line) : HasLines line [line]
  | lineFeed {line t : Text} {lines : List Text} (hline : '\n' ∉ line) (h : HasLines t lines) :
      HasLines (line ++ '\n' :: t) (line :: lines)
  | carriageReturn {line t : Text} {lines : List Text} (hline : '\n' ∉ line) (h : HasLines t lines) :
      HasLines (line ++ '\r' :: '\n' :: t) (line :: lines)

theorem lines_cons {c : Char} (hc : c ≠ '\n') (t : Text) :
    lines (c :: t) = consFirst c (lines t) := by
  rw [lines, splitWhere_cons, if_neg (by simpa using hc)]
  rfl

theorem lines_of_notMem (h : '\n' ∉ line) : lines line = [line] := by
  induction line with
  | nil => rfl
  | cons c line ih =>
    obtain ⟨hc, hline⟩ := not_or.1 (mt List.mem_cons.2 h)
    rw [lines_cons (Ne.symm hc), ih hline]
    rfl

theorem lines_append (h : '\n' ∉ line) (t : Text) : lines (line ++ '\n' :: t) = line :: lines t := by
  induction line with
  | nil => rfl
  | cons c line ih =>
    obtain ⟨hc, hline⟩ := not_or.1 (mt List.mem_cons.2 h)
    rw [List.cons_append, lines_cons (Ne.symm hc), ih hline]
    rfl

/-- Every text has lines. -/
theorem hasLines_lines (t : Text) : HasLines t t.lines := by
  induction t with
  | nil => exact .last (List.not_mem_nil)
  | cons c t ih =>
    by_cases hc : c = '\n'
    · subst hc
      have hnil : '\n' ∉ ([] : Text) := List.not_mem_nil
      exact .lineFeed hnil ih
    · rw [lines_cons hc]
      have hmem {line : Text} (h : '\n' ∉ line) : '\n' ∉ c :: line := by
        simpa [Ne.symm hc] using h
      generalize lines t = ls at ih
      cases ih with
      | last h => exact .last (hmem h)
      | lineFeed h ht => exact .lineFeed (hmem h) ht
      | carriageReturn h ht => exact .carriageReturn (hmem h) ht

theorem trim_append_blank {c : Char} (hc : isBlank c = true) (t : Text) :
    trim (t ++ [c]) = trim t := by
  obtain ⟨before, after, hbefore, hafter, ht⟩ := isPadded_trim t
  refine trim_eq_iff.2 ⟨isTrimmed_trim t, before, after ++ [c], hbefore, hafter.append ?_, ?_⟩
  · simpa [AllBlank] using hc
  · conv_lhs => rw [ht]
    simp

/-- The lines of a text, trimmed, are the same in both conventions. -/
theorem HasLines.map_trim {lines : List Text} (h : HasLines t lines) :
    t.lines.map trim = lines.map trim := by
  induction h with
  | last hline => rw [lines_of_notMem hline]
  | lineFeed hline _ ih => rw [lines_append hline, List.map_cons, List.map_cons, ih]
  | @carriageReturn line t lines hline _ ih =>
    have hline' : '\n' ∉ line ++ ['\r'] := by simpa using hline
    rw [List.append_cons, lines_append hline', List.map_cons, List.map_cons, ih,
      trim_append_blank (by decide)]

end Confection.Text
