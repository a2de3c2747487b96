import Mathlib.Data.List.TakeWhile
import Confection.Spelling

/-!
# How a pattern line is cut into pieces

`Piece.cut` reads a line one character at a time and keeps the word that it is in the middle of.
`Cuts` says the same in larger steps: a word is taken whole, with everything up to the first
character that cannot belong to it.  `cuts_ofLine` is the bridge between the two, and what is said
about pieces elsewhere is proved by induction on `Cuts`.
-/

namespace Confection

namespace Text

/-- No character of an identifier is blank. -/
theorem isBlank_eq_false_of_isIdentifierChar {c : Char} (h : isIdentifierChar c = true) :
    isBlank c = false := by
  by_contra hblank
  rw [Bool.not_eq_false] at hblank
  -- there are few blanks, and each is looked up
  have hcode : c.toNat ∈ List.range' 0x09 5 ++ List.range' 0x2000 11 ++
      [0x20, 0x85, 0xA0, 0x1680, 0x2028, 0x2029, 0x202F, 0x205F, 0x3000] := by
    simp only [isBlank, Bool.or_eq_true, Bool.and_eq_true, decide_eq_true_eq, beq_iff_eq] at hblank
    simp only [List.mem_append, List.mem_range'_1, List.mem_cons, List.not_mem_nil, or_false]
    omega
  have hnone : ∀ n ∈ List.range' 0x09 5 ++ List.range' 0x2000 11 ++
      [0x20, 0x85, 0xA0, 0x1680, 0x2028, 0x2029, 0x202F, 0x205F, 0x3000],
      isIdentifierChar (Char.ofNat n) = false := by decide +kernel
  have := hnone _ hcode
  rw [Char.ofNat_toNat, h] at this
  cases this

/-- A backslash belongs to no identifier. -/
theorem isIdentifierChar_backslash : isIdentifierChar '\\' = false := by decide +kernel

/-- An identifier character is not a backslash. -/
theorem ne_backslash_of_isIdentifierChar {c : Char} (h : isIdentifierChar c = true) :
    c ≠ '\\' := by
  rintro rfl
  rw [isIdentifierChar_backslash] at h
  cases h

/-- A blank is not a backslash. -/
theorem ne_backslash_of_isBlank {c : Char} (h : isBlank c = true) : c ≠ '\\' := by
  rintro rfl
  exact absurd h (by decide)

end Text

open Text

/-- Does the text start with a character of an identifier? -/
def startsWord (t : Text) : Prop := ∃ c ∈ t.head?, isIdentifierChar c = true

theorem not_startsWord_dropWhile (t : Text) : ¬ startsWord (t.dropWhile isIdentifierChar) := by
  rintro ⟨c, hc, hword⟩
  have hnot := List.head?_dropWhile_not isIdentifierChar t
  rw [Option.mem_def.1 hc] at hnot
  exact absurd hword (by simp [show isIdentifierChar c = false from hnot])

theorem not_startsWord_of_blanks {t : Text} (ht : ∀ c ∈ t, isBlank c = true) : ¬ startsWord t := by
  rintro ⟨c, hc, hword⟩
  have hblank := ht c (List.mem_of_mem_head? hc)
  rw [isBlank_eq_false_of_isIdentifierChar hword] at hblank
  cases hblank

theorem not_startsWord_append {t u : Text} (ht : ¬ startsWord t) (hu : ¬ startsWord u) :
    ¬ startsWord (t ++ u) := by
  cases t with
  | nil => exact hu
  | cons c t => exact ht

/-- The pieces of a text in the given surroundings, with each word taken whole. -/
inductive Cuts : Surroundings → Text → List Piece → Prop
  | nil {s} : Cuts s [] []
  | lone {s} : Cuts s ['\\'] [.escape none]
  | escape {s d rest ps} (h : Cuts s rest ps) :
      Cuts s ('\\' :: d :: rest) (.escape (some d) :: ps)
  | blank {s c rest ps} (hblank : isBlank c = true) (h : Cuts s rest ps) : Cuts s (c :: rest) ps
  | word {s w rest ps} (hs : s ≠ .inBraces) (hne : w ≠ [])
      (hword : ∀ c ∈ w, isIdentifierChar c = true) (hend : ¬ startsWord rest)
      (h : Cuts s rest ps) : Cuts s (w ++ rest) (.word w :: ps)
  | verbatim {s c rest ps} (hescape : c ≠ '\\') (hblank : isBlank c = false)
      (hword : s = .inBraces ∨ isIdentifierChar c = false) (h : Cuts (s.after c) rest ps) :
      Cuts s (c :: rest) (.verbatim c :: ps)

namespace Piece

section

variable {s : Surroundings} {reversed : Text}

theorem cut_nil : cut s reversed [] = ofWord reversed := by rw [cut.eq_def]

theorem cut_lone : cut s reversed ['\\'] = ofWord reversed ++ [.escape none] := by
  rw [cut.eq_def]
  rfl

theorem cut_escape {d : Char} {rest : Text} :
    cut s reversed ('\\' :: d :: rest) = ofWord reversed ++ .escape d :: cut s [] rest := by
  rw [cut.eq_def]
  rfl

theorem cut_cons {c : Char} {rest : Text} (hc : c ≠ '\\') :
    cut s reversed (c :: rest) =
      if isBlank c then ofWord reversed ++ cut s [] rest
      else if s ≠ .inBraces && isIdentifierChar c then cut s (c :: reversed) rest
      else ofWord reversed ++ .verbatim c :: cut (s.after c) [] rest := by
  rw [cut.eq_def]
  exact if_neg hc

/-- A word ends where no character of an identifier follows. -/
theorem cut_eq_ofWord_append_of_not_startsWord {t : Text} (ht : ¬ startsWord t) :
    cut s reversed t = ofWord reversed ++ cut s [] t := by
  have hempty : ofWord [] = [] := rfl
  match t with
  | [] => rw [cut_nil, cut_nil, hempty, List.append_nil]
  | c :: rest =>
    have hc : isIdentifierChar c = false := by
      rw [← Bool.not_eq_true]
      exact fun hc => ht ⟨c, rfl, hc⟩
    by_cases hescape : c = '\\'
    · subst hescape
      cases rest with
      | nil => rw [cut_lone, cut_lone, hempty, List.nil_append]
      | cons d rest => rw [cut_escape, cut_escape, hempty, List.nil_append]
    · simp only [cut_cons hescape, hc, Bool.and_false, Bool.false_eq_true, if_false, hempty,
        List.nil_append]
      split <;> rfl

/-- Outside braces, the characters of a word that are still to be read join those that have been
read. -/
theorem cut_append {w : Text} (hs : s ≠ .inBraces) (hw : ∀ c ∈ w, isIdentifierChar c = true)
    (rest : Text) : cut s reversed (w ++ rest) = cut s (w.reverse ++ reversed) rest := by
  induction w generalizing reversed with
  | nil => rfl
  | cons c w ih =>
    obtain ⟨hc, hw⟩ := List.forall_mem_cons.1 hw
    have hblank := isBlank_eq_false_of_isIdentifierChar hc
    rw [List.cons_append, cut_cons (ne_backslash_of_isIdentifierChar hc), hblank,
      if_neg Bool.false_ne_true, if_pos (by simp [hs, hc]), ih hw, List.reverse_cons,
      List.append_assoc]
    rfl

/-- Outside braces, a run of identifier characters that cannot go on is one word. -/
theorem cut_word {w rest : Text} (hs : s ≠ .inBraces) (hne : w ≠ [])
    (hw : ∀ c ∈ w, isIdentifierChar c = true) (hrest : ¬ startsWord rest) :
    cut s [] (w ++ rest) = .word w :: cut s [] rest := by
  rw [cut_append hs hw, cut_eq_ofWord_append_of_not_startsWord hrest]
  simp [ofWord, hne]

end

/-- `cut` gives the pieces of a text, with words taken whole. -/
theorem cuts_cut (s : Surroundings) (t : Text) : Cuts s t (cut s [] t) := by
  match t with
  | [] =>
    rw [cut_nil]
    exact .nil
  | c :: rest =>
    by_cases hescape : c = '\\'
    · subst hescape
      match rest with
      | [] =>
        rw [cut_lone]
        exact .lone
      | d :: rest =>
        rw [cut_escape]
        exact .escape (cuts_cut s rest)
    by_cases hword : s ≠ .inBraces ∧ isIdentifierChar c = true
    · obtain ⟨hs, hc⟩ := hword
      have hw : ∀ d ∈ c :: rest.takeWhile isIdentifierChar, isIdentifierChar d = true :=
        List.forall_mem_cons.2 ⟨hc, fun d hd => List.mem_takeWhile_imp hd⟩
      have htext : c :: rest = (c :: rest.takeWhile isIdentifierChar) ++
          rest.dropWhile isIdentifierChar := by simp
      have hshorter := (List.dropWhile_suffix (l := rest) isIdentifierChar).length_le
      rw [htext, cut_word hs (List.cons_ne_nil _ _) hw (not_startsWord_dropWhile rest)]
      exact .word hs (List.cons_ne_nil _ _) hw (not_startsWord_dropWhile rest) (cuts_cut s _)
    rw [cut_cons hescape]
    cases hblank : isBlank c with
    | true => exact .blank hblank (cuts_cut s rest)
    | false =>
      have hverbatim : s = .inBraces ∨ isIdentifierChar c = false := by
        by_cases hs : s = .inBraces
        · exact .inl hs
        · exact .inr (by simpa [hs] using hword)
      rw [if_neg Bool.false_ne_true, if_neg (by simpa using hword)]
      exact .verbatim hescape hblank hverbatim (cuts_cut (s.after c) rest)
termination_by t.length

theorem cuts_ofLine (t : Text) : Cuts .plain t (ofLine t) := cuts_cut .plain t

end Piece

end Confection
