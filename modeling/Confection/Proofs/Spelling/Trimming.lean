import Confection.Proofs.Spelling.Pieces
import Confection.Proofs.Text.Lines

/-!
# Blanks around a pattern line

Blanks in front of a line are no pieces, and neither are blanks after it, but a backslash at the end
of the line would escape the first of them.  `ofLine_trim_eq_iff` says that this is the only way in
which trimming a line changes its pieces.
-/

namespace Confection

open Text

/-- Does the line end with a blank that is escaped, further blanks aside? -/
def endsInEscapedBlank (t : Text) : Prop :=
  ∃ c, isBlank c = true ∧ (Piece.ofLine t).getLast? = some (.escape (some c))

namespace Piece

variable {s : Surroundings}

theorem cut_blanks {t : Text} (ht : ∀ c ∈ t, isBlank c = true) (rest : Text) :
    cut s [] (t ++ rest) = cut s [] rest := by
  induction t with
  | nil => rfl
  | cons c t ih =>
    obtain ⟨hc, ht⟩ := List.forall_mem_cons.1 ht
    rw [List.cons_append, cut_cons (ne_backslash_of_isBlank hc), if_pos hc, ih ht]
    rfl

end Piece

namespace Cuts

variable {s : Surroundings} {t : Text} {ps : List Piece}

/-- What a text is cut into is determined. -/
theorem eq_cut (h : Cuts s t ps) : ps = Piece.cut s [] t := by
  induction h with
  | nil => rw [Piece.cut_nil]; rfl
  | lone => rw [Piece.cut_lone]; rfl
  | escape _ ih => rw [Piece.cut_escape, ← ih]; rfl
  | blank hblank _ ih =>
    rw [Piece.cut_cons (ne_backslash_of_isBlank hblank), if_pos hblank, ← ih]
    rfl
  | word hs hne hword hend _ ih => rw [Piece.cut_word hs hne hword hend, ← ih]
  | verbatim hescape hblank hword _ ih =>
    rw [Piece.cut_cons hescape, hblank, if_neg Bool.false_ne_true, if_neg, ← ih]
    · rfl
    · rcases hword with rfl | hword <;> simp [*]

/-- Blanks after a text that does not end with a backslash are no pieces. -/
theorem append_blanks (h : Cuts s t ps) (hlast : ps.getLast? ≠ some (.escape none)) {bs : Text}
    (hbs : ∀ c ∈ bs, isBlank c = true) : Cuts s (t ++ bs) ps := by
  induction h with
  | @nil s =>
    have hcut := Piece.cuts_cut s (bs ++ [])
    rwa [Piece.cut_blanks hbs, Piece.cut_nil, List.append_nil] at hcut
  | lone => simp at hlast
  | @escape s d rest ps h ih =>
    refine .escape (ih fun hps => hlast ?_)
    rw [List.getLast?_cons, hps]
    rfl
  | blank hblank _ ih => exact .blank hblank (ih hlast)
  | @word s w rest ps hs hne hword hend h ih =>
    rw [List.append_assoc]
    refine .word hs hne hword (not_startsWord_append hend (not_startsWord_of_blanks hbs))
      (ih fun hps => hlast ?_)
    rw [List.getLast?_cons, hps]
    rfl
  | verbatim hescape hblank hword _ ih =>
    refine .verbatim hescape hblank hword (ih fun hps => hlast ?_)
    rw [List.getLast?_cons, hps]
    rfl

/-- A backslash at the end of a text escapes the character that is put after it. -/
theorem append_of_lone (h : Cuts s t ps) (hlast : ps.getLast? = some (.escape none)) (b : Char) :
    Cuts s (t ++ [b]) (ps.dropLast ++ [.escape (some b)]) := by
  induction h with
  | nil => simp at hlast
  | lone => exact .escape .nil
  | @escape s d rest ps h ih =>
    cases ps with
    | nil => simp at hlast
    | cons p ps => exact .escape (ih (by simpa using hlast))
  | blank hblank _ ih => exact .blank hblank (ih hlast)
  | @word s w rest ps hs hne hword hend h ih =>
    cases ps with
    | nil => simp at hlast
    | cons p ps =>
      rw [List.append_assoc]
      refine .word hs hne hword ?_ (ih (by simpa using hlast))
      rintro ⟨c, hc, hstart⟩
      rcases rest with _ | ⟨d, rest⟩
      · have hnil := h.eq_cut
        rw [Piece.cut_nil] at hnil
        cases hnil
      · exact hend ⟨c, hc, hstart⟩
  | @verbatim s c rest ps hescape hblank hword h ih =>
    cases ps with
    | nil => simp at hlast
    | cons p ps => exact .verbatim hescape hblank hword (ih (by simpa using hlast))

/-- A text without pieces is blank. -/
theorem isBlank_of_nil (h : Cuts s t []) : ∀ c ∈ t, isBlank c = true := by
  generalize hps : ([] : List Piece) = ps at h
  induction h with
  | nil => simp
  | blank hblank _ ih => exact List.forall_mem_cons.2 ⟨hblank, ih hps⟩
  | _ => cases hps

/-- A text of which the last piece is an escaped blank ends with a blank. -/
theorem exists_blank_of_getLast? (h : Cuts s t ps) {c : Char} (hc : isBlank c = true)
    (hlast : ps.getLast? = some (.escape (some c))) : ∃ d ∈ t.getLast?, isBlank d = true := by
  have later {u rest : Text} : (∃ d ∈ rest.getLast?, isBlank d = true) →
      ∃ d ∈ (u ++ rest).getLast?, isBlank d = true := by
    rintro ⟨d, hd, hblank⟩
    refine ⟨d, ?_, hblank⟩
    rw [List.getLast?_append, Option.mem_def.1 hd]
    rfl
  induction h with
  | nil => simp at hlast
  | lone => simp at hlast
  | @escape s d rest ps h ih =>
    cases ps with
    | nil =>
      have hd : d = c := by simpa using hlast
      have hrest := h.isBlank_of_nil
      rcases hgetLast : rest.getLast? with _ | e
      · rw [List.getLast?_eq_none_iff] at hgetLast
        subst hgetLast
        exact ⟨d, rfl, hd ▸ hc⟩
      · exact later (u := ['\\', d]) ⟨e, hgetLast, hrest e (List.mem_of_getLast? hgetLast)⟩
    | cons p ps => exact later (u := ['\\', d]) (ih (by simpa using hlast))
  | @blank s c rest ps hblank _ ih => exact later (u := [c]) (ih hlast)
  | @word s w rest ps hs hne hword hend h ih =>
    cases ps with
    | nil => simp at hlast
    | cons p ps => exact later (ih (by simpa using hlast))
  | @verbatim s c rest ps hescape hblank hword h ih =>
    cases ps with
    | nil => simp at hlast
    | cons p ps => exact later (u := [c]) (ih (by simpa using hlast))

end Cuts

namespace Piece

/-- Trimming a line takes away its last piece's blank, if that is an escaped one, and changes
nothing else. -/
theorem ofLine_eq_or (t : Text) : ofLine t = ofLine t.trim ∨
    ∃ b, isBlank b = true ∧ (ofLine t.trim).getLast? = some (.escape none) ∧
      ofLine t = (ofLine t.trim).dropLast ++ [.escape (some b)] := by
  obtain ⟨before, after, hbefore, hafter, ht⟩ := isPadded_trim t
  have hline : ofLine t = ofLine (t.trim ++ after) := by
    refine (congrArg ofLine (ht.trans (List.append_assoc ..))).trans ?_
    exact cut_blanks hbefore _
  have hcuts := cuts_ofLine t.trim
  rw [hline]
  by_cases hlast : (ofLine t.trim).getLast? = some (.escape none)
  · cases after with
    | nil => exact .inl (by rw [List.append_nil])
    | cons b after =>
      obtain ⟨hb, hafter⟩ := List.forall_mem_cons.1 hafter
      have happend := (hcuts.append_of_lone hlast b).append_blanks (by simp) hafter
      rw [List.append_assoc] at happend
      exact .inr ⟨b, hb, hlast, happend.eq_cut.symm⟩
  · exact .inl (hcuts.append_blanks hlast hafter).eq_cut.symm

/-- Trimming a line keeps its pieces unless the last one is an escaped blank. -/
theorem ofLine_trim_eq_iff {t : Text} : ofLine t.trim = ofLine t ↔ ¬ endsInEscapedBlank t := by
  constructor
  · rintro h ⟨c, hc, hlast⟩
    rw [← h] at hlast
    obtain ⟨d, hd, hblank⟩ := (cuts_ofLine t.trim).exists_blank_of_getLast? hc hlast
    rw [(isTrimmed_trim t).last d hd] at hblank
    cases hblank
  · intro h
    rcases ofLine_eq_or t with heq | ⟨b, hb, -, heq⟩
    · exact heq.symm
    · exact absurd ⟨b, hb, by rw [heq]; simp⟩ h

end Piece

end Confection
