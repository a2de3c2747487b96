import Confection.Proofs.Spelling.Tokens
import Confection.Proofs.Spelling.Trimming

/-!
# Blanks inside a pattern line

Blanks are layout wherever they stand: in a class, between braces, and at any other place of a line,
as long as they do not come right after a backslash, which would escape the first of them, and do
not split a word in two.  `spell_layout` says so, and that of the blanks of a line only the escaped
ones are left when it is spelled.
-/

namespace Confection

open Text

/-- Does the text end with a backslash that is not escaped itself? -/
def endsInBackslash : Text → Bool
  | [] => false
  | c :: rest =>
    if c = '\\' then
      match rest with
      | [] => true
      | _ :: rest => endsInBackslash rest
    else endsInBackslash rest

theorem endsInBackslash_cons {c : Char} (hc : c ≠ '\\') (rest : Text) :
    endsInBackslash (c :: rest) = endsInBackslash rest := by
  rw [endsInBackslash.eq_def]
  exact if_neg hc

/-- What stands before a place that is not escaped does not matter for what comes after it. -/
theorem endsInBackslash_append {t : Text} (ht : endsInBackslash t = false) (u : Text) :
    endsInBackslash (t ++ u) = endsInBackslash u := by
  fun_induction endsInBackslash t with
  | case1 => rfl
  | case2 => cases ht
  | case3 d rest ih => exact ih ht
  | case4 c rest hc ih => exact (endsInBackslash_cons hc _).trans (ih ht)

/-- Does the text end with a character of an identifier? -/
def endsWord (t : Text) : Prop := ∃ c ∈ t.getLast?, isIdentifierChar c = true

theorem endsWord_append {t : Text} (h : endsWord t) (u : Text) : endsWord (u ++ t) := by
  obtain ⟨c, hc, hword⟩ := h
  refine ⟨c, ?_, hword⟩
  rw [List.getLast?_append, Option.mem_def.1 hc]
  rfl

/-! ## Blanks that are put in -/

namespace Piece

variable {w post : Text}

/-- Blanks make no difference to the pieces after a word that is complete. -/
theorem cut_blanks_append (hw : ∀ c ∈ w, isBlank c = true) {s : Surroundings} {reversed : Text}
    (hend : reversed = [] ∨ ¬ startsWord post) :
    cut s reversed (w ++ post) = cut s reversed post := by
  have hnil : cut s [] (w ++ post) = cut s [] post := cut_blanks hw post
  rcases hend with rfl | hend
  · exact hnil
  · have hend' : ¬ startsWord (w ++ post) :=
      not_startsWord_append (not_startsWord_of_blanks hw) hend
    rw [cut_eq_ofWord_append_of_not_startsWord hend', hnil,
      ← cut_eq_ofWord_append_of_not_startsWord hend]

/-- Blanks make no difference to the pieces at any place that does not follow a backslash or stand
inside a word. -/
theorem cut_append_blanks_append (hw : ∀ c ∈ w, isBlank c = true) {pre : Text}
    (hpre : endsInBackslash pre = false) {s : Surroundings} {reversed : Text}
    (hreversed : ∀ c ∈ reversed, isIdentifierChar c = true)
    (hword : ¬ (endsWord (reversed.reverse ++ pre) ∧ startsWord post)) :
    cut s reversed (pre ++ (w ++ post)) = cut s reversed (pre ++ post) := by
  fun_induction endsInBackslash pre generalizing s reversed with
  | case1 =>
    refine cut_blanks_append hw ?_
    cases reversed with
    | nil => exact .inl rfl
    | cons c reversed =>
      refine .inr fun hstart => hword ⟨⟨c, by simp, ?_⟩, hstart⟩
      exact hreversed c List.mem_cons_self
  | case2 => cases hpre
  | case3 d rest ih =>
    have hrest : ¬ (endsWord rest ∧ startsWord post) := fun h =>
      hword ⟨by simpa using endsWord_append h.1 (reversed.reverse ++ ['\\', d]), h.2⟩
    rw [List.cons_append, List.cons_append, cut_escape, ih hpre (List.forall_mem_nil _) hrest]
    exact cut_escape.symm
  | case4 c rest hc ih =>
    have hrest : ¬ (endsWord rest ∧ startsWord post) := fun h =>
      hword ⟨by simpa using endsWord_append h.1 (reversed.reverse ++ [c]), h.2⟩
    rw [List.cons_append, List.cons_append, cut_cons hc, cut_cons hc]
    split
    · rw [ih hpre (List.forall_mem_nil _) hrest]
    · split
      · next hgrows =>
        -- the character joins the word, which is still what the text begins in the middle of
        obtain ⟨-, hchar⟩ := Bool.and_eq_true_iff.1 hgrows
        refine ih hpre (List.forall_mem_cons.2 ⟨hchar, hreversed⟩) ?_
        simpa using hword
      · rw [ih hpre (List.forall_mem_nil _) hrest]

theorem ofLine_append_blanks_append (hw : ∀ c ∈ w, isBlank c = true) {pre : Text}
    (hpre : endsInBackslash pre = false) (hword : ¬ (endsWord pre ∧ startsWord post)) :
    ofLine (pre ++ w ++ post) = ofLine (pre ++ post) := by
  rw [List.append_assoc]
  exact cut_append_blanks_append hw hpre (List.forall_mem_nil _) hword

end Piece

/-! ## Blanks that are left -/

/-- Is every blank in the text escaped? -/
def BlanksEscaped (t : Text) : Prop :=
  ∀ before c after, t = before ++ c :: after → isBlank c = true → endsInBackslash before = true

theorem blanksEscaped_nil : BlanksEscaped [] := by
  intro before c after h
  simp at h

theorem blanksEscaped_singleton {c : Char} (hc : isBlank c = false) : BlanksEscaped [c] := by
  intro before d after h hd
  rcases before with _ | ⟨a, before⟩
  · cases h
    rw [hc] at hd
    cases hd
  · simp at h

/-- Every blank in the text is escaped, and nothing that comes after it would be. -/
structure Complete (t : Text) : Prop where
  blanksEscaped : BlanksEscaped t
  endsInBackslash_eq_false : endsInBackslash t = false

namespace Complete

variable {t u : Text}

theorem blanksEscaped_append (ht : Complete t) (hu : BlanksEscaped u) : BlanksEscaped (t ++ u) := by
  intro before c after h hc
  rcases List.append_eq_append_iff.1 h with ⟨m, rfl, hu'⟩ | ⟨m, rfl, hm⟩
  · rw [endsInBackslash_append ht.endsInBackslash_eq_false]
    exact hu m c after hu' hc
  · cases m with
    | nil => exact absurd (hu [] c after hm.symm hc) Bool.false_ne_true
    | cons d m =>
      rw [List.cons_append, List.cons.injEq] at hm
      obtain ⟨rfl, -⟩ := hm
      exact ht.blanksEscaped before c m rfl hc

theorem nil : Complete [] := ⟨blanksEscaped_nil, rfl⟩

theorem append (ht : Complete t) (hu : Complete u) : Complete (t ++ u) where
  blanksEscaped := ht.blanksEscaped_append hu.blanksEscaped
  endsInBackslash_eq_false := by
    rw [endsInBackslash_append ht.endsInBackslash_eq_false, hu.endsInBackslash_eq_false]

theorem escape (d : Char) : Complete ['\\', d] := by
  refine ⟨fun before c after h hc => ?_, rfl⟩
  rcases before with _ | ⟨a, _ | ⟨b, before⟩⟩
  · cases h
    exact absurd hc (by decide)
  · cases h
    rfl
  · simp at h

theorem singleton {c : Char} (hblank : isBlank c = false) (hc : c ≠ '\\') : Complete [c] :=
  ⟨blanksEscaped_singleton hblank, endsInBackslash_cons hc []⟩

theorem of_isIdentifierChar {c : Char} (hc : isIdentifierChar c = true) : Complete [c] :=
  singleton (isBlank_eq_false_of_isIdentifierChar hc) (ne_backslash_of_isIdentifierChar hc)

theorem flatMap {f : Char → Text} {w : Text} (h : ∀ c ∈ w, Complete (f c)) :
    Complete (w.flatMap f) := by
  induction w with
  | nil => exact nil
  | cons c w ih =>
    obtain ⟨hc, hw⟩ := List.forall_mem_cons.1 h
    exact hc.append (ih hw)

theorem spellLiteral (l : Legend) {c : Char} (hc : isIdentifierChar c = true) :
    Complete (Piece.spellLiteral l c) := by
  have hdigit : ∀ n < 16, isBlank (Nat.digitChar n) = false ∧ Nat.digitChar n ≠ '\\' := by decide
  unfold Piece.spellLiteral
  split
  · obtain ⟨hblank, hne⟩ := hdigit (c.toNat / 16 % 16) (Nat.mod_lt _ (by decide))
    obtain ⟨hblank', hne'⟩ := hdigit (c.toNat % 16) (Nat.mod_lt _ (by decide))
    exact (escape 'x').append ((singleton hblank hne).append (singleton hblank' hne'))
  · exact of_isIdentifierChar hc

end Complete

/-- The blanks in a spelled text are those of its escapes. -/
theorem Legend.Lettered.blanksEscaped_flatMap_spell {l : Legend} (hl : l.Lettered)
    {s : Surroundings} {t : Text} {ps : List Piece} (h : Cuts s t ps) :
    BlanksEscaped (ps.flatMap (Piece.spell l)) := by
  induction h with
  | nil => exact blanksEscaped_nil
  | lone => exact blanksEscaped_singleton (by decide)
  | @escape s d rest ps _ ih => exact (Complete.escape d).blanksEscaped_append ih
  | blank _ _ ih => exact ih
  | @word s w rest ps _ _ hword _ _ ih =>
    refine Complete.blanksEscaped_append ?_ ih
    unfold Piece.spell
    dsimp only
    split
    · next c hletter =>
      have hc := hl.mem_letters c (mem_symbols_of_letterOf? hletter)
      exact Complete.of_isIdentifierChar (isIdentifierChar_of_mem_letters hc)
    · exact Complete.flatMap fun c hc => Complete.spellLiteral l (hword c hc)
  | @verbatim s c rest ps hescape hblank _ _ ih =>
    exact (Complete.singleton hblank hescape).blanksEscaped_append ih

/-- Blanks in a line make no difference to how it is spelled, wherever they stand, unless a
backslash comes before them or they split a word, and a spelled line has no blanks but escaped ones.
-/
theorem Legend.spell_layout {p : Pantry} {l : Legend} (hl : Legend.ofPantry p = .ok l) :
    (∀ pre w post : Text, endsInBackslash pre = false → ¬ (endsWord pre ∧ startsWord post) →
      (∀ c ∈ w, isBlank c = true) → l.spell (pre ++ w ++ post) = l.spell (pre ++ post)) ∧
    ∀ line, BlanksEscaped (l.spell line) := by
  refine ⟨fun pre w post hpre hword hw => ?_, fun line => ?_⟩
  · rw [spell, spell, Piece.ofLine_append_blanks_append hw hpre hword]
  · exact (lettered_of_ofPantry hl).blanksEscaped_flatMap_spell (Piece.cuts_ofLine line)

/-- Two blanks in a class, after a backslash that is escaped and in front of a name, and one between
braces. -/
theorem Legend.spell_layout_inClass :
    let i : Ingredient := ⟨['A'], [['x']]⟩
    let l : Legend := ⟨[('a', i)]⟩
    let pre : Text := ['[', '\\', '\\']
    let post : Text := ['A', ']', '\x7b', ' ', '2', '\x7d']
    Legend.ofPantry (Pantry.ofList [i]) = .ok l ∧ endsInBackslash pre = false ∧
      ¬ (endsWord pre ∧ startsWord post) ∧
      l.spell (pre ++ ['\t', '\u2003'] ++ post) = l.spell (pre ++ post) ∧
      l.spell (pre ++ post) = ['[', '\\', '\\', 'a', ']', '\x7b', '2', '\x7d'] ∧
      BlanksEscaped (l.spell ['A', ' ', '\\', ' ']) := by
  intro i l pre post
  have hl : Legend.ofPantry (Pantry.ofList [i]) = .ok l := Legend.ofPantry_singleton (by simp [i])
  have hword : ¬ (endsWord pre ∧ startsWord post) := by
    rintro ⟨⟨c, hc, hword⟩, -⟩
    cases hc
    exact Bool.false_ne_true (isIdentifierChar_backslash.symm.trans hword)
  obtain ⟨hblanks, hescaped⟩ := Legend.spell_layout hl
  exact ⟨hl, rfl, hword, hblanks pre _ post rfl hword (List.all_eq_true.1 rfl), by decide +kernel,
    hescaped _⟩

end Confection
