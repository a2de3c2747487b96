import Confection.Proofs.Pattern.Language
import Confection.Proofs.Pattern.Phrases

/-!
# The elements of a pattern that is read

Reading a pattern makes no elements of its own, except groups out of what has been read.  So what
holds of the elements among the lexemes, and of a group if it holds inside it, holds of every
element of the pattern (`forall_of_ofLexemes`).  This is used to say which characters a text of the
pattern can have: those of values, and those that a phrase of the pattern stands for
(`mem_of_mem_language`).
-/

namespace Confection

namespace Pattern

/-! ## What is passed on from lexemes -/

section

variable {P : Element → Prop}

/-- Does `P` hold of what is written of the layer? -/
structure Layer.Forall (P : Element → Prop) (l : Layer) : Prop where
  items : ∀ it ∈ l.items, P it.element
  complete : ∀ s ∈ l.complete, ∀ it ∈ s, P it.element

namespace Layer.Forall

variable {l : Layer}

theorem push (h : l.Forall P) {it : Item} (hit : P it.element) : (l.push it).Forall P :=
  ⟨List.forall_mem_cons.2 ⟨hit, h.items⟩, h.complete⟩

theorem requantify (h : l.Forall P) (q : Quantifier) : (l.requantify q).Forall P := by
  unfold Layer.requantify
  split
  · exact h
  · next it rest hitems =>
    have hall := h.items
    rw [hitems, List.forall_mem_cons] at hall
    exact ⟨List.forall_mem_cons.2 ⟨hall.1, hall.2⟩, h.complete⟩

theorem alternatives (h : l.Forall P) :
    ∀ s ∈ l.items.reverse :: l.complete, ∀ it ∈ s, P it.element :=
  List.forall_mem_cons.2 ⟨fun it hit => h.items it (List.mem_reverse.1 hit), h.complete⟩

theorem nextAlternative (h : l.Forall P) : l.nextAlternative.Forall P :=
  ⟨by simp [Layer.nextAlternative], h.alternatives⟩

theorem toPattern (h : l.Forall P) : ∀ s ∈ l.toPattern, ∀ it ∈ s, P it.element :=
  fun s hs => h.alternatives s (List.mem_reverse.1 hs)

end Layer.Forall

/-- Does `P` hold of all that is written of the draft? -/
structure Draft.Forall (P : Element → Prop) (d : Draft) : Prop where
  layer : d.layer.Forall P
  around : ∀ l ∈ d.around, l.Forall P

variable {limit : ℕ}
  (hgroup : ∀ p : Pattern, (∀ s ∈ p, ∀ it ∈ s, P it.element) → P (.group p))

include hgroup

/-- Reading a lexeme makes no other elements than that of the lexeme, and groups. -/
theorem Draft.Forall.step {d d' : Draft} {x : Lexeme} (hd : d.Forall P)
    (hx : ∀ e, x = .element e → P e) (h : d.step limit x = .ok d') : d'.Forall P := by
  cases Draft.step_eq_ok_iff.1 h with
  | element e => exact ⟨hd.layer.push (hx e rfl), hd.around⟩
  | repetition => exact ⟨hd.layer.requantify _, hd.around⟩
  | lazy => exact ⟨hd.layer, hd.around⟩
  | bar => exact ⟨hd.layer.nextAlternative, hd.around⟩
  | opening =>
    exact ⟨⟨by simp [Layer.empty], by simp [Layer.empty]⟩,
      List.forall_mem_cons.2 ⟨hd.layer, hd.around⟩⟩
  | closing heq =>
    have haround := hd.around
    rw [heq, List.forall_mem_cons] at haround
    exact ⟨haround.1.push (hgroup _ hd.layer.toPattern), haround.2⟩

/-- What holds of the elements that are read, and of groups if it holds inside them, holds of all
elements of the pattern. -/
theorem forall_of_ofLexemes {ls : List Lexeme} {p : Pattern} (hls : ∀ e, .element e ∈ ls → P e)
    (h : ofLexemes limit ls = .ok p) : ∀ s ∈ p, ∀ it ∈ s, P it.element := by
  have hrun {ls : List Lexeme} {d d' : Draft} (hd : d.Forall P) (hls : ∀ e, .element e ∈ ls → P e)
      (h : ls.foldlM (Draft.step limit) d = .ok d') : d'.Forall P := by
    induction ls generalizing d with
    | nil => cases h; exact hd
    | cons x ls ih =>
      obtain ⟨d₁, hstep, h⟩ := bind_eq_ok.1 h
      refine ih (hd.step hgroup (fun e he => hls e ?_) hstep)
        (fun e he => hls e (List.mem_cons_of_mem _ he)) h
      rw [he]
      exact List.mem_cons_self
  obtain ⟨d, hd, hp⟩ := bind_eq_ok.1 h
  have hempty : Draft.empty.Forall P :=
    ⟨⟨by simp [Draft.empty, Layer.empty], by simp [Draft.empty, Layer.empty]⟩,
      by simp [Draft.empty]⟩
  unfold Draft.finish at hp
  split at hp
  · cases hp; exact (hrun hempty hls hd).layer.toPattern
  · cases hp

end

end Pattern

/-! ## The characters of a text -/

section

variable {values : SymbolValues} {S : Set Char}

/-- Do all texts of the element keep to the characters of `S`? -/
def Element.KeepsTo (values : SymbolValues) (S : Set Char) (e : Element) : Prop :=
  ∀ t ∈ e.language (Atom.strings values), ∀ c ∈ t, c ∈ S

/-- Words made of characters of `S` make words of characters of `S`. -/
theorem mem_of_mem_pow {l : Language Char} (hl : ∀ t ∈ l, ∀ c ∈ t, c ∈ S) (k : ℕ) :
    ∀ t ∈ l ^ k, ∀ c ∈ t, c ∈ S := by
  induction k with
  | zero =>
    intro t ht
    rw [pow_zero, Language.mem_one] at ht
    simp [ht]
  | succ k ih =>
    intro t ht
    rw [pow_succ, Language.mem_mul] at ht
    obtain ⟨u, hu, v, hv, rfl⟩ := ht
    exact List.forall_mem_append.2 ⟨ih u hu, hl v hv⟩

theorem Sequence.keepsTo {s : Sequence} (h : ∀ it ∈ s, it.element.KeepsTo values S) :
    ∀ t ∈ Sequence.language (Atom.strings values) s, ∀ c ∈ t, c ∈ S := by
  induction s with
  | nil =>
    intro t ht
    rw [Sequence.language, Language.mem_one] at ht
    simp [ht]
  | cons it s ih =>
    obtain ⟨q, e⟩ := it
    obtain ⟨he, hs⟩ := List.forall_mem_cons.1 h
    intro t ht
    rw [Sequence.language, Language.mem_mul] at ht
    obtain ⟨u, ⟨k, -, hu⟩, v, hv, rfl⟩ := ht
    exact List.forall_mem_append.2 ⟨mem_of_mem_pow he k u hu, ih hs v hv⟩

theorem Pattern.keepsTo {p : Pattern} (h : ∀ s ∈ p, ∀ it ∈ s, it.element.KeepsTo values S) :
    ∀ t ∈ p.language (Atom.strings values), ∀ c ∈ t, c ∈ S := by
  induction p with
  | nil => exact fun t ht => absurd ht (Language.notMem_zero t)
  | cons s p ih =>
    obtain ⟨hs, hp⟩ := List.forall_mem_cons.1 h
    rintro t (ht | ht)
    · exact Sequence.keepsTo hs t ht
    · exact ih hp t ht

/-- The characters of values. -/
def valueChars (values : SymbolValues) : Set Char := {c | ∃ vs ∈ values, ∃ v ∈ vs, c ∈ v}

/-- An atom becomes a text of value characters or is a literal. -/
theorem Atom.mem_of_mem_strings {a : Atom} {t : Text} (ht : t ∈ a.strings values) {c : Char}
    (hc : c ∈ t) : c ∈ valueChars values ∨ a.literal? = some c := by
  rw [Atom.mem_strings] at ht
  cases a with
  | symbol i =>
    rw [Atom.texts, List.getD_eq_getElem?_getD] at ht
    cases hvs : values[i]? with
    | none => simp [hvs] at ht
    | some vs =>
      rw [hvs, Option.getD_some] at ht
      exact .inl ⟨vs, List.mem_of_getElem? hvs, t, ht, hc⟩
  | literal d =>
    obtain rfl := List.mem_singleton.1 ht
    exact .inr (by rw [List.mem_singleton.1 hc]; rfl)

/-- The texts of a phrase keep to the characters of values and to those it stands for. -/
theorem Pattern.Phrase.keepsTo {ph : Phrase} {e : Element} (h : ph.lexeme = .element e) :
    e.KeepsTo values (valueChars values ∪ {c | c ∈ ph.literals}) := by
  have hatoms {members : List Atom} (hmembers : ∀ a ∈ members, ∀ c ∈ a.literal?, c ∈ ph.literals) :
      (Element.oneOf members).KeepsTo values (valueChars values ∪ {c | c ∈ ph.literals}) := by
    rintro t ⟨a, ha, ht⟩ c hc
    exact (Atom.mem_of_mem_strings ht hc).imp_right (hmembers a ha c)
  cases ph with
  | character x =>
    cases h
    intro t ht c hc
    have ht : t ∈ x.atom.strings values := by
      cases hx : x.atom with
      | symbol | literal => rwa [hx] at ht
    exact (Atom.mem_of_mem_strings ht hc).imp_right Option.mem_toList.2
  | set cs =>
    cases h
    refine hatoms fun a ha c hc => ?_
    obtain ⟨d, hd, rfl⟩ := List.mem_map.1 ha
    rwa [← Option.some.inj hc]
  | any =>
    cases h
    intro t ht c hc
    obtain ⟨d, hd, ht⟩ := Element.mem_language_any.1 ht
    refine (Atom.mem_of_mem_strings ht hc).imp_right fun hc => ?_
    rwa [← Option.some.inj hc]
  | charClass clauses hyphen =>
    cases h
    refine hatoms fun a ha c hc => ?_
    rw [firstOccurrences_eq_eraseDups, List.mem_eraseDups, List.mem_append] at ha
    refine List.mem_append.2 (ha.imp (fun ha => List.mem_filterMap.2 ⟨a, ha, hc⟩) fun ha => ?_)
    cases hyphen with
    | false => cases ha
    | true =>
      obtain rfl := List.mem_singleton.1 ha
      exact List.mem_singleton.2 (Option.some.inj hc).symm
  | opening | closing | bar | repetition => cases h

/-- What a text of a pattern has are characters of values, and characters that a phrase of the
pattern stands for. -/
theorem Pattern.mem_of_mem_language {limit : ℕ} {phrases : List Phrase} {p : Pattern}
    (h : ofLexemes limit (phrases.map Phrase.lexeme) = .ok p) {t : Text}
    (ht : t ∈ p.language (Atom.strings values)) {c : Char} (hc : c ∈ t) :
    c ∈ valueChars values ∨ ∃ ph ∈ phrases, c ∈ ph.literals := by
  refine Pattern.keepsTo (S := valueChars values ∪ {c | ∃ ph ∈ phrases, c ∈ ph.literals})
    (forall_of_ofLexemes (fun p hp => Pattern.keepsTo hp) (fun e he => ?_) h) t ht c hc
  obtain ⟨ph, hph, he⟩ := List.mem_map.1 he
  exact fun t ht c hc => (Phrase.keepsTo he t ht c hc).imp_right fun hc => ⟨ph, hph, hc⟩

end

end Confection
