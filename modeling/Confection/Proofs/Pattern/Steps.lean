import Confection.Pattern.Reading

/-!
# The steps of reading a pattern

`Draft.Step` lists what a lexeme can do to a draft, with what it asks of the draft, and
`step_eq_ok_iff` says that `Draft.step` does just that.  What every step keeps is proved by cases on
`Draft.Step`.
-/

namespace Confection.Pattern

/-- Reading the lexeme takes the first draft to the second. -/
inductive Draft.Step (limit : Nat) (d : Draft) : Lexeme → Draft → Prop
  | element (e : Element) :
      Step limit d (.element e) { d with layer := d.layer.push ⟨.once, e⟩, slot := .bare }
  | repetition {mark : Char} {q : Quantifier} (hslot : d.slot = .bare) :
      Step limit d (.repetition mark (.ok q))
        { d with layer := d.layer.requantify q, slot := .quantified }
  /-- A question mark after a quantifier asks for a lazy match. -/
  | lazy {q : Except Error Quantifier} (hslot : d.slot = .quantified) :
      Step limit d (.repetition '?' q) { d with slot := .closed }
  | bar : Step limit d .bar { d with layer := d.layer.nextAlternative, slot := .closed }
  | opening (hdepth : d.around.length < limit) :
      Step limit d .opening ⟨.empty, d.layer :: d.around, .closed⟩
  | closing {outer : Layer} {around : List Layer} (haround : d.around = outer :: around) :
      Step limit d .closing ⟨outer.push ⟨.once, .group d.layer.toPattern⟩, around, .bare⟩

/-- A lexeme is read without a mistake exactly if it is one of the steps. -/
theorem Draft.step_eq_ok_iff {limit : Nat} {d d' : Draft} {x : Lexeme} :
    d.step limit x = .ok d' ↔ d.Step limit x d' := by
  constructor
  · intro h
    cases x with
    | malformed => cases h
    | element e => cases h; exact .element e
    | bar => cases h; exact .bar
    | repetition mark q =>
      cases hslot : d.slot with
      | closed => simp only [step, hslot] at h; cases h
      | bare =>
        simp only [step, hslot] at h
        cases q with
        | error => cases h
        | ok q => cases h; exact .repetition hslot
      | quantified =>
        simp only [step, hslot] at h
        split at h
        · next hmark => cases h; subst hmark; exact .lazy hslot
        · cases h
    | opening =>
      simp only [step] at h
      split at h
      · next hdepth => cases h; exact .opening hdepth
      · cases h
    | closing =>
      cases haround : d.around with
      | nil => simp only [step, haround] at h; cases h
      | cons outer around => simp only [step, haround] at h; cases h; exact .closing haround
  · intro h
    cases h with
    | element | bar => rfl
    | repetition hslot => simp only [step, hslot]; rfl
    | lazy hslot => simp only [step, hslot, if_true]
    | opening hdepth => exact if_pos hdepth
    | closing haround => simp only [step, haround]

/-- In a pattern that is finished no group is open. -/
theorem Draft.finish_eq_ok_iff {d : Draft} {p : Pattern} :
    d.finish = .ok p ↔ d.around = [] ∧ d.layer.toPattern = p := by
  unfold finish
  split
  · next h => simp [List.isEmpty_iff.1 h]
  · next h => simp [mt List.isEmpty_iff.2 h]

end Confection.Pattern
