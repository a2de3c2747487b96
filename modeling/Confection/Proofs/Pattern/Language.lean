import Mathlib.Computability.Language
import Mathlib.Data.List.Forall2
import Confection.Pattern.Marks

/-!
# The language of a pattern

What a pattern means, said without a matcher and without a search: a choice is the union of its
alternatives, a sequence the concatenation of its items, and an item the union of the powers of its
element that the quantifier allows.  The words are made of what atoms become, so the definition
takes the language `of a` of every atom `a` as a parameter.

* With `Atom.alone` an atom becomes itself.  The words are then the candidates of the pattern.
* With `Atom.strings values` a symbol becomes one of its values and a literal its character.  The
  words are then the texts of the pattern.

## Shape of the lemmas

`Pattern.language_eq_substitute` ties the two together: a word of the pattern is a candidate in
which every atom has become a word of its own.  It holds because `substitute of` respects the
operations that a language is built with, union, concatenation and powers.
-/

namespace Confection

variable {α : Type*}

/-- The language of the words in a list. -/
def listed (ws : List (List α)) : Language α := {w | w ∈ ws}

theorem mem_listed {ws : List (List α)} {w : List α} : w ∈ listed ws ↔ w ∈ ws := Iff.rfl

theorem listed_nil : listed ([] : List (List α)) = 0 := Language.ext fun _ => by simp [mem_listed]

theorem listed_cons (w : List α) (ws : List (List α)) :
    listed (w :: ws) = listed [w] + listed ws :=
  Language.ext fun v => by simp [mem_listed, Language.mem_add]

namespace Quantifier

/-- Does the quantifier allow `k` repetitions? -/
def Allows (q : Quantifier) (k : ℕ) : Prop := q.min ≤ k ∧ ∀ m ∈ q.max?, k ≤ m

/-- The words made of as many words of a language as the quantifier allows. -/
def powers (q : Quantifier) (l : Language α) : Language α := {w | ∃ k, q.Allows k ∧ w ∈ l ^ k}

theorem mem_powers {q : Quantifier} {l : Language α} {w : List α} :
    w ∈ q.powers l ↔ ∃ k, q.Allows k ∧ w ∈ l ^ k := Iff.rfl

theorem allows_once {k : ℕ} : once.Allows k ↔ k = 1 := by
  simp only [Allows, min, max?, Option.mem_some_iff, forall_eq']
  omega

theorem allows_optional {k : ℕ} : optional.Allows k ↔ k = 0 ∨ k = 1 := by
  simp only [Allows, min, max?, Option.mem_some_iff, forall_eq']
  omega

theorem allows_zeroOrMore {k : ℕ} : zeroOrMore.Allows k := ⟨Nat.zero_le k, by simp [max?]⟩

theorem allows_oneOrMore {k : ℕ} : oneOrMore.Allows k ↔ 1 ≤ k := by
  simp [Allows, min, max?]

/-- Without a quantifier the words are those of the language. -/
theorem powers_once (l : Language α) : once.powers l = l := by
  ext w
  simp [mem_powers, allows_once]

/-- An optional word is empty or a word of the language. -/
theorem powers_optional (l : Language α) : optional.powers l = 1 + l := by
  ext w
  simp [mem_powers, allows_optional, or_and_right, exists_or, Language.mem_add]

open scoped Computability in
/-- Any number of words make the Kleene closure of the language. -/
theorem powers_zeroOrMore (l : Language α) : zeroOrMore.powers l = l∗ := by
  ext w
  simp only [mem_powers, allows_zeroOrMore, true_and, Language.kstar_eq_iSup_pow,
    Language.mem_iSup]

open scoped Computability in
/-- One word or more are a word and then a word of the Kleene closure. -/
theorem powers_oneOrMore (l : Language α) : oneOrMore.powers l = l * l∗ := by
  ext w
  simp only [mem_powers, allows_oneOrMore, Language.kstar_eq_iSup_pow, Language.mul_iSup,
    Language.mem_iSup, ← pow_succ']
  constructor
  · rintro ⟨k, hk, hw⟩
    exact ⟨k - 1, by rwa [Nat.sub_add_cancel hk]⟩
  · rintro ⟨k, hw⟩
    exact ⟨k + 1, Nat.le_add_left 1 k, hw⟩

end Quantifier

mutual

/-- The words of an element, when an atom stands for a word of `of`. -/
def Element.language (of : Atom → Language α) : Element → Language α
  | .symbol i => of (.symbol i)
  | .literal c => of (.literal c)
  | .oneOf members => {w | ∃ a ∈ members, w ∈ of a}
  | .any => {w | ∃ c : Char, (0x20 ≤ c.toNat ∧ c.toNat ≤ 0x7E) ∧ w ∈ of (.literal c)}
  | .group p => Pattern.language of p
termination_by structural e => e

/-- The words of a sequence: those of its items, one after the other. -/
def Sequence.language (of : Atom → Language α) : Sequence → Language α
  | [] => 1
  | ⟨q, e⟩ :: rest => q.powers (e.language of) * Sequence.language of rest
termination_by structural s => s

/-- The words of a pattern: those of all its alternatives. -/
def Pattern.language (of : Atom → Language α) : Pattern → Language α
  | [] => 0
  | s :: rest => Sequence.language of s + Pattern.language of rest
termination_by structural p => p

end

namespace Atom

/-- An atom as the one word of its language. -/
def alone (a : Atom) : Language Atom := {w | w = [a]}

/-- The texts that an atom may become. -/
def texts (values : SymbolValues) : Atom → List Text
  | .symbol i => values.getD i []
  | .literal c => [[c]]

/-- The texts that an atom may become, as a language. -/
def strings (values : SymbolValues) (a : Atom) : Language Char := listed (a.texts values)

theorem mem_alone {a : Atom} {w : List Atom} : w ∈ a.alone ↔ w = [a] := Iff.rfl

theorem mem_strings {values : SymbolValues} {a : Atom} {t : Text} :
    t ∈ a.strings values ↔ t ∈ a.texts values := Iff.rfl

end Atom

/-! ## Membership, case by case -/

section

variable {of : Atom → Language α} {w : List α}

theorem Element.mem_language_oneOf {members : List Atom} :
    w ∈ (Element.oneOf members).language of ↔ ∃ a ∈ members, w ∈ of a := Iff.rfl

/-- The printable characters of `any` are those of the list that the search goes through. -/
theorem mem_printableAscii {c : Char} :
    c ∈ printableAscii ↔ 0x20 ≤ c.toNat ∧ c.toNat ≤ 0x7E := by
  have htoNat : ∀ i < 95, (Char.ofNat (0x20 + 1 * i)).toNat = 0x20 + 1 * i := by decide
  simp only [printableAscii, List.mem_map, List.mem_range']
  constructor
  · rintro ⟨-, ⟨i, hi, rfl⟩, rfl⟩
    rw [htoNat i hi]
    omega
  · intro h
    exact ⟨c.toNat, ⟨c.toNat - 0x20, by omega, by omega⟩, Char.ofNat_toNat c⟩

theorem Element.mem_language_any :
    w ∈ Element.any.language of ↔ ∃ c ∈ printableAscii, w ∈ of (.literal c) := by
  simp only [mem_printableAscii]
  rfl

end

/-! ## Atoms become words -/

/-- The words that come from those of a language of atoms when every atom becomes a word of `of`. -/
def substitute (of : Atom → Language α) (l : Language Atom) : Language α :=
  {w | ∃ atoms ∈ l, w ∈ (atoms.map of).prod}

section

variable (of : Atom → Language α)

theorem mem_substitute {l : Language Atom} {w : List α} :
    w ∈ substitute of l ↔ ∃ atoms ∈ l, w ∈ (atoms.map of).prod := Iff.rfl

theorem substitute_alone (a : Atom) : substitute of a.alone = of a := by
  ext w
  simp [mem_substitute, Atom.mem_alone]

theorem substitute_zero : substitute of 0 = 0 := by
  ext w
  simp [mem_substitute]

theorem substitute_one : substitute of 1 = 1 := by
  ext w
  simp [mem_substitute]

theorem substitute_add (l m : Language Atom) :
    substitute of (l + m) = substitute of l + substitute of m := by
  ext w
  simp only [mem_substitute, Language.mem_add, or_and_right, exists_or]

theorem substitute_mul (l m : Language Atom) :
    substitute of (l * m) = substitute of l * substitute of m := by
  ext w
  simp only [Language.mem_mul, mem_substitute]
  constructor
  · rintro ⟨-, ⟨a, ha, b, hb, rfl⟩, hw⟩
    rw [List.map_append, List.prod_append, Language.mem_mul] at hw
    obtain ⟨u, hu, v, hv, rfl⟩ := hw
    exact ⟨u, ⟨a, ha, hu⟩, v, ⟨b, hb, hv⟩, rfl⟩
  · rintro ⟨u, ⟨a, ha, hu⟩, v, ⟨b, hb, hv⟩, rfl⟩
    refine ⟨a ++ b, ⟨a, ha, b, hb, rfl⟩, ?_⟩
    rw [List.map_append, List.prod_append]
    exact Language.append_mem_mul hu hv

theorem substitute_pow (l : Language Atom) (k : ℕ) :
    substitute of (l ^ k) = substitute of l ^ k := by
  induction k with
  | zero => rw [pow_zero, pow_zero, substitute_one]
  | succ k ih => rw [pow_succ, pow_succ, substitute_mul, ih]

theorem substitute_powers (q : Quantifier) (l : Language Atom) :
    substitute of (q.powers l) = q.powers (substitute of l) := by
  ext w
  simp only [mem_substitute, Quantifier.mem_powers, ← substitute_pow]
  constructor
  · rintro ⟨atoms, ⟨k, hk, hatoms⟩, hw⟩
    exact ⟨k, hk, atoms, hatoms, hw⟩
  · rintro ⟨k, hk, atoms, hatoms, hw⟩
    exact ⟨atoms, ⟨k, hk, hatoms⟩, hw⟩

/-- A union of atoms becomes the union of what they become. -/
private theorem mem_substitute_exists {ι : Type*} {P : ι → Prop} {a : ι → Atom}
    {l : Language Atom} (hl : ∀ v, v ∈ l ↔ ∃ i, P i ∧ v ∈ (a i).alone) (w : List α) :
    w ∈ substitute of l ↔ ∃ i, P i ∧ w ∈ of (a i) := by
  simp only [mem_substitute, hl]
  constructor
  · rintro ⟨-, ⟨i, hi, rfl⟩, hw⟩
    exact ⟨i, hi, by simpa using hw⟩
  · rintro ⟨i, hi, hw⟩
    exact ⟨[a i], ⟨i, hi, rfl⟩, by simpa using hw⟩

mutual

/-- The words of an element are its candidates with every atom turned into a word. -/
theorem Element.language_eq_substitute :
    ∀ e : Element, e.language of = substitute of (e.language Atom.alone)
  | .symbol i => (substitute_alone of (.symbol i)).symm
  | .literal c => (substitute_alone of (.literal c)).symm
  | .oneOf _ => Language.ext fun w => (mem_substitute_exists of (fun _ => Iff.rfl) w).symm
  | .any => Language.ext fun w => (mem_substitute_exists of (fun _ => Iff.rfl) w).symm
  | .group p => Pattern.language_eq_substitute p

/-- The words of a sequence are its candidates with every atom turned into a word. -/
theorem Sequence.language_eq_substitute :
    ∀ s : Sequence, Sequence.language of s = substitute of (Sequence.language Atom.alone s)
  | [] => (substitute_one of).symm
  | ⟨q, e⟩ :: rest => by
    rw [Sequence.language, Sequence.language, substitute_mul, substitute_powers,
      e.language_eq_substitute, Sequence.language_eq_substitute rest]

/-- The words of a pattern are its candidates with every atom turned into a word. -/
theorem Pattern.language_eq_substitute :
    ∀ p : Pattern, Pattern.language of p = substitute of (Pattern.language Atom.alone p)
  | [] => (substitute_zero of).symm
  | s :: rest => by
    rw [Pattern.language, Pattern.language, substitute_add, Sequence.language_eq_substitute s,
      Pattern.language_eq_substitute rest]

end

variable {of} in
/-- What the atoms of a candidate become makes a word of the pattern. -/
theorem Pattern.mem_language_of_candidate {p : Pattern} {atoms : List Atom}
    (hatoms : atoms ∈ p.language Atom.alone) {w : List α} (hw : w ∈ (atoms.map of).prod) :
    w ∈ p.language of := by
  rw [Pattern.language_eq_substitute]
  exact ⟨atoms, hatoms, hw⟩

end

/-! ## Values that are single characters -/

/-- If the values are single characters, so is all that an atom can become. -/
theorem Atom.length_eq_one {values : SymbolValues} (h : ∀ vs ∈ values, ∀ v ∈ vs, v.length = 1)
    (a : Atom) : ∀ u ∈ a.texts values, u.length = 1 := by
  intro u hu
  cases a with
  | symbol i =>
    rw [Atom.texts, List.getD_eq_getElem?_getD] at hu
    cases hvs : values[i]? with
    | none => simp [hvs] at hu
    | some vs =>
      rw [hvs, Option.getD_some] at hu
      exact h vs (List.mem_of_getElem? hvs) u hu
  | literal c => rw [List.mem_singleton.1 hu, List.length_singleton]

/-- A word for atoms that become single characters has a place for each of them. -/
theorem forall₂_of_mem_prod {values : SymbolValues} {atoms : List Atom} {t : Text}
    (hsingle : ∀ a : Atom, ∀ u ∈ a.texts values, u.length = 1)
    (ht : t ∈ (atoms.map (Atom.strings values)).prod) :
    List.Forall₂ (fun a c => [c] ∈ a.texts values) atoms t := by
  induction atoms generalizing t with
  | nil =>
    rw [(Language.mem_one _).1 ht]
    exact .nil
  | cons a atoms ih =>
    rw [List.map_cons, List.prod_cons, Language.mem_mul] at ht
    obtain ⟨u, hu, v, hv, rfl⟩ := ht
    obtain ⟨c, rfl⟩ := List.length_eq_one_iff.1 (hsingle a u hu)
    exact .cons hu (ih hv)

end Confection
