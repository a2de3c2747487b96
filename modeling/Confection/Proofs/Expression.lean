import Confection.Pantry.Expression
import Confection.Proofs.Text.Hex
import Confection.Proofs.Text.Lines
import Confection.Proofs.Traversal
import Mathlib.Data.List.Sort
import Mathlib.Data.List.TakeWhile

/-!
# What the tokens of an expression mean

A token can be read in several ways: a letter is a character, and it may be a name too; `a-e` is a
range, and may be a name; `0C15` is a code and `D800` is not.  `Pantry.Means` says what a token
means, with the order of precedence as conditions on the later readings.  Each token means one
thing, either a list of values or an error, and an expression is read token by token: its values are
those of the tokens one after the other, and its error is that of the first token that has one
(`Pantry.expressionValues_means`).

## Shape of the proof

Each reader of a part of a token is tied down by what it accepts: `Text.hex?_eq_some_iff` for codes,
`endpoint?_eq_some_iff` and `range?_eq_some_iff` for ranges, `literal?_eq_some_iff` for single
characters and codes.  So in `Pantry.tokenValues_means`, where the readings are put together, each
branch is one clause of `Pantry.Means`.
-/

namespace Confection

/-! ## Ranges -/

/-- Does the text, at one end of a range, stand for the character? -/
def IsEndpoint (t : Text) (c : Char) : Prop := t = [c] ∨ 2 ≤ t.length ∧ t.IsHex c.toNat

/-- Is the token a range, and are these the characters that it stands for?  They ascend from one end
to the other. -/
def IsRange (token : Text) (cs : List Char) : Prop :=
  ∃ first last lo hi, token = first ++ '-' :: last ∧ '-' ∉ first ∧ '-' ∉ last ∧
    IsEndpoint first lo ∧ IsEndpoint last hi ∧ lo ≤ hi ∧
    cs.Pairwise (· < ·) ∧ ∀ c, c ∈ cs ↔ lo ≤ c ∧ c ≤ hi

/-- A range has at least the character at its two ends. -/
theorem IsRange.ne_nil {token : Text} {cs : List Char} (h : IsRange token cs) : cs ≠ [] := by
  obtain ⟨_, _, lo, hi, _, _, _, _, _, hle, _, hmem⟩ := h
  exact List.ne_nil_of_mem ((hmem lo).2 ⟨Char.le_refl lo, hle⟩)

theorem endpoint?_eq_some_iff {t : Text} {n : ℕ} :
    endpoint? t = some n ↔ ∃ c, IsEndpoint t c ∧ c.toNat = n := by
  rcases t with _ | ⟨a, _ | ⟨b, t⟩⟩
  · simp [endpoint?, IsEndpoint]
  · simp [endpoint?, IsEndpoint]
  · have hiff (c : Char) : IsEndpoint (a :: b :: t) c ↔ Text.IsHex (a :: b :: t) c.toNat := by
      simp [IsEndpoint]
    simp only [endpoint?, Option.filter_eq_some_iff, Text.hex?_eq_some_iff,
      Option.isSome_iff_exists, Text.scalar?_eq_some_iff, hiff]
    constructor
    · rintro ⟨hn, c, rfl⟩
      exact ⟨c, hn, rfl⟩
    · rintro ⟨c, hn, rfl⟩
      exact ⟨hn, c, rfl⟩

theorem range?_eq_some_iff {token : Text} {cs : List Char} :
    range? token = some cs ↔ IsRange token cs := by
  simp only [range?, Option.bind_eq_bind, Option.bind_eq_some_iff, Prod.exists,
    Text.splitAtFirst_eq_some_iff]
  constructor
  · rintro ⟨first, last, ⟨rfl, hfirst⟩, h⟩
    split at h
    · cases h
    · next hlast =>
      obtain ⟨m, hm, h⟩ := Option.bind_eq_some_iff.1 h
      obtain ⟨n, hn, h⟩ := Option.bind_eq_some_iff.1 h
      obtain ⟨lo, hlo, rfl⟩ := endpoint?_eq_some_iff.1 hm
      obtain ⟨hi, hhi, rfl⟩ := endpoint?_eq_some_iff.1 hn
      split at h
      · next hle =>
        cases h
        exact ⟨first, last, lo, hi, rfl, hfirst, hlast, hlo, hhi, hle,
          Text.pairwise_scalarsBetween _ _, fun _ => Text.mem_scalarsBetween_iff⟩
      · cases h
  · rintro ⟨first, last, lo, hi, rfl, hfirst, hlast, hlo, hhi, hle, hsorted, hmem⟩
    have hcs : cs = Text.scalarsBetween lo.toNat hi.toNat :=
      hsorted.eq_of_mem_iff (Text.pairwise_scalarsBetween _ _) fun c =>
        (hmem c).trans Text.mem_scalarsBetween_iff.symm
    refine ⟨first, last, ⟨rfl, hfirst⟩, ?_⟩
    rw [if_neg hlast, endpoint?_eq_some_iff.2 ⟨lo, hlo, rfl⟩,
      endpoint?_eq_some_iff.2 ⟨hi, hhi, rfl⟩, hcs]
    exact if_pos hle

/-- The two ends may be given in different ways. -/
example : range? ['x', '-', '7', 'A'] = some ['x', 'y', 'z'] := by decide

theorem range?_eq_none_iff {token : Text} : range? token = none ↔ ∀ cs, ¬IsRange token cs := by
  simp only [Option.eq_none_iff_forall_ne_some, ne_eq, range?_eq_some_iff]

/-! ## Single characters -/

/-- A token that is not one character stands for the character whose code it is. -/
theorem literal?_eq_some_iff {t : Text} (ht : t.length ≠ 1) {c : Char} :
    literal? t = some c ↔ t.IsHex c.toNat := by
  have hcode : literal? t = t.hex?.bind Text.scalar? := by
    rcases t with _ | ⟨a, _ | ⟨b, t⟩⟩
    · rfl
    · exact absurd rfl ht
    · rfl
  rw [hcode, Option.bind_eq_some_iff]
  constructor
  · rintro ⟨n, hn, hc⟩
    rw [← Text.scalar?_eq_some_iff.1 hc]
    exact Text.hex?_eq_some_iff.1 hn
  · exact fun h => ⟨_, Text.hex?_eq_some_iff.2 h, Text.scalar?_eq_some_iff.2 rfl⟩

theorem literal?_eq_none_iff {t : Text} (ht : t.length ≠ 1) :
    literal? t = none ↔ ∀ c : Char, ¬t.IsHex c.toNat := by
  simp only [Option.eq_none_iff_forall_ne_some, ne_eq, literal?_eq_some_iff ht]

/-! ## Tokens -/

namespace Pantry

/-- There is nothing under a name exactly if it is not in the list of names. -/
theorem get?_eq_none_iff {p : Pantry} {name : Text} : p.get? name = none ↔ name ∉ p.names := by
  simp only [Option.eq_none_iff_forall_ne_some, ne_eq, get?_eq_some_iff, names, List.mem_map,
    not_exists]

theorem get?_empty (name : Text) : empty.get? name = none := by
  simp [get?_eq_none_iff, names]

variable (p : Pantry) (declared : List Text) (ingredient : Text)

/-- Is the token no name, neither of an ingredient in the pantry nor of a definition? -/
def Unnamed (token : Text) : Prop := token ∉ p.names ∧ token ∉ declared

/-- What a token means in the expression of the given ingredient, as a list of values or as an
error. -/
inductive Means : Text → Except Error (List Text) → Prop
  | name {found : Ingredient} (hfound : found ∈ p.ingredients) : Means found.name (.ok found.values)
  | unresolved {token : Text} (hfound : token ∉ p.names) (hdeclared : token ∈ declared) :
    Means token (.error (.unresolvedReference ingredient token))
  | range {token : Text} {cs : List Char} (hname : p.Unnamed declared token)
    (hlength : 2 ≤ token.length) (hhyphen : '-' ∈ token) (hrange : IsRange token cs) :
    Means token (.ok (cs.map ([·])))
  | invalidRange {token : Text} (hname : p.Unnamed declared token) (hlength : 2 ≤ token.length)
    (hhyphen : '-' ∈ token) (hrange : ∀ cs, ¬IsRange token cs) :
    Means token (.error (.invalidRange ingredient token))
  | character {c : Char} (hname : p.Unnamed declared [c]) : Means [c] (.ok [[c]])
  | code {token : Text} {c : Char} (hname : p.Unnamed declared token) (hlength : token.length ≠ 1)
    (hhyphen : '-' ∉ token) (hcode : token.IsHex c.toNat) : Means token (.ok [[c]])
  | invalidCodepoint {token : Text} (hname : p.Unnamed declared token) (hlength : token.length ≠ 1)
    (hhyphen : '-' ∉ token) (hcode : ∀ c : Char, ¬token.IsHex c.toNat) :
    Means token (.error (.invalidCodepoint ingredient token))

variable {p declared ingredient}

theorem tokenValues_name {found : Ingredient} (hfound : found ∈ p.ingredients) :
    p.tokenValues declared ingredient found.name = .ok found.values := by
  rw [tokenValues, get?_eq_some_iff.2 ⟨hfound, rfl⟩]

theorem tokenValues_unresolved {token : Text} (hfound : token ∉ p.names)
    (hdeclared : token ∈ declared) :
    p.tokenValues declared ingredient token = .error (.unresolvedReference ingredient token) := by
  rw [tokenValues, get?_eq_none_iff.2 hfound]
  exact if_pos hdeclared

/-- A token that is no name is a range if it can be one, and else a character. -/
theorem tokenValues_of_unnamed {token : Text} (hname : p.Unnamed declared token) :
    p.tokenValues declared ingredient token =
      if 2 ≤ token.length ∧ '-' ∈ token then
        (range? token).elim (.error (.invalidRange ingredient token)) (.ok <| ·.map ([·]))
      else
        (literal? token).elim (.error (.invalidCodepoint ingredient token)) (.ok [[·]]) := by
  rw [tokenValues, get?_eq_none_iff.2 hname.1]
  simp only [if_neg hname.2, Bool.and_eq_true, decide_eq_true_iff, List.contains_iff_mem]
  refine if_congr Iff.rfl ?_ ?_
  · cases range? token <;> rfl
  · cases literal? token <;> rfl

/-- What is read as a token's values, or as its error, is what it means. -/
theorem tokenValues_means (token : Text) :
    p.Means declared ingredient token (p.tokenValues declared ingredient token) := by
  by_cases hfound : token ∈ p.names
  · obtain ⟨found, hmem, rfl⟩ := List.mem_map.1 hfound
    rw [tokenValues_name hmem]
    exact .name hmem
  by_cases hdeclared : token ∈ declared
  · rw [tokenValues_unresolved hfound hdeclared]
    exact .unresolved hfound hdeclared
  have hname : p.Unnamed declared token := ⟨hfound, hdeclared⟩
  rw [tokenValues_of_unnamed hname]
  split
  · next hshape =>
    rcases hrange : range? token with _ | cs
    · exact .invalidRange hname hshape.1 hshape.2 (range?_eq_none_iff.1 hrange)
    · exact .range hname hshape.1 hshape.2 (range?_eq_some_iff.1 hrange)
  · next hshape =>
    by_cases hlength : token.length = 1
    · obtain ⟨c, rfl⟩ := List.length_eq_one_iff.1 hlength
      exact .character hname
    · have hhyphen : '-' ∉ token := by
        intro hmem
        have := List.length_pos_of_mem hmem
        exact hshape ⟨by omega, hmem⟩
      rcases hcode : literal? token with _ | c
      · exact .invalidCodepoint hname hlength hhyphen ((literal?_eq_none_iff hlength).1 hcode)
      · exact .code hname hlength hhyphen ((literal?_eq_some_iff hlength).1 hcode)

/-- A token means no more than what it is read as. -/
theorem Means.eq_tokenValues {token : Text} {r : Except Error (List Text)}
    (h : p.Means declared ingredient token r) : r = p.tokenValues declared ingredient token := by
  cases h with
  | name hfound => exact (tokenValues_name hfound).symm
  | unresolved hfound hdeclared => exact (tokenValues_unresolved hfound hdeclared).symm
  | range hname hlength hhyphen hrange =>
    rw [tokenValues_of_unnamed hname, if_pos ⟨hlength, hhyphen⟩, range?_eq_some_iff.2 hrange]
    rfl
  | invalidRange hname hlength hhyphen hrange =>
    rw [tokenValues_of_unnamed hname, if_pos ⟨hlength, hhyphen⟩, range?_eq_none_iff.2 hrange]
    rfl
  | character hname =>
    rw [tokenValues_of_unnamed hname, if_neg (fun h => Nat.not_succ_le_self 1 h.1)]
    rfl
  | code hname hlength hhyphen hcode =>
    rw [tokenValues_of_unnamed hname, if_neg (fun h => hhyphen h.2),
      (literal?_eq_some_iff hlength).2 hcode]
    rfl
  | invalidCodepoint hname hlength hhyphen hcode =>
    rw [tokenValues_of_unnamed hname, if_neg (fun h => hhyphen h.2),
      (literal?_eq_none_iff hlength).2 hcode]
    rfl

theorem tokenValues_eq_iff {token : Text} {r : Except Error (List Text)} :
    p.tokenValues declared ingredient token = r ↔ p.Means declared ingredient token r := by
  constructor
  · rintro rfl
    exact tokenValues_means token
  · exact fun h => h.eq_tokenValues.symm

/-! ## Whole expressions -/

/-- An expression has values when all its tokens have. -/
theorem expressionValues_eq_ok_iff {expression : Text} {vs : List Text} :
    p.expressionValues declared ingredient expression = .ok vs ↔
      ∃ parts, List.Forall₂ (p.tokenValues declared ingredient · = .ok ·) expression.words parts ∧
        vs = parts.flatten := by
  rw [expressionValues, bind_eq_ok]
  exact exists_congr fun parts => and_congr mapM_eq_ok_iff pure_eq_ok

/-- The error of an expression is that of the first token that has one. -/
theorem expressionValues_eq_error_iff {expression : Text} {e : Error} :
    p.expressionValues declared ingredient expression = .error e ↔
      ∃ before token after, expression.words = before ++ token :: after ∧
        (∀ w ∈ before, ∃ part, p.tokenValues declared ingredient w = .ok part) ∧
        p.tokenValues declared ingredient token = .error e := by
  rw [expressionValues, bind_eq_error, mapM_eq_error_iff, or_iff_left]
  -- putting the values together cannot fail
  rintro ⟨parts, -, ⟨⟩⟩

variable (p declared ingredient)

/-- The values of an expression are those that its tokens mean, one token after the other.  If some
token means an error, the first such token decides.  Every token means one thing, and a range is
never empty. -/
theorem expressionValues_means (expression : Text) :
    (∀ vs, p.expressionValues declared ingredient expression = .ok vs ↔
      ∃ parts, List.Forall₂ (fun token part => p.Means declared ingredient token (.ok part))
        expression.words parts ∧ vs = parts.flatten) ∧
    (∀ e, p.expressionValues declared ingredient expression = .error e ↔
      ∃ before token after, expression.words = before ++ token :: after ∧
        (∀ w ∈ before, ∃ part, p.Means declared ingredient w (.ok part)) ∧
        p.Means declared ingredient token (.error e)) ∧
    (∀ token, ∃! r, p.Means declared ingredient token r) ∧
    ∀ token cs, IsRange token cs → cs ≠ [] := by
  simp only [← tokenValues_eq_iff]
  exact ⟨fun vs => expressionValues_eq_ok_iff, fun e => expressionValues_eq_error_iff,
    fun token => ⟨_, rfl, fun r h => h.symm⟩, fun token cs => IsRange.ne_nil⟩

end Pantry

end Confection
