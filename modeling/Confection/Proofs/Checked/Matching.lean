import Mathlib.Data.Finset.Sort
import Mathlib.Data.PFun
import Confection.Proofs.Checked.Offsets
import Confection.Proofs.Formula.Basic

/-!
# Matching on offsets

A matcher that works on byte offsets has steps that can fail: it can take the text apart at a number
of bytes that is no offset of it, look up a symbol that has no values, or subtract the least number
of repetitions from a smaller greatest one.  `Pattern.match?` is such a matcher, with `none` as its
result as soon as one of these steps fails, and also if a repetition never came to an end.

What a part of a pattern reads at one position is described by the language of the part, `EndsAt`.
A loop over several offsets leads to what one of them leads to (`mem_iff_of_forEach?`), and fails as
soon as one of them fails (`isSome_forEach?_iff`).
-/

namespace Confection

/-! ## The matcher -/

/-- The offsets where one of the words ends that the text from offset `b` on begins with. -/
def Text.endsAfter (rest : Text) (b : ℕ) (us : List Text) : Offsets :=
  ((us.filter (· <+: rest)).map fun u => b + byteSize u).toFinset

/-- Reads an atom, with the text from offset `b` on. -/
def Atom.match? (values : SymbolValues) (rest : Text) (b : ℕ) : Atom → Option Offsets
  | .symbol i => (values[i]?).map (rest.endsAfter b)
  | .literal c => some (rest.endsAfter b [[c]])

/-- The number of rounds after the least number, if that is limited.  It fails when the bounds run
downwards. -/
def Quantifier.further? (q : Quantifier) : Option (Option ℕ) :=
  match q.max? with
  | none => some none
  | some m => if q.min ≤ m then some (some (m - q.min)) else none

namespace Offsets

/-- The offsets that one of several ways leads to, tried in order. -/
def unionOver? {α : Type} (way : α → Option Offsets) (xs : List α) : Option Offsets :=
  xs.foldlM (fun ends x => (way x).map (ends ∪ ·)) ∅

/-- The offsets that are reached from one of the starts. -/
def forEach? (step : ℕ → Option Offsets) (starts : Offsets) : Option Offsets :=
  unionOver? step starts.sort

/-- Takes a step a number of times and then goes on, unless no offset is left after some step. -/
def rounds? (step andThen : Offsets → Option Offsets) : ℕ → Offsets → Option Offsets
  | 0, s => andThen s
  | n + 1, s => do
    let next ← step s
    if next = ∅ then return ∅ else rounds? step andThen n next

/-- A round of a repetition, with the number of rounds before it, what has been reached and the
frontier.  No round is made if the frontier is empty or `limit` rounds have been made. -/
def round? (step : Offsets → Option Offsets) (limit : Option ℕ) :
    ℕ × Offsets × Offsets →. Offsets ⊕ ℕ × Offsets × Offsets :=
  fun (count, reached, frontier) =>
    if frontier = ∅ ∨ ¬ limit.all (count < ·) then Part.some (.inl reached)
    else (Part.ofOption (step frontier)).map fun next =>
      .inr (count + 1, reached ∪ next \ reached, next \ reached)

open Classical in
/-- Makes rounds until none is left to make.  There is no result if this does not end. -/
noncomputable def spread? (step : Offsets → Option Offsets) (limit : Option ℕ) (count : ℕ)
    (reached frontier : Offsets) : Option Offsets :=
  ((round? step limit).fix (count, reached, frontier)).toOption

/-- Takes a step as often as the quantifier says. -/
noncomputable def repeated? (step : Offsets → Option Offsets) (q : Quantifier) :
    Offsets → Option Offsets :=
  rounds? step (fun reached => do spread? step (← q.further?) 0 reached reached) q.min

end Offsets

section

variable (values : SymbolValues) (t : Text)

mutual

/-- The offsets where an element may end that begins at offset `b`. -/
noncomputable def Element.match? : Element → ℕ → Option Offsets
  | .symbol i, b => do Atom.match? values (← t.fromByte? b) b (.symbol i)
  | .literal c, b => do Atom.match? values (← t.fromByte? b) b (.literal c)
  | .oneOf members, b => do Offsets.unionOver? (Atom.match? values (← t.fromByte? b) b) members
  | .any, b => do
    let rest ← t.fromByte? b
    -- every printable character is taken to be one byte long
    return if rest.head?.any (· ∈ printableAscii) then {b + 1} else ∅
  | .group p, b => do
    let _ ← t.fromByte? b
    Pattern.match? p {b}
termination_by structural e => e

/-- The offsets where a sequence may end that begins at one of the given offsets. -/
noncomputable def Sequence.match? : Sequence → Offsets → Option Offsets
  | [], s => some s
  | ⟨q, e⟩ :: rest, s =>
    if s = ∅ then some ∅
    else do Sequence.match? rest (← Offsets.repeated? (Offsets.forEach? e.match?) q s)
termination_by structural s => s

/-- The offsets where a pattern may end that begins at one of the given offsets. -/
noncomputable def Pattern.match? : Pattern → Offsets → Option Offsets
  | [], _ => some ∅
  | s :: rest, starts => do
    let first ← Sequence.match? s starts
    return first ∪ (← Pattern.match? rest starts)
termination_by structural p => p

end

end

/-- Does the pattern accept the text?  There is no answer if a step of the matcher fails. -/
noncomputable def Pattern.accepts? (p : Pattern) (values : SymbolValues) (t : Text) : Option Bool :=
  (Pattern.match? values t p {0}).map fun ends => decide (t.byteSize ∈ ends)

/-! ## Loops over several ways -/

namespace Offsets

section

variable {α : Type} {way : α → Option Offsets} {xs : List α}

/-- A loop over several ways has a result exactly if all of them have one. -/
theorem isSome_unionOver?_iff : (unionOver? way xs).isSome ↔ ∀ x ∈ xs, (way x).isSome := by
  suffices key : ∀ found : Offsets,
      (xs.foldlM (fun ends x => (way x).map (ends ∪ ·)) found).isSome ↔
        ∀ x ∈ xs, (way x).isSome from key ∅
  induction xs with
  | nil => intro found; simp
  | cons x xs ih =>
    intro found
    rw [List.foldlM_cons, List.forall_mem_cons]
    cases way x with
    | none => simp
    | some first => simpa using ih (found ∪ first)

/-- A loop over several ways leads to what one of them leads to. -/
theorem mem_iff_of_unionOver? {ends : Offsets} (h : unionOver? way xs = some ends) {e : ℕ} :
    e ∈ ends ↔ ∃ x ∈ xs, ∃ found ∈ way x, e ∈ found := by
  suffices key : ∀ found : Offsets,
      xs.foldlM (fun ends x => (way x).map (ends ∪ ·)) found = some ends →
        (e ∈ ends ↔ e ∈ found ∨ ∃ x ∈ xs, ∃ found ∈ way x, e ∈ found) by
    simpa using key ∅ h
  clear h
  induction xs with
  | nil =>
    intro found h
    cases h
    simp
  | cons x xs ih =>
    intro found h
    rw [List.foldlM_cons, Option.bind_eq_bind, Option.bind_eq_some_iff] at h
    obtain ⟨found', hx, hrest⟩ := h
    obtain ⟨first, hfirst, rfl⟩ := Option.map_eq_some_iff.1 hx
    rw [ih _ hrest, Finset.mem_union, or_assoc]
    simp [hfirst]

end

section

variable {way : ℕ → Option Offsets} {starts : Offsets}

/-- A step has a result from several offsets exactly if it has one from each of them. -/
theorem isSome_forEach?_iff : (forEach? way starts).isSome ↔ ∀ b ∈ starts, (way b).isSome := by
  rw [forEach?, isSome_unionOver?_iff]
  simp only [Finset.mem_sort]

/-- A step leads from several offsets to what it leads to from one of them. -/
theorem mem_iff_of_forEach? {ends : Offsets} (h : forEach? way starts = some ends) {e : ℕ} :
    e ∈ ends ↔ ∃ b ∈ starts, ∃ found ∈ way b, e ∈ found := by
  rw [mem_iff_of_unionOver? h]
  simp only [Finset.mem_sort]

theorem forEach?_empty : forEach? way ∅ = some ∅ := by simp [forEach?, unionOver?]

theorem forEach?_singleton (b : ℕ) : forEach? way {b} = way b := by
  simp [forEach?, unionOver?]

end

end Offsets

/-! ## What is read at one position -/

/-- The offsets are those of the positions that words of the language lead to from position `i`. -/
def Text.EndsAt (t : Text) (l : Language Char) (i : ℕ) (ends : Offsets) : Prop :=
  ∀ b, b ∈ ends ↔ ∃ j, t.Reaches l i j ∧ t.offset j = b

/-- An atom is read without a failure exactly if its symbol has values. -/
theorem Atom.isSome_match?_iff {values : SymbolValues} {a : Atom} {rest : Text} {b : ℕ} :
    (a.match? values rest b).isSome ↔ a.InRange values.length := by
  cases a with
  | symbol k => simp [Atom.match?, Atom.InRange]
  | literal c => simp [Atom.match?, Atom.InRange]

section

variable {t : Text} {i : ℕ}

/-- A reader leads from a single position to the offsets that its language leads to. -/
theorem Text.endsAt_two_pow {r : Reader} {l : Language Char} (hr : r.Reads t l)
    (hi : i ≤ t.length) : t.EndsAt l i (t.offsets (r.ends (2 ^ i))) := by
  intro b
  rw [Text.mem_offsets]
  simp only [hr _ (Positions.within_two_pow hi), Positions.has_two_pow, exists_eq_left]
  constructor
  · rintro ⟨j, -, hij, rfl⟩
    exact ⟨j, hij, rfl⟩
  · rintro ⟨j, hij, rfl⟩
    exact ⟨j, hij.le_length, hij, rfl⟩

/-- The words of a list lead to the offsets where those of them end that stand at the position. -/
theorem Text.endsAt_endsAfter (us : List Text) (hi : i ≤ t.length) :
    t.EndsAt (listed us) i (Text.endsAfter (t.drop i) (t.offset i) us) := by
  intro b
  simp only [endsAfter, List.mem_toFinset, List.mem_map, List.mem_filter, decide_eq_true_eq]
  constructor
  · rintro ⟨u, ⟨hu, hprefix⟩, rfl⟩
    have hspan : t.Spans i u (i + u.length) := ⟨hi, hprefix, rfl⟩
    exact ⟨_, ⟨u, hu, hspan⟩, hspan.offset_eq⟩
  · rintro ⟨j, ⟨u, hu, hspan⟩, rfl⟩
    exact ⟨u, ⟨hu, hspan.2.1⟩, hspan.offset_eq.symm⟩

/-- An atom leads to the ends of what it may become. -/
theorem Atom.endsAt_of_match? {values : SymbolValues} {a : Atom} {ends : Offsets}
    (hi : i ≤ t.length) (h : a.match? values (t.drop i) (t.offset i) = some ends) :
    t.EndsAt (a.strings values) i ends := by
  cases a with
  | symbol k =>
    obtain ⟨us, hus, rfl⟩ := Option.map_eq_some_iff.1 h
    have htexts : (Atom.symbol k).strings values = listed us := by
      rw [Atom.strings, Atom.texts, List.getD_eq_getElem?_getD, hus, Option.getD_some]
    rw [htexts]
    exact Text.endsAt_endsAfter us hi
  | literal c =>
    rw [← Option.some.inj h]
    exact Text.endsAt_endsAfter [[c]] hi

/-- The members of a class lead to the ends of what one of them may become. -/
theorem Element.endsAt_of_match?_oneOf {values : SymbolValues} {members : List Atom}
    {ends : Offsets} (hi : i ≤ t.length)
    (h : Offsets.unionOver? (Atom.match? values (t.drop i) (t.offset i)) members = some ends) :
    t.EndsAt ((Element.oneOf members).language (Atom.strings values)) i ends := by
  have hsome := Offsets.isSome_unionOver?_iff.1 (Option.isSome_of_eq_some h)
  intro b
  rw [Offsets.mem_iff_of_unionOver? h]
  constructor
  · rintro ⟨a, ha, found, hfound, hb⟩
    obtain ⟨j, ⟨u, hu, hspan⟩, hj⟩ := (Atom.endsAt_of_match? hi hfound b).1 hb
    exact ⟨j, ⟨u, ⟨a, ha, hu⟩, hspan⟩, hj⟩
  · rintro ⟨j, ⟨u, ⟨a, ha, hu⟩, hspan⟩, hj⟩
    obtain ⟨found, hfound⟩ := Option.isSome_iff_exists.1 (hsome a ha)
    exact ⟨a, ha, found, hfound, (Atom.endsAt_of_match? hi hfound b).2 ⟨j, ⟨u, hu, hspan⟩, hj⟩⟩

/-- A printable character is one byte long. -/
theorem utf8Size_of_mem_printableAscii {c : Char} (hc : c ∈ printableAscii) : c.utf8Size = 1 := by
  obtain ⟨-, hle⟩ := mem_printableAscii.1 hc
  rw [Char.utf8Size_eq_one_iff, UInt32.le_iff_toNat_le]
  exact hle.trans (by decide)

/-- Behind a printable character there is an offset one byte further. -/
theorem Element.endsAt_any (values : SymbolValues) (t : Text) (i : ℕ) :
    t.EndsAt (Element.any.language (Atom.strings values)) i
      (if (t.drop i).head?.any (· ∈ printableAscii) then {t.offset i + 1} else ∅) := by
  intro b
  have hreaches {j : ℕ} : t.Reaches (Element.any.language (Atom.strings values)) i j ↔
      ∃ c ∈ printableAscii, t[i]? = some c ∧ j = i + 1 := by
    simp only [Text.Reaches, Element.mem_language_any, Atom.mem_strings, Atom.texts,
      List.mem_singleton]
    constructor
    · rintro ⟨-, ⟨c, hc, rfl⟩, hspan⟩
      exact ⟨c, hc, Text.spans_singleton.1 hspan⟩
    · rintro ⟨c, hc, hspan⟩
      exact ⟨[c], ⟨c, hc, rfl⟩, Text.spans_singleton.2 hspan⟩
  have hoffset {c : Char} (hc : c ∈ printableAscii) (hi : t[i]? = some c) :
      t.offset (i + 1) = t.offset i + 1 := by
    rw [(Text.spans_singleton.2 ⟨hi, rfl⟩).offset_eq, Text.byteSize_cons, Text.byteSize_nil,
      utf8Size_of_mem_printableAscii hc]
  simp only [hreaches, List.head?_drop, Option.any_eq_true, decide_eq_true_eq]
  split
  · next hprintable =>
    obtain ⟨c, hi, hc⟩ := hprintable
    rw [Finset.mem_singleton, ← hoffset hc hi]
    constructor
    · rintro rfl
      exact ⟨i + 1, ⟨c, hc, hi, rfl⟩, rfl⟩
    · rintro ⟨-, ⟨-, -, -, rfl⟩, rfl⟩
      rfl
  · next hnot =>
    constructor
    · intro hb
      exact absurd hb (Finset.notMem_empty b)
    · rintro ⟨-, ⟨c, hc, hi, -⟩, -⟩
      exact absurd ⟨c, hi, hc⟩ hnot

end

end Confection
