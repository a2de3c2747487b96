import Confection.Proofs.Checked.Rounds

/-!
# The matcher on offsets and the readers

A pattern that is put together by hand can name a symbol that has no values or have bounds that run
downwards, and then some steps of the matcher on offsets fail.  Two things are proved apart from each
other, each by an induction on the tree.

* `Element.agrees_reader` (of sequences and patterns too): whenever the matcher on offsets has a
  result, it is the one of the reader.  This holds of all patterns.
* `Element.isSome_match?`: for a well-formed pattern no step fails, and all loops end.

Together they say that a well-formed pattern accepts by offsets what it accepts by positions
(`Pattern.accepts?_eq`).  `Item.match?_unites_repetitions` is about one item with any element: it
leads to the union of what the allowed numbers of repetitions lead to.

## Shape of the proof

A repetition is made of one step from offset to offset, and `Offsets.mem_iff_of_repeated?` and
`Offsets.isSome_repeated?_iff` hold of every such step that stays within a finite set.  Here that set
is `Text.boundaries`, the offsets at which characters begin and the end of the text.  An element stays
within it because it agrees with a reader (`Offsets.Agrees.staysIn`).
-/

namespace Confection

/-! ## Repeated readers -/

namespace Reader

variable {t : Text} {r r' : Reader} {l : Language Char} {s : Positions} {q : Quantifier}

/-- Readers of one language lead to the same positions. -/
theorem Reads.ends_eq (h : r.Reads t l) (h' : r'.Reads t l) (hs : s.Within t.length) :
    r.ends s = r'.ends s :=
  Positions.eq_of_has_eq fun j => Bool.eq_iff_iff.2 ((h s hs j).trans (h' s hs j).symm)

/-- From no position nothing is reached. -/
theorem Reads.ends_zero (h : r.Reads t l) : r.ends 0 = 0 := by
  rw [Positions.eq_zero_iff]
  intro j
  by_contra hj
  rw [Bool.not_eq_false, h 0 (by simp [Positions.Within])] at hj
  obtain ⟨i, hi, -⟩ := hj
  rw [Positions.has_zero] at hi
  cases hi

/-- Using a reader `k` times reads words made of `k` words of its language. -/
theorem Reads.iterate (h : r.Reads t l) (k : ℕ) : Reads t ⟨r.ends^[k]⟩ (l ^ k) := by
  induction k with
  | zero => exact reads_nothing
  | succ k ih =>
    rw [pow_succ, Function.iterate_succ']
    exact ih.andThen h

/-- Repeating a reader leads to what the allowed numbers of uses of it lead to. -/
theorem Reads.has_times (h : r.Reads t l) (hq : q.Ordered) (hs : s.Within t.length) {j : ℕ} :
    ((r.times t.length q).ends s).has j = true ↔
      ∃ k, q.Allows k ∧ Positions.has (r.ends^[k] s) j = true := by
  rw [h.times hq s hs j]
  simp only [Text.reaches_powers, (h.iterate _) s hs j]
  constructor
  · rintro ⟨i, hi, k, hk, hij⟩
    exact ⟨k, hk, i, hi, hij⟩
  · rintro ⟨k, hk, i, hi, hij⟩
    exact ⟨i, hi, k, hk, hij⟩

/-- With bounds that run downwards a reader is repeated as often as the lower one says. -/
theorem Reads.times_of_not_ordered (h : r.Reads t l) (hq : ¬ q.Ordered) :
    (r.times t.length q).Reads t (l ^ q.min) := by
  have hspread : (q.max?.map (· - q.min)).getD (t.length + 1) = 0 := by
    obtain ⟨m, hm, hlt⟩ := Quantifier.exists_max_lt_min hq
    rw [Option.mem_def.1 hm, Option.map_some, Option.getD_some]
    omega
  have htimes : r.times t.length q = ⟨Positions.rounds r.ends q.min⟩ := by
    refine congrArg Reader.mk (funext fun s => ?_)
    rw [Positions.repeated, hspread]
    rfl
  rw [htimes]
  exact h.rounds q.min

/-- A repeated reader reads a language, whatever the bounds are. -/
theorem Reads.exists_times (h : r.Reads t l) (q : Quantifier) :
    ∃ m, (r.times t.length q).Reads t m := by
  by_cases hq : q.Ordered
  · exact ⟨_, h.times hq⟩
  · exact ⟨_, h.times_of_not_ordered hq⟩

end Reader

section

variable (t : Text) (values : SymbolValues)

mutual

/-- Every element's reader reads a language. -/
theorem Element.exists_reads : ∀ e : Element,
    ∃ l, (e.reader (.ofText t) (values.map (Marks.ofText t).hopsOver)).Reads t l
  | .symbol i => ⟨_, Reader.reads_symbol i⟩
  | .literal c => ⟨_, Reader.reads_placesOf c⟩
  | .oneOf members => ⟨_, Reader.reads_hopsOverAtoms members⟩
  | .any => ⟨_, Reader.reads_printable⟩
  | .group p => Pattern.exists_reads p

/-- Every sequence's reader reads a language. -/
theorem Sequence.exists_reads : ∀ s : Sequence,
    ∃ l, (Sequence.reader (.ofText t) (values.map (Marks.ofText t).hopsOver) s).Reads t l
  | [] => ⟨_, Reader.reads_nothing⟩
  | ⟨q, e⟩ :: rest => by
    obtain ⟨l, hl⟩ := e.exists_reads
    obtain ⟨m, hm⟩ := hl.exists_times q
    obtain ⟨m', hm'⟩ := Sequence.exists_reads rest
    exact ⟨_, hm.andThen hm'⟩

/-- Every pattern's reader reads a language. -/
theorem Pattern.exists_reads : ∀ p : Pattern,
    ∃ l, (Pattern.reader (.ofText t) (values.map (Marks.ofText t).hopsOver) p).Reads t l
  | [] => ⟨_, Reader.reads_never⟩
  | s :: rest => by
    obtain ⟨l, hl⟩ := Sequence.exists_reads s
    obtain ⟨m, hm⟩ := Pattern.exists_reads rest
    exact ⟨_, hl.orElse hm⟩

end

end

/-! ## Agreement with a reader -/

namespace Offsets

/-- Whenever the step has a result at the offsets of positions in the text, it consists of the
offsets of the positions that the reader leads to. -/
def Agrees (t : Text) (step : Offsets → Option Offsets) (r : Reader) : Prop :=
  ∀ s, s.Within t.length → ∀ ends ∈ step (t.offsets s), ends = t.offsets (r.ends s)

variable {t : Text} {l : Language Char} {step : Offsets → Option Offsets}
  {way : ℕ → Option Offsets} {r : Reader}

/-- A loop over the starts agrees with a reader when from every position alone it leads, if it has a
result, to the offsets that the reader's language leads to. -/
theorem Agrees.of_endsAt (hr : r.Reads t l)
    (h : ∀ i ≤ t.length, ∀ ends ∈ way (t.offset i), t.EndsAt l i ends) :
    Agrees t (forEach? way) r := by
  intro s hs ends hends
  have hsome := isSome_forEach?_iff.1 (Option.isSome_of_eq_some hends)
  ext e
  rw [mem_iff_of_forEach? hends, Text.mem_offsets]
  constructor
  · rintro ⟨b, hb, found, hfound, he⟩
    obtain ⟨i, hi, hsi, rfl⟩ := Text.mem_offsets.1 hb
    obtain ⟨j, hij, rfl⟩ := (h i hi found hfound e).1 he
    exact ⟨j, hij.le_length, (hr s hs j).2 ⟨i, hsi, hij⟩, rfl⟩
  · rintro ⟨j, -, hj, rfl⟩
    obtain ⟨i, hsi, hij⟩ := (hr s hs j).1 hj
    have hb := (Text.offset_mem_offsets (hs i hsi)).2 hsi
    obtain ⟨found, hfound⟩ := Option.isSome_iff_exists.1 (hsome _ hb)
    exact ⟨_, hb, found, hfound, (h i (hs i hsi) found hfound _).2 ⟨j, hij, rfl⟩⟩

/-- A step that agrees with a reader leads from a single position, if it has a result, to the
offsets that the reader's language leads to. -/
theorem Agrees.endsAt (h : Agrees t step r) (hr : r.Reads t l) {i : ℕ} (hi : i ≤ t.length)
    {ends : Offsets} (hends : ends ∈ step {t.offset i}) : t.EndsAt l i ends := by
  rw [← Text.offsets_two_pow hi] at hends
  rw [h _ (Positions.within_two_pow hi) ends hends]
  exact Text.endsAt_two_pow hr hi

/-- A step that agrees with a reader stays within the text. -/
theorem Agrees.staysIn (h : Agrees t (forEach? way) r) : StaysIn t.boundaries way := by
  intro b hb found hfound
  obtain ⟨i, hi, rfl⟩ := Text.mem_boundaries.1 hb
  have hstep : found ∈ forEach? way (t.offsets (2 ^ i)) := by
    rw [Text.offsets_two_pow hi, forEach?_singleton]
    exact hfound
  rw [h _ (Positions.within_two_pow hi) found hstep]
  exact Text.offsets_subset_boundaries t _

/-- Taking a step `k` times agrees with using the reader `k` times. -/
theorem Agrees.iterate (h : Agrees t step r) (hr : r.Reads t l) (k : ℕ) :
    Agrees t (iterate? step k) ⟨r.ends^[k]⟩ := by
  induction k with
  | zero => intro s _ ends hends; exact (Option.mem_some_iff.1 hends).symm
  | succ k ih =>
    intro s hs ends hends
    obtain ⟨reached, hreached, hlast⟩ := Option.bind_eq_some_iff.1 hends
    obtain rfl := ih s hs reached hreached
    rw [h _ ((hr.iterate k).within hs) ends hlast]
    exact congrArg t.offsets (Function.iterate_succ_apply' r.ends k s).symm

/-- Repeating a step agrees with repeating the reader, also where the bounds run downwards. -/
theorem Agrees.repeated (h : Agrees t (forEach? way) r) (hr : r.Reads t l) (q : Quantifier) :
    Agrees t (repeated? (forEach? way) q) (r.times t.length q) := by
  intro s hs ends hends
  by_cases hq : q.Ordered
  · have hsome := (isSome_repeated?_iff hq h.staysIn (Text.offsets_subset_boundaries t s)).1
      (Option.isSome_of_eq_some hends)
    have hreached {k : ℕ} {reached : Offsets}
        (hk : reached ∈ iterate? (forEach? way) k (t.offsets s)) :
        reached = t.offsets (r.ends^[k] s) := h.iterate hr k s hs reached hk
    ext b
    simp only [mem_iff_of_repeated? hq hends, Text.mem_offsets, hr.has_times hq hs]
    constructor
    · rintro ⟨k, hk, reached, hiterate, hb⟩
      rw [hreached hiterate] at hb
      obtain ⟨j, hj, hhas, rfl⟩ := Text.mem_offsets.1 hb
      exact ⟨j, hj, ⟨k, hk, hhas⟩, rfl⟩
    · rintro ⟨j, hj, ⟨k, hk, hhas⟩, rfl⟩
      obtain ⟨reached, hiterate⟩ := Option.isSome_iff_exists.1 (hsome k hk)
      refine ⟨k, hk, reached, hiterate, ?_⟩
      rw [hreached hiterate]
      exact Text.mem_offsets.2 ⟨j, hj, hhas, rfl⟩
  · -- there is a result only if nothing is left after the least number of steps
    rw [repeated?, rounds?_eq_bind forEach?_empty, Option.mem_def, Option.bind_eq_some_iff] at hends
    obtain ⟨reached, hiterate, hlast⟩ := hends
    simp only [Quantifier.further?_of_not_ordered hq, Option.bind_eq_bind, Option.bind_none,
      Option.ite_none_right_eq_some, Option.some.injEq] at hlast
    obtain ⟨⟨-, hempty⟩, rfl⟩ := hlast
    have hiterated := h.iterate hr q.min s hs reached hiterate
    rw [← hempty, hiterated]
    exact congrArg t.offsets ((hr.iterate q.min).ends_eq (hr.times_of_not_ordered hq) hs)

end Offsets

/-! ## The parts of a pattern -/

/-- Matches an item at one of the given offsets. -/
noncomputable def Item.match? (values : SymbolValues) (t : Text) (it : Item) :
    Offsets → Option Offsets :=
  Offsets.repeated? (Offsets.forEach? (it.element.match? values t)) it.quantifier

section

variable (t : Text) (values : SymbolValues)

theorem Sequence.match?_cons (it : Item) (rest : Sequence) (s : Offsets) :
    Sequence.match? values t (it :: rest) s =
      if s = ∅ then some ∅ else (it.match? values t s).bind (Sequence.match? values t rest) := by
  obtain ⟨q, e⟩ := it
  rw [Sequence.match?]
  rfl

mutual

/-- Matching an element agrees with its reader. -/
theorem Element.agrees_reader : ∀ e : Element,
    Offsets.Agrees t (Offsets.forEach? (e.match? values t))
      (e.reader (.ofText t) (values.map (Marks.ofText t).hopsOver))
  | .symbol k => by
    refine Offsets.Agrees.of_endsAt (Reader.reads_symbol k) fun i hi ends hends => ?_
    rw [Element.match?, Text.fromByte?_offset_bind] at hends
    exact Atom.endsAt_of_match? hi hends
  | .literal c => by
    refine Offsets.Agrees.of_endsAt (Reader.reads_placesOf c) fun i hi ends hends => ?_
    rw [Element.match?, Text.fromByte?_offset_bind] at hends
    exact Atom.endsAt_of_match? (a := .literal c) hi hends
  | .oneOf members => by
    refine Offsets.Agrees.of_endsAt (Reader.reads_hopsOverAtoms members) fun i hi ends hends => ?_
    rw [Element.match?, Text.fromByte?_offset_bind] at hends
    exact Element.endsAt_of_match?_oneOf hi hends
  | .any => by
    refine Offsets.Agrees.of_endsAt Reader.reads_printable fun i hi ends hends => ?_
    rw [Element.match?, Text.fromByte?_offset_bind] at hends
    rw [← Option.some.inj hends]
    exact Element.endsAt_any values t i
  | .group p => by
    obtain ⟨l, hl⟩ := Pattern.exists_reads t values p
    refine Offsets.Agrees.of_endsAt hl fun i hi ends hends => ?_
    rw [Element.match?, Text.fromByte?_offset_bind] at hends
    exact (Pattern.agrees_reader p).endsAt hl hi hends

/-- Matching a sequence agrees with its reader. -/
theorem Sequence.agrees_reader : ∀ s : Sequence,
    Offsets.Agrees t (Sequence.match? values t s)
      (Sequence.reader (.ofText t) (values.map (Marks.ofText t).hopsOver) s)
  | [] => fun _ _ _ hends => (Option.some.inj hends).symm
  | ⟨q, e⟩ :: rest => by
    intro s hs ends hends
    rw [Sequence.match?_cons] at hends
    split at hends
    · next hempty =>
      -- nothing is read from no position
      obtain ⟨l, hl⟩ := Sequence.exists_reads t values (⟨q, e⟩ :: rest)
      rw [Text.offsets_eq_empty_iff hs] at hempty
      rw [hempty, hl.ends_zero, Text.offsets_zero]
      exact (Option.some.inj hends).symm
    · obtain ⟨l, hl⟩ := e.exists_reads t values
      obtain ⟨m, hm⟩ := hl.exists_times q
      obtain ⟨reached, hreached, hlast⟩ := Option.bind_eq_some_iff.1 hends
      obtain rfl := (e.agrees_reader).repeated hl q s hs reached hreached
      exact Sequence.agrees_reader rest _ (hm.within hs) ends hlast

/-- Matching a pattern agrees with its reader. -/
theorem Pattern.agrees_reader : ∀ p : Pattern,
    Offsets.Agrees t (Pattern.match? values t p)
      (Pattern.reader (.ofText t) (values.map (Marks.ofText t).hopsOver) p)
  | [] => fun _ _ _ hends => (Option.some.inj hends).symm.trans Text.offsets_zero.symm
  | s :: rest => by
    intro starts hstarts ends hends
    rw [Pattern.match?] at hends
    obtain ⟨first, hfirst, hends⟩ := Option.bind_eq_some_iff.1 hends
    obtain ⟨others, hothers, hends⟩ := Option.bind_eq_some_iff.1 hends
    obtain rfl := Sequence.agrees_reader s starts hstarts first hfirst
    obtain rfl := Pattern.agrees_reader rest starts hstarts others hothers
    exact (Option.some.inj hends).symm.trans Text.offsets_or.symm

end

mutual

/-- Matching a well-formed element at a boundary has a result. -/
theorem Element.isSome_match? : ∀ e : Element, e.WellFormed values.length →
    ∀ b ∈ t.boundaries, (e.match? values t b).isSome
  | .symbol k, h, b, hb => by
    obtain ⟨i, -, rfl⟩ := Text.mem_boundaries.1 hb
    rw [Element.match?, Text.fromByte?_offset_bind]
    exact (Atom.isSome_match?_iff (a := .symbol k)).2 h
  | .literal c, _, b, hb => by
    obtain ⟨i, -, rfl⟩ := Text.mem_boundaries.1 hb
    rw [Element.match?, Text.fromByte?_offset_bind]
    rfl
  | .oneOf members, h, b, hb => by
    obtain ⟨i, -, rfl⟩ := Text.mem_boundaries.1 hb
    rw [Element.match?, Text.fromByte?_offset_bind]
    exact Offsets.isSome_unionOver?_iff.2 fun a ha => Atom.isSome_match?_iff.2 (h.2.2 a ha)
  | .any, _, b, hb => by
    obtain ⟨i, -, rfl⟩ := Text.mem_boundaries.1 hb
    rw [Element.match?, Text.fromByte?_offset_bind]
    rfl
  | .group p, h, b, hb => by
    obtain ⟨i, -, rfl⟩ := Text.mem_boundaries.1 hb
    rw [Element.match?, Text.fromByte?_offset_bind]
    exact Pattern.isSome_match? p h.2 (Finset.singleton_subset_iff.2 hb)

/-- Matching a well-formed sequence at boundaries has a result. -/
theorem Sequence.isSome_match? : ∀ s : Sequence, Sequence.WellFormed values.length s →
    ∀ {starts : Offsets}, starts ⊆ t.boundaries → (Sequence.match? values t s starts).isSome
  | [], _, _, _ => rfl
  | ⟨q, e⟩ :: rest, h, starts, hstarts => by
    rw [Sequence.match?_cons]
    split
    · rfl
    · obtain ⟨reached, hreached, hsub⟩ :=
        (e.agrees_reader t values).staysIn.exists_repeated? (e.isSome_match? h.1.2) h.1.1 hstarts
      rw [Item.match?, hreached, Option.bind_some]
      exact Sequence.isSome_match? rest h.2 hsub

/-- Matching a well-formed pattern at boundaries has a result. -/
theorem Pattern.isSome_match? : ∀ p : Pattern, Pattern.AlternativesWellFormed values.length p →
    ∀ {starts : Offsets}, starts ⊆ t.boundaries → (Pattern.match? values t p starts).isSome
  | [], _, _, _ => rfl
  | s :: rest, h, starts, hstarts => by
    obtain ⟨first, hfirst⟩ := Option.isSome_iff_exists.1 (Sequence.isSome_match? s h.1 hstarts)
    obtain ⟨others, hothers⟩ := Option.isSome_iff_exists.1 (Pattern.isSome_match? rest h.2 hstarts)
    rw [Pattern.match?, hfirst, hothers]
    rfl

end

end

/-- For a well-formed pattern the matcher on offsets has a result, the one of the matcher on
positions. -/
theorem Pattern.accepts?_eq {p : Pattern} {values : SymbolValues} (h : p.WellFormed values.length)
    (t : Text) : p.accepts? values t = some (p.accepts values t) := by
  have hstart := Text.offsets_subset_boundaries t .start
  obtain ⟨ends, hends⟩ := Option.isSome_iff_exists.1 (Pattern.isSome_match? t values p h.2 hstart)
  have hreader := Pattern.agrees_reader t values p _ (Positions.within_start _) ends hends
  rw [Text.offsets_start] at hends
  rw [Pattern.accepts?, hends, hreader, Option.map_some, Option.some.injEq, ← Bool.coe_iff_coe,
    decide_eq_true_iff, ← Text.offset_length, Text.offset_mem_offsets le_rfl]
  rfl

/-- A symbol without values fails, and so do bounds that run downwards. -/
example : Pattern.accepts? [[⟨.once, .symbol 0⟩]] [] [] = none ∧
    Pattern.accepts? [[⟨.between 2 1, .literal 'a'⟩]] [] ['a', 'a'] = none := by
  constructor <;> cbv

/-! ## Items -/

/-- Whatever its element is, an item leads to the union of what the allowed numbers of repetitions
lead to, and fails only where one of these fails.  The loop after the least number of repetitions
makes no more rounds than the text has bytes and one more, since every round but the last one adds
an offset. -/
theorem Item.match?_unites_repetitions {it : Item} (hq : it.quantifier.Ordered)
    (values : SymbolValues) {t : Text} {starts : Offsets} (hstarts : starts ⊆ t.boundaries) :
    let step := Offsets.forEach? (it.element.match? values t)
    let limit := it.quantifier.max?.map (· - it.quantifier.min)
    ((it.match? values t starts).isSome ↔
      ∀ k, it.quantifier.Allows k → (Offsets.iterate? step k starts).isSome) ∧
    (it.element.WellFormed values.length → (it.match? values t starts).isSome) ∧
    (∀ ends ∈ it.match? values t starts,
      (∀ b, b ∈ ends ↔ ∃ k, it.quantifier.Allows k ∧
        ∃ reached ∈ Offsets.iterate? step k starts, b ∈ reached) ∧
      (∃ first ∈ Offsets.iterate? step it.quantifier.min starts, ∃ last,
        Offsets.Visits step limit first last ∧ Offsets.Stops step limit last ends) ∧
      ∃ s : Positions, s.Within t.length ∧ t.offsets s = starts ∧
        ends = t.offsets (((it.element.reader (.ofText t)
          (values.map (Marks.ofText t).hopsOver)).times t.length it.quantifier).ends s)) ∧
    ∀ first ∈ Offsets.iterate? step it.quantifier.min starts, ∀ state,
      Offsets.Visits step limit first state →
        state.1 ≤ t.byteSize + 1 ∧
        ∀ next after, Offsets.Round step limit state next → Offsets.Round step limit next after →
          state.2.1 ⊂ next.2.1 := by
  intro step limit
  have hagrees := it.element.agrees_reader t values
  have hstays := hagrees.staysIn
  refine ⟨Offsets.isSome_repeated?_iff hq hstays hstarts, fun hwf => ?_, fun ends hends => ?_,
    fun first hfirst state hvisits => ?_⟩
  · obtain ⟨ends, hends, -⟩ :=
      hstays.exists_repeated? (it.element.isSome_match? t values hwf) hq hstarts
    exact Option.isSome_of_eq_some hends
  · refine ⟨fun b => Offsets.mem_iff_of_repeated? hq hends, ?_, ?_⟩
    · have hloop := hends
      rw [Item.match?, Offsets.repeated?_of_ordered hq] at hloop
      obtain ⟨first, hfirst, hspread⟩ := Option.bind_eq_some_iff.1 hloop
      exact ⟨first, hfirst, Offsets.exists_visits_of_spread? hspread⟩
    · obtain ⟨s, hs, rfl⟩ := Text.exists_offsets_eq hstarts
      obtain ⟨l, hl⟩ := it.element.exists_reads t values
      exact ⟨s, hs, rfl, hagrees.repeated hl it.quantifier s hs ends hends⟩
  · have hcount := (Offsets.progress_of_visits hvisits).count_le hstays
      (hstays.iterate?_subset hstarts hfirst)
    exact ⟨hcount.trans t.card_boundaries_le, fun next after => Offsets.ssubset_of_rounds⟩

/-- A repeated group that can match nothing, on characters of two bytes: some number of repetitions
leads to offset 4, and there are at most six rounds. -/
theorem Item.match?_unites_repetitions_nullable :
    let it : Item := ⟨.zeroOrMore, .group [[⟨.optional, .symbol 0⟩]]⟩
    let t : Text := ['é', 'é', 'x']
    let step := Offsets.forEach? (it.element.match? [[['é']]] t)
    it.quantifier.Ordered ∧ {0} ⊆ t.boundaries ∧ it.match? [[['é']]] t {0} = some {0, 2, 4} ∧
      (∃ k, ∃ reached ∈ Offsets.iterate? step k {0}, 4 ∈ reached) ∧
      ∀ state, Offsets.Visits step none {0} state → state.1 ≤ 6 := by
  intro it t step
  have hordered : it.quantifier.Ordered := nofun
  have hoptional : Quantifier.optional.Ordered := by simp [Quantifier.Ordered, Quantifier.min]
  have hstart : {0} ⊆ t.boundaries := by decide
  obtain ⟨-, hwf, hresult, hrounds⟩ :=
    Item.match?_unites_repetitions hordered [[['é']]] hstart
  obtain ⟨ends, hends⟩ := Option.isSome_iff_exists.1
    (hwf ⟨List.cons_ne_nil _ _, ⟨⟨hoptional, Nat.zero_lt_one⟩, trivial⟩, trivial⟩)
  obtain ⟨hunion, -, s, hs, hstarts, hreader⟩ := hresult ends hends
  rw [← Text.offsets_start, Text.offsets_inj hs (Positions.within_start _)] at hstarts
  subst hstarts
  have hhops : [[['é']]].map (Marks.ofText t).hopsOver = [[(1, 3)]] := by cbv
  have heq : ends = {0, 2, 4} := by
    rw [hreader, hhops]
    decide
  subst heq
  obtain ⟨k, -, hk⟩ := (hunion 4).1 (by decide)
  exact ⟨hordered, hstart, hends, ⟨k, hk⟩, fun state hstate => (hrounds {0} rfl state hstate).1⟩

end Confection
