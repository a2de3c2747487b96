import Mathlib.Logic.Relation
import Confection.Proofs.Checked.Matching

/-!
# The rounds of a repetition

A repetition takes its least number of steps with all offsets together and then goes on in rounds.
A round starts only from the frontier, the offsets that the round before it reached for the first
time, and the rounds are counted for all offsets together.  Nothing in the loop bounds their number
when the repetition has no limit.

This is nonetheless the union, over all numbers of steps that the quantifier allows, of what so many
steps lead to (`mem_iff_of_repeated?`), and the repetition fails only where one of these fails
(`isSome_repeated?_iff`).  All that is asked of the step is that it goes from offset to offset and
never leaves some finite set.

## Shape of the proof

`Progress` is the invariant between two rounds: after `count` rounds the offsets reached are those
that up to `count` steps lead to, and all of them outside the frontier have been expanded.  So an
offset is never expanded later than it has to be, since it lies in the frontier right after the
smallest number of steps that lead to it.  `Progress.round` keeps the invariant in one round,
`progress_of_visits` in a run of them.

A round that is followed by another one has added an offset (`ssubset_of_rounds`), so in a finite set
the rounds come to an end (`Progress.count_le`), and the loop has a result
(`Progress.isSome_spread?`).
-/

namespace Confection.Offsets

/-! ## A number of steps -/

/-- Takes a step `k` times, one after the other. -/
def iterate? (step : Offsets → Option Offsets) : ℕ → Offsets → Option Offsets
  | 0, s => some s
  | k + 1, s => (iterate? step k s).bind step

/-- Does the way lead from the offsets of the set only to offsets of the set? -/
def StaysIn (s : Offsets) (way : ℕ → Option Offsets) : Prop := ∀ b ∈ s, ∀ found ∈ way b, found ⊆ s

section

variable {step : Offsets → Option Offsets} {s ends : Offsets}

theorem iterate?_add (m n : ℕ) :
    iterate? step (m + n) s = (iterate? step m s).bind (iterate? step n) := by
  induction n with
  | zero => simp [iterate?]
  | succ n ih =>
    rw [Nat.add_succ, iterate?, ih, Option.bind_assoc]
    rfl

variable {way : ℕ → Option Offsets} {all : Offsets}

theorem StaysIn.iterate?_subset (hway : StaysIn all way) (hs : s ⊆ all) {k : ℕ}
    (h : iterate? (forEach? way) k s = some ends) : ends ⊆ all := by
  induction k generalizing ends with
  | zero => cases h; exact hs
  | succ k ih =>
    obtain ⟨reached, hreached, hlast⟩ := Option.bind_eq_some_iff.1 h
    intro e he
    obtain ⟨b, hb, found, hfound, hefound⟩ := (mem_iff_of_forEach? hlast).1 he
    exact hway b (ih hreached hb) found hfound hefound

/-- One step more leads into a set if the way leads there from all offsets of a result. -/
theorem exists_iterate?_succ {k : ℕ} {reached : Offsets}
    (hreached : reached ∈ iterate? (forEach? way) k s)
    (h : ∀ b ∈ reached, ∃ found ∈ way b, found ⊆ all) :
    ∃ ends ∈ iterate? (forEach? way) (k + 1) s, ends ⊆ all := by
  have hsome : ∀ b ∈ reached, (way b).isSome := by
    intro b hb
    obtain ⟨found, hfound, -⟩ := h b hb
    exact Option.isSome_of_eq_some hfound
  obtain ⟨ends, hends⟩ := Option.isSome_iff_exists.1 (isSome_forEach?_iff.2 hsome)
  refine ⟨ends, Option.bind_eq_some_iff.2 ⟨reached, hreached, hends⟩, fun e he => ?_⟩
  obtain ⟨b, hb, found, hfound, hefound⟩ := (mem_iff_of_forEach? hends).1 he
  obtain ⟨found', hfound', hsub⟩ := h b hb
  rw [Option.mem_unique hfound hfound'] at hefound
  exact hsub hefound

/-- One step more leads from an offset of a result to what the way leads to from there. -/
theorem mem_iterate?_succ {k b e : ℕ} {found reached : Offsets}
    (hreached : reached ∈ iterate? (forEach? way) k s) (hb : b ∈ reached) (hfound : found ∈ way b)
    (he : e ∈ found) (h : ends ∈ iterate? (forEach? way) (k + 1) s) : e ∈ ends := by
  obtain ⟨reached', hreached', hlast⟩ := Option.bind_eq_some_iff.1 h
  rw [Option.mem_unique hreached hreached'] at hb
  exact (mem_iff_of_forEach? hlast).2 ⟨b, hb, found, hfound, he⟩

/-- Steps from offsets from which the way always has a result have one. -/
theorem StaysIn.isSome_iterate? (hway : StaysIn all way) (hsome : ∀ b ∈ all, (way b).isSome)
    (hs : s ⊆ all) (k : ℕ) : (iterate? (forEach? way) k s).isSome := by
  induction k with
  | zero => rfl
  | succ k ih =>
    obtain ⟨reached, hreached⟩ := Option.isSome_iff_exists.1 ih
    rw [iterate?, hreached, Option.bind_some, isSome_forEach?_iff]
    exact fun b hb => hsome b (hway.iterate?_subset hs hreached hb)

end

/-! ## The states of the loop -/

section

variable (step : Offsets → Option Offsets) (limit : Option ℕ)

/-- From the first state the loop goes on with the second one. -/
def Round (a b : ℕ × Offsets × Offsets) : Prop := .inr b ∈ round? step limit a

/-- In this state the loop stops, with this result. -/
def Stops (a : ℕ × Offsets × Offsets) (ends : Offsets) : Prop := .inl ends ∈ round? step limit a

/-- The loop that starts with what was reached first gets to the state. -/
def Visits (first : Offsets) : ℕ × Offsets × Offsets → Prop :=
  Relation.ReflTransGen (Round step limit) (0, first, first)

end

section

variable {step : Offsets → Option Offsets} {limit : Option ℕ} {count : ℕ}
  {first reached frontier ends : Offsets}

/-- The loop goes on when it does not stop and the step from the frontier has a result. -/
theorem round_iff {b : ℕ × Offsets × Offsets} : Round step limit (count, reached, frontier) b ↔
    ¬ (frontier = ∅ ∨ ¬ limit.all (count < ·)) ∧
      ∃ next, step frontier = some next ∧
        b = (count + 1, reached ∪ next \ reached, next \ reached) := by
  unfold Round round?
  dsimp only
  split
  · next h => exact iff_of_false (by simp) fun hround => hround.1 h
  · next h =>
    rw [and_iff_right h]
    simp only [Part.mem_map_iff, Part.mem_ofOption, Option.mem_def, Sum.inr.injEq, eq_comm]

/-- The loop stops for an empty frontier or after the last round allowed, with what has been
reached. -/
theorem stops_iff : Stops step limit (count, reached, frontier) ends ↔
    (frontier = ∅ ∨ ¬ limit.all (count < ·)) ∧ ends = reached := by
  unfold Stops round?
  dsimp only
  split
  · next h => rw [and_iff_right h, Part.mem_some_iff, Sum.inl.injEq]
  · next h => exact iff_of_false (by simp) fun hstops => h hstops.1

open Classical in
theorem spread?_of_stops (h : Stops step limit (count, reached, frontier) ends) :
    spread? step limit count reached frontier = some ends := by
  rw [spread?, Part.toOption_eq_some_iff]
  exact PFun.fix_stop h

theorem spread?_of_round {b : ℕ × Offsets × Offsets}
    (h : Round step limit (count, reached, frontier) b) :
    spread? step limit count reached frontier = spread? step limit b.1 b.2.1 b.2.2 := by
  rw [spread?, spread?, PFun.fix_fwd_eq h]

open Classical in
/-- A loop that has a result gets to a state in which it stops with that result. -/
theorem exists_visits_of_spread? (h : spread? step limit 0 first first = some ends) :
    ∃ last, Visits step limit first last ∧ Stops step limit last ends := by
  rw [spread?, Part.toOption_eq_some_iff] at h
  refine PFun.fixInduction' (C := fun a => ∃ last, Relation.ReflTransGen (Round step limit) a last ∧
    Stops step limit last ends) h (fun last hstops => ⟨last, .refl, hstops⟩) ?_
  rintro a b - hround ⟨last, hrounds, hstops⟩
  exact ⟨last, .head hround hrounds, hstops⟩

end

/-! ## The invariant -/

/-- What holds between two rounds, when `first` was reached before the first of them. -/
structure Progress (way : ℕ → Option Offsets) (limit : Option ℕ) (first : Offsets) (count : ℕ)
    (reached frontier : Offsets) : Prop where
  limited : ∀ m ∈ limit, count ≤ m
  frontier_subset : frontier ⊆ reached
  expanded : ∀ b ∈ reached, b ∉ frontier → ∃ found ∈ way b, found ⊆ reached
  covers : ∀ k ≤ count, ∃ ends ∈ iterate? (forEach? way) k first, ends ⊆ reached
  covered : ∀ b ∈ reached, ∃ k ≤ count, ∃ ends ∈ iterate? (forEach? way) k first, b ∈ ends
  count_le_card : count ≤ reached.card
  count_lt_card : frontier.Nonempty → count < reached.card

section

variable {way : ℕ → Option Offsets} {limit : Option ℕ} {first : Offsets} {count : ℕ}
  {reached frontier : Offsets}

theorem progress_first : Progress way limit first 0 first first where
  limited _ _ := Nat.zero_le _
  frontier_subset := Finset.Subset.refl _
  expanded _ hb hnot := absurd hb hnot
  covers k hk := by
    obtain rfl := Nat.le_zero.1 hk
    exact ⟨first, rfl, Finset.Subset.refl _⟩
  covered _ hb := ⟨0, le_rfl, first, rfl, hb⟩
  count_le_card := Nat.zero_le _
  count_lt_card := Finset.card_pos.2

section

variable (h : Progress way limit first count reached frontier) {next : Offsets}
  (hnext : forEach? way frontier = some next)

include h hnext

/-- A round expands what was left to be expanded. -/
theorem Progress.exists_found {b : ℕ} (hb : b ∈ reached) :
    ∃ found ∈ way b, found ⊆ reached ∪ next := by
  by_cases hbf : b ∈ frontier
  · have hsome := isSome_forEach?_iff.1 (Option.isSome_of_eq_some hnext)
    obtain ⟨found, hfound⟩ := Option.isSome_iff_exists.1 (hsome b hbf)
    refine ⟨found, hfound, fun e he => Finset.mem_union_right _ ?_⟩
    exact (mem_iff_of_forEach? hnext).2 ⟨b, hbf, found, hfound, he⟩
  · obtain ⟨found, hfound, hsub⟩ := h.expanded b hb hbf
    exact ⟨found, hfound, hsub.trans Finset.subset_union_left⟩

/-- After a round one step more leads to what has been reached. -/
theorem Progress.covers_round {k : ℕ} (hk : k ≤ count + 1) :
    ∃ ends ∈ iterate? (forEach? way) k first, ends ⊆ reached ∪ next := by
  obtain hk | rfl := Nat.le_succ_iff.1 hk
  · obtain ⟨ends, hends, hsub⟩ := h.covers k hk
    exact ⟨ends, hends, hsub.trans Finset.subset_union_left⟩
  · obtain ⟨ends, hends, hsub⟩ := h.covers count le_rfl
    exact exists_iterate?_succ hends fun b hb => h.exists_found hnext (hsub hb)

/-- What a round reaches is one step behind the frontier. -/
theorem Progress.covered_round {e : ℕ} (he : e ∈ reached ∪ next) :
    ∃ k ≤ count + 1, ∃ ends ∈ iterate? (forEach? way) k first, e ∈ ends := by
  rcases Finset.mem_union.1 he with he | he
  · obtain ⟨k, hk, ends, hends, hmem⟩ := h.covered e he
    exact ⟨k, Nat.le_succ_of_le hk, ends, hends, hmem⟩
  · obtain ⟨b, hb, found, hfound, hefound⟩ := (mem_iff_of_forEach? hnext).1 he
    obtain ⟨k, hk, ends, hends, hmem⟩ := h.covered b (h.frontier_subset hb)
    obtain ⟨ends', hends', -⟩ := h.covers_round hnext (Nat.succ_le_succ hk)
    exact ⟨k + 1, Nat.succ_le_succ hk, ends', hends',
      mem_iterate?_succ hends hmem hfound hefound hends'⟩

end

/-- A round keeps the invariant. -/
theorem Progress.round (h : Progress way limit first count reached frontier)
    {count' : ℕ} {reached' frontier' : Offsets}
    (hround : Round (forEach? way) limit (count, reached, frontier) (count', reached', frontier')) :
    Progress way limit first count' reached' frontier' := by
  obtain ⟨hgoes, next, hnext, heq⟩ := round_iff.1 hround
  simp only [Prod.mk.injEq] at heq
  obtain ⟨rfl, rfl, rfl⟩ := heq
  rw [not_or, not_not, ← Ne, ← Finset.nonempty_iff_ne_empty] at hgoes
  obtain ⟨hfrontier, hcount⟩ := hgoes
  have hlt := h.count_lt_card hfrontier
  exact {
    limited := fun m hm => by
      rw [Option.mem_def.1 hm] at hcount
      exact of_decide_eq_true hcount
    frontier_subset := Finset.subset_union_right
    expanded := fun b hb hnot => by
      rw [Finset.union_sdiff_self_eq_union]
      exact h.exists_found hnext ((Finset.mem_union.1 hb).resolve_right hnot)
    covers := fun k hk => by
      rw [Finset.union_sdiff_self_eq_union]
      exact h.covers_round hnext hk
    covered := fun e he => by
      rw [Finset.union_sdiff_self_eq_union] at he
      exact h.covered_round hnext he
    count_le_card := Nat.succ_le_of_lt (hlt.trans_le (Finset.card_le_card Finset.subset_union_left))
    count_lt_card := fun hne => by
      have hpos := Finset.card_pos.2 hne
      rw [Finset.card_union_of_disjoint Finset.disjoint_sdiff]
      omega }

/-- The invariant holds in all states that the loop goes through. -/
theorem progress_of_visits {state : ℕ × Offsets × Offsets}
    (h : Visits (forEach? way) limit first state) :
    Progress way limit first state.1 state.2.1 state.2.2 := by
  induction h with
  | refl => exact progress_first
  | tail _ hround ih => exact ih.round hround

/-- Whatever number of steps is allowed, they lead to offsets that are reached when the loop
stops. -/
theorem Progress.exists_iterate? (h : Progress way limit first count reached frontier)
    (hstops : frontier = ∅ ∨ ¬ limit.all (count < ·)) {k : ℕ} (hk : ∀ m ∈ limit, k ≤ m) :
    ∃ ends ∈ iterate? (forEach? way) k first, ends ⊆ reached := by
  rcases hstops with rfl | hstops
  · -- what is reached is closed under steps
    induction k with
    | zero => exact h.covers 0 (Nat.zero_le _)
    | succ k ih =>
      obtain ⟨ends, hends, hsub⟩ := ih fun m hm => Nat.le_of_succ_le (hk m hm)
      exact exists_iterate?_succ hends fun b hb => h.expanded b (hsub hb) (Finset.notMem_empty b)
  · -- as many rounds have been made as are allowed
    refine h.covers k ?_
    cases limit with
    | none => exact absurd rfl hstops
    | some m =>
      have hm := hk m rfl
      simp only [Option.all_some, decide_eq_true_eq] at hstops
      omega

end

/-! ## The end of the loop -/

section

variable {way : ℕ → Option Offsets} {all : Offsets} {limit : Option ℕ} {first : Offsets}
  {count : ℕ} {reached frontier ends : Offsets}

theorem Progress.reached_subset (h : Progress way limit first count reached frontier)
    (hway : StaysIn all way) (hfirst : first ⊆ all) : reached ⊆ all := by
  intro b hb
  obtain ⟨k, -, ends, hends, hmem⟩ := h.covered b hb
  exact hway.iterate?_subset hfirst hends hmem

/-- There are no more rounds than offsets. -/
theorem Progress.count_le (h : Progress way limit first count reached frontier)
    (hway : StaysIn all way) (hfirst : first ⊆ all) : count ≤ all.card :=
  h.count_le_card.trans (Finset.card_le_card (h.reached_subset hway hfirst))

/-- A round that is followed by another one has added an offset. -/
theorem ssubset_of_rounds {step : Offsets → Option Offsets} {a b c : ℕ × Offsets × Offsets}
    (hab : Round step limit a b) (hbc : Round step limit b c) : a.2.1 ⊂ b.2.1 := by
  obtain ⟨-, next, -, rfl⟩ := round_iff.1 hab
  obtain ⟨hgoes, -⟩ := round_iff.1 hbc
  obtain ⟨e, he⟩ := Finset.nonempty_iff_ne_empty.2 (not_or.1 hgoes).1
  refine Finset.ssubset_iff_subset_ne.2 ⟨Finset.subset_union_left, fun heq => ?_⟩
  exact (Finset.mem_sdiff.1 he).2 (heq ▸ Finset.mem_union_right _ he)

/-- If the allowed numbers of steps have results, so has the step from the frontier while more
rounds are allowed. -/
theorem Progress.isSome_forEach? (h : Progress way limit first count reached frontier)
    (hsome : ∀ k, (∀ m ∈ limit, k ≤ m) → (iterate? (forEach? way) k first).isSome)
    (hcount : limit.all (count < ·)) : (forEach? way frontier).isSome := by
  rw [isSome_forEach?_iff]
  intro b hb
  obtain ⟨k, hk, ends, hends, hmem⟩ := h.covered b (h.frontier_subset hb)
  have hallowed : ∀ m ∈ limit, k + 1 ≤ m := by
    intro m hm
    rw [Option.mem_def.1 hm] at hcount
    have hlt : count < m := of_decide_eq_true hcount
    omega
  have hnext := hsome (k + 1) hallowed
  rw [iterate?, hends, Option.bind_some, isSome_forEach?_iff] at hnext
  exact hnext b hmem

/-- If the allowed numbers of steps have results, so has the loop, also without a limit. -/
theorem Progress.isSome_spread? (h : Progress way limit first count reached frontier)
    (hway : StaysIn all way) (hfirst : first ⊆ all)
    (hsome : ∀ k, (∀ m ∈ limit, k ≤ m) → (iterate? (forEach? way) k first).isSome) :
    (spread? (forEach? way) limit count reached frontier).isSome := by
  -- no more rounds are made than there are offsets, so fewer and fewer are left
  induction hleft : all.card - count generalizing count reached frontier with
  | zero =>
    by_cases hstops : frontier = ∅ ∨ ¬ limit.all (count < ·)
    · rw [spread?_of_stops (stops_iff.2 ⟨hstops, rfl⟩)]
      rfl
    · have hlt := h.count_lt_card (Finset.nonempty_iff_ne_empty.2 (not_or.1 hstops).1)
      have hle := Finset.card_le_card (h.reached_subset hway hfirst)
      omega
  | succ n ih =>
    by_cases hstops : frontier = ∅ ∨ ¬ limit.all (count < ·)
    · rw [spread?_of_stops (stops_iff.2 ⟨hstops, rfl⟩)]
      rfl
    · have hcount := not_not.1 (not_or.1 hstops).2
      obtain ⟨next, hnext⟩ := Option.isSome_iff_exists.1 (h.isSome_forEach? hsome hcount)
      have hround : Round (forEach? way) limit (count, reached, frontier)
          (count + 1, reached ∪ next \ reached, next \ reached) :=
        round_iff.2 ⟨hstops, next, hnext, rfl⟩
      rw [spread?_of_round hround]
      exact ih (h.round hround) (by omega)

/-- A loop that has a result has stopped with it. -/
theorem exists_progress_of_spread? (h : spread? (forEach? way) limit 0 first first = some ends) :
    ∃ count frontier, Progress way limit first count ends frontier ∧
      (frontier = ∅ ∨ ¬ limit.all (count < ·)) := by
  obtain ⟨⟨count, reached, frontier⟩, hvisits, hlast⟩ := exists_visits_of_spread? h
  obtain ⟨hstops, rfl⟩ := stops_iff.1 hlast
  exact ⟨count, frontier, progress_of_visits hvisits, hstops⟩

/-- The loop has a result exactly if all allowed numbers of steps have one. -/
theorem isSome_spread?_iff (hway : StaysIn all way) (hfirst : first ⊆ all) :
    (spread? (forEach? way) limit 0 first first).isSome ↔
      ∀ k, (∀ m ∈ limit, k ≤ m) → (iterate? (forEach? way) k first).isSome := by
  refine ⟨fun h k hk => ?_, progress_first.isSome_spread? hway hfirst⟩
  obtain ⟨ends, hends⟩ := Option.isSome_iff_exists.1 h
  obtain ⟨count, frontier, hprogress, hstops⟩ := exists_progress_of_spread? hends
  obtain ⟨reached, hreached, -⟩ := hprogress.exists_iterate? hstops hk
  exact Option.isSome_of_eq_some hreached

/-- The loop reaches what the allowed numbers of steps lead to. -/
theorem mem_iff_of_spread? (h : spread? (forEach? way) limit 0 first first = some ends) {b : ℕ} :
    b ∈ ends ↔ ∃ k, (∀ m ∈ limit, k ≤ m) ∧
      ∃ reached ∈ iterate? (forEach? way) k first, b ∈ reached := by
  obtain ⟨count, frontier, hprogress, hstops⟩ := exists_progress_of_spread? h
  constructor
  · intro hb
    obtain ⟨k, hk, reached, hreached, hmem⟩ := hprogress.covered b hb
    exact ⟨k, fun m hm => hk.trans (hprogress.limited m hm), reached, hreached, hmem⟩
  · rintro ⟨k, hk, reached, hreached, hmem⟩
    obtain ⟨reached', hreached', hsub⟩ := hprogress.exists_iterate? hstops hk
    rw [Option.mem_unique hreached hreached'] at hmem
    exact hsub hmem

end

/-! ## Repetition -/

section

variable {step next : Offsets → Option Offsets}

theorem iterate?_empty (hstep : step ∅ = some ∅) (k : ℕ) : iterate? step k ∅ = some ∅ := by
  induction k with
  | zero => rfl
  | succ k ih => rw [iterate?, ih, Option.bind_some, hstep]

/-- What follows a number of steps follows their result, unless nothing is left to go on from. -/
theorem rounds?_eq_bind (hstep : step ∅ = some ∅) (n : ℕ) (s : Offsets) :
    rounds? step next n s =
      (iterate? step n s).bind fun reached =>
        if n ≠ 0 ∧ reached = ∅ then some ∅ else next reached := by
  induction n generalizing s with
  | zero => simp [rounds?, iterate?]
  | succ n ih =>
    have hhead : iterate? step (n + 1) s = (step s).bind (iterate? step n) := by
      rw [Nat.add_comm, iterate?_add]
      rfl
    rw [hhead, rounds?]
    cases step s with
    | none => rfl
    | some s' =>
      rw [Option.bind_eq_bind, Option.bind_some, Option.bind_some]
      split
      · next hempty => simp [hempty, iterate?_empty hstep]
      · next hne =>
        rw [ih]
        cases n with
        | zero => simp [iterate?, hne]
        | succ n => simp

end

end Confection.Offsets

namespace Confection.Quantifier

variable {q : Quantifier}

theorem further?_of_ordered (hq : q.Ordered) : q.further? = some (q.max?.map (· - q.min)) := by
  unfold further?
  cases hmax : q.max? with
  | none => rfl
  | some m => exact if_pos (hq m hmax)

/-- Bounds run downwards only towards a greatest number of repetitions. -/
theorem exists_max_lt_min (hq : ¬ q.Ordered) : ∃ m ∈ q.max?, m < q.min := by
  simpa [Ordered] using hq

theorem further?_of_not_ordered (hq : ¬ q.Ordered) : q.further? = none := by
  obtain ⟨m, hm, hlt⟩ := exists_max_lt_min hq
  rw [further?, Option.mem_def.1 hm]
  exact if_neg (Nat.not_le.2 hlt)

/-- What is allowed is the least number of repetitions and then as many more as remain to the
greatest. -/
theorem allows_iff (hq : q.Ordered) {k : ℕ} :
    q.Allows k ↔ ∃ n, (∀ m ∈ q.max?.map (· - q.min), n ≤ m) ∧ q.min + n = k := by
  unfold Allows
  constructor
  · rintro ⟨hmin, hmax⟩
    refine ⟨k - q.min, fun m hm => ?_, Nat.add_sub_of_le hmin⟩
    obtain ⟨m', hm', rfl⟩ := Option.map_eq_some_iff.1 hm
    exact Nat.sub_le_sub_right (hmax m' hm') _
  · rintro ⟨n, hn, rfl⟩
    refine ⟨Nat.le_add_right _ _, fun m hm => ?_⟩
    have hle := hn (m - q.min) (Option.map_eq_some_iff.2 ⟨m, hm, rfl⟩)
    have := hq m hm
    omega

end Confection.Quantifier

namespace Confection.Offsets

section

variable {way : ℕ → Option Offsets} {all starts ends : Offsets} {q : Quantifier}

/-- A repetition goes on with the loop after its least number of steps. -/
theorem repeated?_of_ordered (hq : q.Ordered) :
    repeated? (forEach? way) q starts = (iterate? (forEach? way) q.min starts).bind fun first =>
      spread? (forEach? way) (q.max?.map (· - q.min)) 0 first first := by
  rw [repeated?, rounds?_eq_bind forEach?_empty]
  refine congrArg _ (funext fun first => ?_)
  rw [Quantifier.further?_of_ordered hq, Option.bind_eq_bind, Option.bind_some]
  split
  · next hempty =>
    rw [hempty.2]
    exact (spread?_of_stops (stops_iff.2 ⟨Or.inl rfl, rfl⟩)).symm
  · rfl

/-- A repetition has a result exactly if all allowed numbers of steps have one. -/
theorem isSome_repeated?_iff (hq : q.Ordered) (hway : StaysIn all way) (hstarts : starts ⊆ all) :
    (repeated? (forEach? way) q starts).isSome ↔
      ∀ k, q.Allows k → (iterate? (forEach? way) k starts).isSome := by
  have hallows : (∀ k, q.Allows k → (iterate? (forEach? way) k starts).isSome) ↔
      ∀ n, (∀ m ∈ q.max?.map (· - q.min), n ≤ m) →
        (iterate? (forEach? way) (q.min + n) starts).isSome := by
    simp [Quantifier.allows_iff hq]
  rw [hallows, repeated?_of_ordered hq]
  simp only [iterate?_add]
  cases hfirst : iterate? (forEach? way) q.min starts with
  | none =>
    refine iff_of_false (by simp) fun h => ?_
    have := h 0 fun _ _ => Nat.zero_le _
    cases this
  | some first =>
    exact isSome_spread?_iff hway (hway.iterate?_subset hstarts hfirst)

/-- A repetition leads to what the allowed numbers of steps lead to. -/
theorem mem_iff_of_repeated? (hq : q.Ordered)
    (h : repeated? (forEach? way) q starts = some ends) {b : ℕ} :
    b ∈ ends ↔ ∃ k, q.Allows k ∧
      ∃ reached ∈ iterate? (forEach? way) k starts, b ∈ reached := by
  have hallows : (∃ k, q.Allows k ∧ ∃ reached ∈ iterate? (forEach? way) k starts, b ∈ reached) ↔
      ∃ n, (∀ m ∈ q.max?.map (· - q.min), n ≤ m) ∧
        ∃ reached ∈ iterate? (forEach? way) (q.min + n) starts, b ∈ reached := by
    simp [Quantifier.allows_iff hq]
  rw [repeated?_of_ordered hq] at h
  obtain ⟨first, hfirst, hspread⟩ := Option.bind_eq_some_iff.1 h
  rw [hallows, mem_iff_of_spread? hspread]
  simp only [iterate?_add, hfirst, Option.bind_some]

/-- A repetition of a way that always has a result has one too, and stays where the way stays. -/
theorem StaysIn.exists_repeated? (hway : StaysIn all way) (hsome : ∀ b ∈ all, (way b).isSome)
    (hq : q.Ordered) (hstarts : starts ⊆ all) :
    ∃ ends, repeated? (forEach? way) q starts = some ends ∧ ends ⊆ all := by
  have hrepeated := (isSome_repeated?_iff hq hway hstarts).2 fun k _ =>
    hway.isSome_iterate? hsome hstarts k
  obtain ⟨ends, hends⟩ := Option.isSome_iff_exists.1 hrepeated
  refine ⟨ends, hends, fun b hb => ?_⟩
  obtain ⟨k, -, reached, hreached, hmem⟩ := (mem_iff_of_repeated? hq hends).1 hb
  exact hway.iterate?_subset hstarts hreached hmem

end

end Confection.Offsets
