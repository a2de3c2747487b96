import Mathlib.Algebra.Order.Ring.Nat
import Confection.FirstOccurrences
import Confection.Pattern.Candidates
import Confection.Proofs.Pattern.Language
import Confection.Proofs.Pull

/-!
# The search finds every candidate once

`Pattern.listing` lists the ways through a pattern by plain recursion, each with what it writes:
alternatives and members in their order, and at a repetition stopping before one more copy.  A
candidate that can be written in several ways is in this list several times.  The search gives the
same list with all but the first occurrence of every candidate left out.

## Shape of the proof

* `Path.completions` are the candidates that a path still leads to, in order.  The branches of a
  path have its completions among them, in the same order (`completions_branches`).
* Without `seen` the search would therefore list the completions of its stack (`unmerged`).
* With it a path that has been followed before is dropped.  This loses nothing, since all its
  completions have been given by then.  The invariant is `Search.Invariant`: what a followed path
  leads to has been given, or is still to come from a part of the stack above which nothing is as
  heavy as that path.  A path that is on top of the stack again cannot be in such a part of its own,
  as all of it is lighter.
-/

namespace Confection

/-! ## The plain listing -/

section

variable {α : Type*}

/-- Each word of the first list with each of the second after it; the second varies faster. -/
def concatenations (xs ys : List (List α)) : List (List α) := xs.flatMap fun x => ys.map (x ++ ·)

/-- From `least` to `most` words of a list, one after the other.  Where it is possible to stop, that
comes before one more word. -/
def copies (one : List (List α)) (least : ℕ) : ℕ → List (List α)
  | 0 => if least = 0 then [[]] else []
  | most + 1 =>
    (if least = 0 then [[]] else []) ++ concatenations one (copies one (least - 1) most)

end

mutual

/-- What the ways through an element write. -/
def Element.listing : Element → List (List Atom)
  | .symbol i => [[.symbol i]]
  | .literal c => [[.literal c]]
  | .oneOf members => members.map fun a => [a]
  | .any => printableAscii.map fun c => [.literal c]
  | .group p => Pattern.listing p
termination_by structural e => e

/-- What the ways through a sequence write. -/
def Sequence.listing : Sequence → List (List Atom)
  | [] => [[]]
  | ⟨q, e⟩ :: rest =>
    concatenations (copies e.listing q.min q.maxOrMin) (Sequence.listing rest)
termination_by structural s => s

/-- What the ways through a pattern write. -/
def Pattern.listing : Pattern → List (List Atom)
  | [] => []
  | s :: rest => Sequence.listing s ++ Pattern.listing rest
termination_by structural p => p

end

/-! ## Completions -/

section

variable {α : Type*}

theorem concatenations_append (xs ys zs : List (List α)) :
    concatenations (xs ++ ys) zs = concatenations xs zs ++ concatenations ys zs :=
  List.flatMap_append

theorem concatenations_singleton (x : List α) (ys : List (List α)) :
    concatenations [x] ys = ys.map (x ++ ·) := by
  simp [concatenations]

theorem map_append_concatenations (w : List α) (xs ys : List (List α)) :
    (concatenations xs ys).map (w ++ ·) = concatenations (xs.map (w ++ ·)) ys := by
  simp [concatenations, List.map_flatMap, List.flatMap_map, Function.comp_def]

theorem concatenations_assoc (xs ys zs : List (List α)) :
    concatenations (concatenations xs ys) zs = concatenations xs (concatenations ys zs) := by
  induction xs with
  | nil => rfl
  | cons x xs ih =>
    rw [show x :: xs = [x] ++ xs from rfl, concatenations_append, concatenations_append,
      concatenations_append, ih, concatenations_singleton, concatenations_singleton,
      map_append_concatenations]

end

/-- What the ways through pending elements write. -/
def pendingListing : List Pending → List (List Atom)
  | [] => [[]]
  | w :: rest => concatenations (copies w.element.listing w.least w.most) (pendingListing rest)

/-- The candidates that the path leads to, in order. -/
def Path.completions (p : Path) : List (List Atom) :=
  (pendingListing p.pending).map (p.written.reverse ++ ·)

private theorem pendingListing_ofSequence (place : UInt64) (s : Sequence) (rest : List Pending) :
    pendingListing (Pending.ofSequence place s ++ rest) =
      concatenations (Sequence.listing s) (pendingListing rest) := by
  induction s generalizing place with
  | nil => simp [Pending.ofSequence, Sequence.listing, concatenations]
  | cons it s ih =>
    obtain ⟨q, e⟩ := it
    rw [Pending.ofSequence, List.cons_append, pendingListing, ih, Sequence.listing,
      concatenations_assoc]

private theorem completions_enter (written : List Atom) (rest : List Pending) (place : UInt64)
    (p : Pattern) :
    (Path.enter written rest place p).flatMap Path.completions =
      (concatenations (Pattern.listing p) (pendingListing rest)).map (written.reverse ++ ·) := by
  induction p generalizing place with
  | nil => rfl
  | cons s p ih =>
    rw [Path.enter, List.flatMap_cons, ih, Path.completions, pendingListing_ofSequence,
      Pattern.listing, concatenations_append, List.map_append]

private theorem completions_write (written : List Atom) (rest : List Pending) (place : UInt64)
    (e : Element) :
    (Path.write written rest place e).flatMap Path.completions =
      (concatenations e.listing (pendingListing rest)).map (written.reverse ++ ·) := by
  cases e with
  | group p => exact completions_enter ..
  | _ =>
    simp [Path.write, Path.completions, Element.listing, concatenations, List.flatMap_map,
      List.map_flatMap, Function.comp_def]

/-- The branches of a path lead to what the path leads to, in the same order. -/
theorem completions_branches (written : List Atom) (first : Pending) (rest : List Pending) :
    (Path.branches written first rest).flatMap Path.completions =
      Path.completions ⟨written, first :: rest⟩ := by
  obtain ⟨place, least, most, e⟩ := first
  have hstop : (if least = 0 then [⟨written, rest⟩] else []).flatMap Path.completions =
      (concatenations (if least = 0 then [[]] else []) (pendingListing rest)).map
        (written.reverse ++ ·) := by
    split <;> simp [Path.completions, concatenations]
  have hpath : Path.completions ⟨written, ⟨place, least, most, e⟩ :: rest⟩ =
      (concatenations (copies e.listing least most) (pendingListing rest)).map
        (written.reverse ++ ·) := rfl
  cases most with
  | zero => rw [Path.branches, List.append_nil, hstop, hpath, copies]
  | succ most =>
    rw [Path.branches, List.flatMap_append, hstop, completions_write, hpath, copies,
      concatenations_append, List.map_append, concatenations_assoc]
    rfl

namespace Search

/-! ## The search that drops nothing -/

/-- The candidates that a search with these paths would give if no path were ever dropped. -/
def unmerged : List Path → List (List Atom)
  | [] => []
  | path :: stack =>
    match _hp : path.pending with
    | [] => path.written.reverse :: unmerged stack
    | first :: rest => unmerged (Path.branches path.written first rest ++ stack)
termination_by stack => totalWeight stack
decreasing_by
  · rw [totalWeight, _hp, pendingWeight]
    omega
  · have := totalWeight_branches_lt path.written first rest
    rw [totalWeight, totalWeight_append, _hp]
    omega

private theorem completions_of_pending_nil {path : Path} (hp : path.pending = []) :
    path.completions = [path.written.reverse] := by
  simp [Path.completions, hp, pendingListing]

private theorem completions_of_pending_cons {path : Path} {first : Pending} {rest : List Pending}
    (hp : path.pending = first :: rest) :
    path.completions = (Path.branches path.written first rest).flatMap Path.completions := by
  rw [completions_branches, ← hp]

/-- A search that drops nothing lists the completions of its paths. -/
theorem unmerged_eq (stack : List Path) : unmerged stack = stack.flatMap Path.completions := by
  fun_induction unmerged stack with
  | case1 => rfl
  | case2 path stack hp ih =>
    rw [ih, List.flatMap_cons, completions_of_pending_nil hp, List.singleton_append]
  | case3 path stack first rest hp ih =>
    rw [ih, List.flatMap_append, List.flatMap_cons, completions_of_pending_cons hp]

/-! ## One step of the search -/

section

variable {seen : Std.HashSet Path} {path : Path} {stack : List Path}

private theorem next?_nil : next? ⟨[], seen⟩ = none := by
  simp [next?, nextFrom?]

private theorem next?_of_seen (h : seen.contains path = true) :
    next? ⟨path :: stack, seen⟩ = next? ⟨stack, seen⟩ := by
  rw [next?, nextFrom?, if_pos h, next?]

private theorem next?_of_done (h : ¬ seen.contains path = true) (hp : path.pending = []) :
    next? ⟨path :: stack, seen⟩ = some (path.written.reverse, ⟨stack, seen.insert path⟩) := by
  rw [next?, nextFrom?, if_neg h]
  split
  · rfl
  · next hp' => rw [hp] at hp'; cases hp'

private theorem next?_of_pending {first : Pending} {rest : List Pending}
    (h : ¬ seen.contains path = true) (hp : path.pending = first :: rest) :
    next? ⟨path :: stack, seen⟩ =
      next? ⟨Path.branches path.written first rest ++ stack, seen.insert path⟩ := by
  rw [next?, nextFrom?, if_neg h]
  split
  · next hp' => rw [hp] at hp'; cases hp'
  · next hp' => rw [hp] at hp'; cases hp'; rfl

end

/-! ## The invariant -/

/-- What holds between two steps of a search that has given these candidates. -/
structure Invariant (given : List (List Atom)) (s : Search) : Prop where
  /-- What a followed path leads to has been given, or is among the completions of the upper part of
  the stack, in which all paths are lighter than that path. -/
  covered : ∀ p, s.seen.contains p = true → ∃ above below, s.stack = above ++ below ∧
    (∀ q ∈ above, pendingWeight q.pending < pendingWeight p.pending) ∧
    ∀ w ∈ p.completions, w ∈ given ∨ w ∈ above.flatMap Path.completions
  /-- The path of a given candidate has been followed. -/
  followed : ∀ w ∈ given, s.seen.contains ⟨w.reverse, []⟩ = true

variable {given : List (List Atom)} {s : Search}

/-- The search for the candidates of a pattern starts with all ways through it. -/
theorem unmerged_start (p : Pattern) : unmerged (start p).stack = p.listing := by
  simp [unmerged_eq, start, Path.completions, pendingListing, copies, concatenations,
    Element.listing]

theorem invariant_start (p : Pattern) : Invariant [] (start p) :=
  ⟨fun p hp => by simp [start] at hp, by simp⟩

section

variable {seen : Std.HashSet Path} {path : Path} {stack : List Path}

/-- A path is replaced on the stack by lighter ones that lead to whatever it leads to and has not
been given.  Then all followed paths, and the path itself, stay covered. -/
private theorem Invariant.covered_replace (h : Invariant given ⟨path :: stack, seen⟩)
    {given' : List (List Atom)} (hgiven : ∀ w ∈ given, w ∈ given') (paths : List Path)
    (hlight : ∀ q ∈ paths, pendingWeight q.pending < pendingWeight path.pending)
    (hcover : ∀ w ∈ path.completions, w ∈ given' ∨ w ∈ paths.flatMap Path.completions)
    {p : Path} (hp : p = path ∨ seen.contains p = true) :
    ∃ above below, paths ++ stack = above ++ below ∧
      (∀ q ∈ above, pendingWeight q.pending < pendingWeight p.pending) ∧
      ∀ w ∈ p.completions, w ∈ given' ∨ w ∈ above.flatMap Path.completions := by
  rcases hp with rfl | hp
  · exact ⟨paths, stack, rfl, hlight, hcover⟩
  obtain ⟨above, below, heq, habove, hw⟩ := h.covered p hp
  cases above with
  | nil =>
    -- what `p` leads to has all been given
    refine ⟨[], paths ++ stack, rfl, by simp, fun w hmem => ?_⟩
    have := hw w hmem
    simp only [List.flatMap_nil, List.not_mem_nil, or_false] at this
    exact Or.inl (hgiven w this)
  | cons q above =>
    -- the path stands above what `p` needs, so it is lighter than `p`, and what replaces it is too
    simp only [List.cons_append, List.cons.injEq] at heq
    obtain ⟨rfl, rfl⟩ := heq
    obtain ⟨hpath, habove⟩ := List.forall_mem_cons.1 habove
    refine ⟨paths ++ above, below, by rw [List.append_assoc], ?_, fun w hmem => ?_⟩
    · exact List.forall_mem_append.2 ⟨fun q hq => (hlight q hq).trans hpath, habove⟩
    · rw [List.flatMap_append, List.mem_append]
      rcases hw w hmem with hw | hw
      · exact Or.inl (hgiven w hw)
      · rw [List.flatMap_cons, List.mem_append] at hw
        rcases hw with hw | hw
        · exact (hcover w hw).imp_right Or.inl
        · exact Or.inr (Or.inr hw)

/-- When a followed path is on top of the stack, all it leads to has been given. -/
theorem Invariant.mem_of_seen (h : Invariant given ⟨path :: stack, seen⟩)
    (hseen : seen.contains path = true) {w : List Atom} (hw : w ∈ path.completions) :
    w ∈ given := by
  obtain ⟨above, below, heq, habove, hcover⟩ := h.covered path hseen
  cases above with
  | nil => simpa using hcover w hw
  | cons q above =>
    -- the path would be lighter than itself
    simp only [List.cons_append, List.cons.injEq] at heq
    exact absurd (habove path (by simp [heq.1])) (Nat.lt_irrefl _)

/-- Dropping a followed path keeps the invariant. -/
theorem Invariant.drop (h : Invariant given ⟨path :: stack, seen⟩)
    (hseen : seen.contains path = true) : Invariant given ⟨stack, seen⟩ :=
  ⟨fun _ hp => h.covered_replace (fun _ => id) [] (by simp)
    (fun _ hw => Or.inl (h.mem_of_seen hseen hw)) (Or.inr hp), h.followed⟩

private theorem eq_or_contains_of_insert {p : Path} (h : (seen.insert path).contains p = true) :
    p = path ∨ seen.contains p = true := by
  rw [Std.HashSet.contains_insert, Bool.or_eq_true, beq_iff_eq] at h
  exact h.imp_left Eq.symm

/-- A candidate whose path has not been followed has not been given. -/
theorem Invariant.not_mem_of_done (h : Invariant given ⟨path :: stack, seen⟩)
    (hseen : ¬ seen.contains path = true) (hp : path.pending = []) :
    path.written.reverse ∉ given := by
  intro hmem
  have := h.followed _ hmem
  rw [List.reverse_reverse, ← hp] at this
  exact hseen this

/-- Giving the candidate of a path that is complete keeps the invariant. -/
theorem Invariant.give (h : Invariant given ⟨path :: stack, seen⟩) (hp : path.pending = []) :
    Invariant (given ++ [path.written.reverse]) ⟨stack, seen.insert path⟩ where
  covered p hmem := by
    refine h.covered_replace (by simp +contextual) [] (by simp) (fun w hw => ?_)
      (eq_or_contains_of_insert hmem)
    rw [completions_of_pending_nil hp] at hw
    exact Or.inl (List.mem_append_right _ hw)
  followed w hw := by
    rw [Std.HashSet.contains_insert, Bool.or_eq_true]
    rcases List.mem_append.1 hw with hw | hw
    · exact Or.inr (h.followed w hw)
    · rw [List.mem_singleton.1 hw, List.reverse_reverse, ← hp]
      exact Or.inl (beq_self_eq_true path)

/-- Replacing a path by its branches keeps the invariant. -/
theorem Invariant.branch (h : Invariant given ⟨path :: stack, seen⟩) {first : Pending}
    {rest : List Pending} (hp : path.pending = first :: rest) :
    Invariant given ⟨Path.branches path.written first rest ++ stack, seen.insert path⟩ where
  covered p hmem := by
    refine h.covered_replace (fun _ => id) _ (fun q hq => ?_) (fun w hw => ?_)
      (eq_or_contains_of_insert hmem)
    · rw [hp]
      exact lt_of_le_of_lt (pendingWeight_le_totalWeight hq)
        (totalWeight_branches_lt path.written first rest)
    · rw [completions_of_pending_cons hp] at hw
      exact Or.inr hw
  followed w hw := by
    rw [Std.HashSet.contains_insert, h.followed w hw, Bool.or_true]

end

/-! ## The whole search -/

/-- What a search with these paths still has to give: the completions that have not been given, each
once. -/
def remaining (given : List (List Atom)) (stack : List Path) : List (List Atom) :=
  ((unmerged stack).filter (· ∉ given)).eraseDups

section

variable {seen : Std.HashSet Path} {path : Path} {stack : List Path}

/-- A followed path adds nothing to what remains. -/
private theorem remaining_of_seen (h : Invariant given ⟨path :: stack, seen⟩)
    (hseen : seen.contains path = true) :
    remaining given (path :: stack) = remaining given stack := by
  have hpath : path.completions.filter (· ∉ given) = [] :=
    List.filter_eq_nil_iff.2 fun w hw => by simpa using h.mem_of_seen hseen hw
  simp only [remaining, unmerged_eq, List.flatMap_cons, List.filter_append, hpath,
    List.nil_append]

/-- What remains starts with the candidate of a path that is complete. -/
private theorem remaining_of_done (h : Invariant given ⟨path :: stack, seen⟩)
    (hseen : ¬ seen.contains path = true) (hp : path.pending = []) :
    remaining given (path :: stack) =
      path.written.reverse :: remaining (given ++ [path.written.reverse]) stack := by
  have hnot := h.not_mem_of_done hseen hp
  have hfilter (w : List Atom) : (!w == path.written.reverse && decide (w ∉ given)) =
      decide (w ∉ given ++ [path.written.reverse]) := by
    by_cases hw : w = path.written.reverse <;> simp [hw]
  simp only [remaining, unmerged_eq, List.flatMap_cons, completions_of_pending_nil hp,
    List.singleton_append]
  rw [List.filter_cons_of_pos (by simpa using hnot), List.eraseDups_cons, List.filter_filter]
  simp only [hfilter]

/-- A path and its branches leave the same to be given. -/
private theorem remaining_of_pending {first : Pending} {rest : List Pending}
    (hp : path.pending = first :: rest) :
    remaining given (path :: stack) =
      remaining given (Path.branches path.written first rest ++ stack) := by
  simp only [remaining, unmerged_eq, List.flatMap_cons, List.flatMap_append,
    completions_of_pending_cons hp]

end

private theorem weight_cons (seen : Std.HashSet Path) (path : Path) (stack : List Path) :
    weight ⟨path :: stack, seen⟩ = pendingWeight path.pending + totalWeight stack := rfl

/-- A search yields what remains to be given. -/
theorem Invariant.yields (h : Invariant given s) :
    Yields next? s (remaining given s.stack) := by
  induction hweight : s.weight using Nat.strong_induction_on generalizing s given with
  | _ weight ih =>
    subst hweight
    obtain ⟨stack, seen⟩ := s
    cases stack with
    | nil => simpa [remaining, unmerged] using yields_nil_iff.2 next?_nil
    | cons path stack =>
      rw [weight_cons] at ih
      -- the path is dropped or given, and the stack below it is lighter, or its branches take its
      -- place, and they are lighter than the path
      have hbelow : totalWeight stack < pendingWeight path.pending + totalWeight stack :=
        Nat.lt_add_of_pos_left (pendingWeight_pos path.pending)
      by_cases hseen : seen.contains path = true
      · rw [remaining_of_seen h hseen]
        exact (ih _ hbelow (h.drop hseen) rfl).of_next_eq (next?_of_seen hseen)
      cases hp : path.pending with
      | nil =>
        rw [remaining_of_done h hseen hp]
        exact yields_cons_iff.2 ⟨_, next?_of_done hseen hp, ih _ hbelow (h.give hp) rfl⟩
      | cons first rest =>
        rw [remaining_of_pending hp]
        have hbranches : totalWeight (Path.branches path.written first rest ++ stack) <
            pendingWeight path.pending + totalWeight stack := by
          have := totalWeight_branches_lt path.written first rest
          rw [totalWeight_append, hp]
          omega
        exact (ih _ hbranches (h.branch hp) rfl).of_next_eq (next?_of_pending hseen hp)

/-- The search for the candidates of a pattern yields the plain listing, each candidate once. -/
theorem start_yields (p : Pattern) : Yields next? (start p) p.listing.eraseDups := by
  have h := (invariant_start p).yields
  simpa [remaining, unmerged_start] using h

end Search

/-! ## Candidates and the language of a pattern -/

section

variable {α : Type*}

theorem listed_concatenations (xs ys : List (List α)) :
    listed (concatenations xs ys) = listed xs * listed ys := by
  ext w
  simp [mem_listed, concatenations, Language.mem_mul]

theorem listed_append (xs ys : List (List α)) : listed (xs ++ ys) = listed xs + listed ys := by
  ext w
  simp [mem_listed, Language.mem_add]

/-- What from `least` to `most` words make is in a power between these numbers. -/
theorem mem_copies {one : List (List α)} {least most : ℕ} {w : List α} :
    w ∈ copies one least most ↔ ∃ k, least ≤ k ∧ k ≤ most ∧ w ∈ listed one ^ k := by
  have hstop (least : ℕ) (w : List α) :
      w ∈ (if least = 0 then [[]] else []) ↔ least = 0 ∧ w ∈ listed one ^ 0 := by
    split <;> simp_all
  induction most generalizing least w with
  | zero =>
    rw [copies, hstop]
    constructor
    · rintro ⟨rfl, hw⟩
      exact ⟨0, le_refl 0, le_refl 0, hw⟩
    · rintro ⟨k, hleast, hk, hw⟩
      obtain rfl := Nat.le_zero.1 hk
      exact ⟨Nat.le_zero.1 hleast, hw⟩
  | succ most ih =>
    have hmore : w ∈ concatenations one (copies one (least - 1) most) ↔
        ∃ k, least - 1 ≤ k ∧ k ≤ most ∧ w ∈ listed one ^ (k + 1) := by
      rw [← mem_listed, listed_concatenations]
      simp only [Language.mem_mul, pow_succ', mem_listed, ih]
      constructor
      · rintro ⟨u, hu, v, ⟨k, hleast, hk, hv⟩, rfl⟩
        exact ⟨k, hleast, hk, u, hu, v, hv, rfl⟩
      · rintro ⟨k, hleast, hk, u, hu, v, hv, rfl⟩
        exact ⟨u, hu, v, ⟨k, hleast, hk, hv⟩, rfl⟩
    rw [copies, List.mem_append, hstop, hmore]
    constructor
    · rintro (⟨rfl, hw⟩ | ⟨k, hleast, hk, hw⟩)
      · exact ⟨0, le_refl 0, Nat.zero_le _, hw⟩
      · exact ⟨k + 1, by omega, by omega, hw⟩
    · rintro ⟨k, hleast, hk, hw⟩
      cases k with
      | zero => exact Or.inl ⟨Nat.le_zero.1 hleast, hw⟩
      | succ k => exact Or.inr ⟨k, by omega, by omega, hw⟩

end

/-- With a greatest number of repetitions, the copies of a word are the powers that are allowed. -/
theorem listed_copies {q : Quantifier} (h : q.max?.isNone = false) (one : List (List Atom)) :
    listed (copies one q.min q.maxOrMin) = q.powers (listed one) := by
  obtain ⟨m, hm⟩ := Option.isSome_iff_exists.1 (by simpa using h)
  ext w
  rw [mem_listed, mem_copies, Quantifier.mem_powers]
  simp [Quantifier.Allows, Quantifier.maxOrMin, hm, and_assoc]

mutual

/-- The ways through a bounded element write its candidates. -/
theorem Element.listed_listing :
    ∀ e : Element, e.isUnbounded = false → listed e.listing = e.language Atom.alone
  | .symbol i, _ => Language.ext fun w => by simp [mem_listed, Element.listing, Element.language,
      Atom.mem_alone]
  | .literal c, _ => Language.ext fun w => by simp [mem_listed, Element.listing, Element.language,
      Atom.mem_alone]
  | .oneOf members, _ => Language.ext fun w => by
    simp [mem_listed, Element.listing, Element.mem_language_oneOf, Atom.mem_alone, eq_comm]
  | .any, _ => Language.ext fun w => by
    simp [mem_listed, Element.listing, Element.mem_language_any, Atom.mem_alone, eq_comm]
  | .group p, h => Pattern.listed_listing p h

/-- The ways through a bounded sequence write its candidates. -/
theorem Sequence.listed_listing : ∀ s : Sequence, Sequence.isUnbounded s = false →
    listed (Sequence.listing s) = Sequence.language Atom.alone s
  | [], _ => Language.ext fun w => by simp [mem_listed, Sequence.listing, Sequence.language]
  | ⟨q, e⟩ :: rest, h => by
    simp only [Sequence.isUnbounded, Bool.or_eq_false_iff] at h
    rw [Sequence.listing, Sequence.language, listed_concatenations, listed_copies h.1.1,
      e.listed_listing h.1.2, Sequence.listed_listing rest h.2]

/-- The ways through a bounded pattern write its candidates. -/
theorem Pattern.listed_listing : ∀ p : Pattern, Pattern.isUnbounded p = false →
    listed (Pattern.listing p) = Pattern.language Atom.alone p
  | [], _ => listed_nil
  | s :: rest, h => by
    simp only [Pattern.isUnbounded, Bool.or_eq_false_iff] at h
    rw [Pattern.listing, Pattern.language, listed_append, Sequence.listed_listing s h.1,
      Pattern.listed_listing rest h.2]

end

/-- The item occurs in the pattern, at some depth. -/
inductive Item.Within (it : Item) : Pattern → Prop
  | here {p : Pattern} {s : Sequence} : s ∈ p → it ∈ s → it.Within p
  | deeper {p inner : Pattern} {s : Sequence} {outer : Item} :
    s ∈ p → outer ∈ s → outer.element = .group inner → it.Within inner → it.Within p

private theorem Pattern.isUnbounded_iff_exists {p : Pattern} :
    p.isUnbounded = true ↔ ∃ s ∈ p, ∃ it ∈ s,
      it.quantifier.max? = none ∨ it.element.isUnbounded = true := by
  rw [Pattern.isUnbounded_eq_any, List.any_eq_true]
  simp only [Sequence.isUnbounded_eq_any, List.any_eq_true, Bool.or_eq_true,
    Option.isNone_iff_eq_none]

/-- An unbounded element is a group with such an item inside. -/
private theorem Element.exists_within_of_isUnbounded {e : Element} (h : e.isUnbounded = true) :
    ∃ p, e = .group p ∧ ∃ it : Item, it.Within p ∧ it.quantifier.max? = none := by
  induction e using Element.byGroups with
  | group p ih =>
    refine ⟨p, rfl, ?_⟩
    obtain ⟨s, hs, it, hit, hmax | hinner⟩ := Pattern.isUnbounded_iff_exists.1 h
    · exact ⟨it, .here hs hit, hmax⟩
    · obtain ⟨inner, heq, found, hfound, hmax⟩ := ih s hs it hit hinner
      exact ⟨found, .deeper hs hit heq hfound, hmax⟩
  | _ => cases h

/-- A pattern is unbounded when an item in it, at any depth, has no greatest number of
repetitions. -/
theorem Pattern.isUnbounded_iff {p : Pattern} :
    p.isUnbounded = true ↔ ∃ it : Item, it.Within p ∧ it.quantifier.max? = none := by
  constructor
  · intro h
    obtain ⟨inner, heq, hfound⟩ := Element.exists_within_of_isUnbounded (e := .group p) h
    cases heq
    exact hfound
  · rintro ⟨it, hwithin, hmax⟩
    induction hwithin with
    | here hs hit => exact isUnbounded_iff_exists.2 ⟨_, hs, _, hit, Or.inl hmax⟩
    | deeper hs hit heq _ ih =>
      refine isUnbounded_iff_exists.2 ⟨_, hs, _, hit, Or.inr ?_⟩
      rw [heq]
      exact ih

/-- The search for the candidates of a pattern is refused exactly when an item in it, at any depth,
has no greatest number of repetitions.  Otherwise it ends, and gives the plain listing, which is
also what it would give without dropping paths, with all but the first occurrence of every candidate
left out.  So it gives every candidate of the pattern, and none twice. -/
theorem Pattern.candidates?_yields_listing (p : Pattern) :
    (p.candidates? = none ↔ ∃ it : Item, it.Within p ∧ it.quantifier.max? = none) ∧
    ∀ s, p.candidates? = some s →
      Yields Search.next? s p.listing.eraseDups ∧ Search.unmerged s.stack = p.listing ∧
      p.listing.eraseDups.Nodup ∧
      ∀ w, w ∈ p.listing.eraseDups ↔ w ∈ p.language Atom.alone := by
  constructor
  · rw [← Pattern.isUnbounded_iff, Pattern.candidates?]
    split <;> simp_all
  intro s hs
  rw [Pattern.candidates?] at hs
  split at hs
  · cases hs
  next hbounded =>
  cases hs
  refine ⟨Search.start_yields p, Search.unmerged_start p, nodup_eraseDups _, fun w => ?_⟩
  rw [List.mem_eraseDups, ← mem_listed, p.listed_listing (by simpa using hbounded)]

/-- Two optional copies of a symbol can be written in four ways, which make three candidates. -/
theorem Pattern.candidates?_yields_optional :
    let p : Pattern := [[⟨.exactly 2, .group [[⟨.optional, .symbol 0⟩]]⟩], [⟨.once, .literal 'b'⟩]]
    p.candidates? = some (.start p) ∧ Yields Search.next? (.start p)
      [[], [.symbol 0], [.symbol 0, .symbol 0], [.literal 'b']] := by
  intro p
  have hlisting : p.listing.eraseDups =
      [[], [.symbol 0], [.symbol 0, .symbol 0], [.literal 'b']] := by decide
  exact ⟨rfl, hlisting ▸ ((Pattern.candidates?_yields_listing p).2 _ rfl).1⟩

end Confection
