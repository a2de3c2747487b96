import Std.Data.HashSet

/-!
# First occurrences

`firstOccurrences` drops every element of a list that has occurred before.  A hash set of the
elements met so far makes this linear; `firstOccurrences_eq_eraseDups` certifies that the set is
only a faster way to compute the core library's quadratic `List.eraseDups`.
-/

namespace Confection

variable {α : Type} [BEq α] [Hashable α]

/-- Puts an element in front of the collected ones unless the set says it has been met. -/
def collectNew (met : List α × Std.HashSet α) (x : α) : List α × Std.HashSet α :=
  if met.2.contains x then met else (x :: met.1, met.2.insert x)

/-- The list without the elements that have occurred earlier in it. -/
def firstOccurrences (xs : List α) : List α :=
  (xs.foldl collectNew ([], ∅)).1.reverse

private theorem foldl_collectNew [LawfulBEq α] (xs acc : List α) (met : Std.HashSet α) :
    (xs.foldl collectNew (acc, met)).1.reverse =
      acc.reverse ++ (xs.filter (!met.contains ·)).eraseDups := by
  induction xs generalizing acc met with
  | nil => simp
  | cons x rest ih =>
    rw [List.foldl_cons, collectNew]
    by_cases h : met.contains x = true
    · simp [h, ih]
    · simp only [h, Bool.false_eq_true, if_false, ih, List.filter_cons, Bool.not_false, if_true,
        List.eraseDups_cons, List.filter_filter, List.reverse_cons, List.append_assoc,
        List.singleton_append]
      congr 3
      refine List.filter_congr fun y _ => ?_
      rw [Std.HashSet.contains_insert, Bool.not_or, BEq.comm]

/-- The hash set changes the cost and not the result. -/
theorem firstOccurrences_eq_eraseDups [LawfulBEq α] (xs : List α) :
    firstOccurrences xs = xs.eraseDups := by
  rw [firstOccurrences, foldl_collectNew, List.filter_eq_self.2 (by simp)]
  rfl

omit [Hashable α] in
/-- What is left after repetitions are dropped is all different. -/
theorem nodup_eraseDups [LawfulBEq α] : ∀ xs : List α, xs.eraseDups.Nodup
  | [] => by simp
  | x :: rest => by
    rw [List.eraseDups_cons, List.nodup_cons]
    exact ⟨by simp, nodup_eraseDups _⟩
termination_by xs => xs.length
decreasing_by exact Nat.lt_succ_of_le (List.length_filter_le _ _)

omit [Hashable α] in
/-- Where nothing is repeated nothing is dropped. -/
theorem eraseDups_of_nodup [LawfulBEq α] {xs : List α} (h : xs.Nodup) : xs.eraseDups = xs := by
  induction xs with
  | nil => rfl
  | cons x rest ih =>
    obtain ⟨hx, hrest⟩ := List.nodup_cons.1 h
    have hfilter : rest.filter (fun y => !y == x) = rest := by
      refine List.filter_eq_self.2 fun y hy => ?_
      have hne : y ≠ x := fun heq => hx (heq ▸ hy)
      simpa using hne
    rw [List.eraseDups_cons, hfilter, ih hrest]

end Confection
