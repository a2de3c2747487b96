import Mathlib
import Confection.CommandLine.Job
import Confection.Proofs.Formula.Basic
import Confection.Proofs.Legend
import Confection.Proofs.Pattern.Candidates
import Confection.Proofs.Pull

/-!
# Counts and listings on the command line

Two runs that differ in the count only write the same lines, as far as the smaller count goes
(`Job.lines_withLeft_mono`).  And asking for a listing that is not possible changes nothing but
the count where none is given: no random number has been used up when the job is made, so the lines
are those of a run that draws from the start.  `CommandLine.run_output` says both of whole runs.

## Shape of the proof

The count never decides what the next line is, only whether there is one
(`Job.next?_withLeft_succ`).  What is said of `Job.lines` is said of the lines that are written one
by one (`Job.yields_lines`).
-/

namespace Confection.CommandLine

namespace Job

variable {j j' : Job} {t : Text} {k m : ℕ}

/-- The job with another count. -/
def withLeft : Job → ℕ → Job
  | .listing strings _, n => .listing strings n
  | .sampling r bounds source _, n => .sampling r bounds source n

/-! ## The lines of a job, one by one -/

theorem next?_withLeft_zero (j : Job) : (j.withLeft 0).next? = none := by
  cases j <;> rfl

/-- A line and the job after it do not depend on the count, but for what is left of it. -/
theorem next?_withLeft_succ (j : Job) (n : ℕ) :
    (j.withLeft (n + 1)).next? =
      (j.withLeft 1).next?.map fun (t, j) => (t, j.withLeft n) := by
  cases j with
  | listing strings _ =>
    rw [withLeft, withLeft, next?, next?, Option.map_map]
    rfl
  | sampling r bounds source _ => rfl

theorem left_of_next?_eq_some (h : j.next? = some (t, j')) : j.left = j'.left + 1 := by
  cases j with
  | listing strings n =>
    cases n with
    | zero => cases h
    | succ n =>
      obtain ⟨_, -, h⟩ := Option.map_eq_some_iff.1 h
      cases h
      rfl
  | sampling r bounds source n =>
    cases n with
    | zero => cases h
    | succ n =>
      cases h
      rfl

theorem lines_of_next?_eq_none (h : j.next? = none) : j.lines = [] := by
  rw [lines]
  cases j.left with
  | zero => rfl
  | succ n => rw [pull_succ_none h]

theorem lines_of_next?_eq_some (h : j.next? = some (t, j')) : j.lines = t :: j'.lines := by
  rw [lines, left_of_next?_eq_some h, pull_succ_some h, lines]

/-- The lines are those that come one by one until there is none. -/
theorem yields_lines (j : Job) : Yields next? j j.lines := by
  induction hleft : j.left generalizing j with
  | zero =>
    have hnone : j.next? = none := by
      by_contra hsome
      obtain ⟨⟨t, j'⟩, hnext⟩ := Option.ne_none_iff_exists'.1 hsome
      cases hleft.symm.trans (left_of_next?_eq_some hnext)
    rw [lines_of_next?_eq_none hnone]
    exact yields_nil_iff.2 hnone
  | succ n ih =>
    cases hnext : j.next? with
    | none =>
      rw [lines_of_next?_eq_none hnext]
      exact yields_nil_iff.2 hnext
    | some p =>
      obtain ⟨t, j'⟩ := p
      rw [lines_of_next?_eq_some hnext]
      have hleft' : j'.left = n := Nat.succ.inj ((left_of_next?_eq_some hnext).symm.trans hleft)
      exact yields_cons_iff.2 ⟨j', hnext, ih j' hleft'⟩

/-- A smaller count gives the lines that come first. -/
theorem lines_withLeft_mono (j : Job) (h : k ≤ m) :
    (j.withLeft k).lines <+: (j.withLeft m).lines := by
  induction k generalizing m j with
  | zero =>
    rw [lines_of_next?_eq_none (next?_withLeft_zero j)]
    exact List.nil_prefix
  | succ k ih =>
    obtain ⟨m, rfl⟩ : ∃ n, m = n + 1 := Nat.exists_eq_add_one.2 (Nat.zero_lt_of_lt h)
    cases hnext : (j.withLeft 1).next? with
    | none =>
      have hnone : (j.withLeft (k + 1)).next? = none := by rw [next?_withLeft_succ, hnext]; rfl
      rw [lines_of_next?_eq_none hnone]
      exact List.nil_prefix
    | some p =>
      obtain ⟨t, j'⟩ := p
      have hsome (n : ℕ) : (j.withLeft (n + 1)).next? = some (t, j'.withLeft n) := by
        rw [next?_withLeft_succ, hnext]
        rfl
      rw [lines_of_next?_eq_some (hsome k), lines_of_next?_eq_some (hsome m)]
      exact List.cons_prefix_cons.2 ⟨rfl, ih j' (Nat.le_of_succ_le_succ h)⟩

/-! ## The job of a run -/

variable {o : Options} {entropy : UInt64} {r : Recipe}

theorem ofRecipe_count (n : ℕ) :
    ofRecipe { o with count := some n } entropy r = (ofRecipe o entropy r).withLeft n := by
  simp only [ofRecipe]
  cases o.all with
  | false => rfl
  | true => cases r.formula.strings <;> rfl

/-- A listing that is not possible is replaced by a job that has drawn nothing. -/
theorem ofRecipe_all_of_isUnbounded (h : r.formula.pattern.isUnbounded = true)
    (count : Option ℕ) :
    ofRecipe { o with all := true, count := count } entropy r =
      ofRecipe { o with all := false, count := some (count.getD sampleCount) } entropy r := by
  have hstrings : r.formula.strings = .error .unbounded := by
    rw [Formula.strings, Pattern.candidates?, if_pos h]
  simp only [ofRecipe, hstrings]
  rfl

end Job

/-! ## Whole runs -/

variable {contents : Text → Except ReadFailure Text} {entropy : UInt64} {o : Options}
  {arguments : List Text} {t : Text} {r : Recipe}

/-- What a run writes when the recipe is loaded. -/
theorem output_run (harguments : Options.ofArguments? arguments = some o)
    (hread : contents o.path = .ok t) (hload : Recipe.ofText t (Job.settings o) = .ok r) :
    (run contents entropy arguments).output =
      (Job.ofRecipe o entropy r).lines.flatMap (· ++ ['\n']) := by
  simp only [run, harguments, Job.start, hread, hload]

/-- The count cuts the output off and does nothing else, and a listing of an unbounded pattern is
the same as drawing, by default a thousand times. -/
theorem run_output (hread : contents o.path = .ok t)
    (hload : Recipe.ofText t (Job.settings o) = .ok r) :
    (∀ k m, k ≤ m → ∀ fewer more,
      Options.ofArguments? fewer = some { o with count := some k } →
      Options.ofArguments? more = some { o with count := some m } →
      (run contents entropy fewer).output <+: (run contents entropy more).output) ∧
    ((∃ it : Item, it.Within r.formula.pattern ∧ it.quantifier.max? = none) →
      ∀ (count : Option ℕ) listing drawing,
        Options.ofArguments? listing = some { o with all := true, count := count } →
        Options.ofArguments? drawing =
          some { o with all := false, count := some (count.getD 1000) } →
        (run contents entropy listing).output = (run contents entropy drawing).output) := by
  refine ⟨fun k m hkm fewer more hfewer hmore => ?_,
    fun hunbounded count listing drawing hlisting hdrawing => ?_⟩
  · rw [output_run hfewer hread hload, output_run hmore hread hload, Job.ofRecipe_count,
      Job.ofRecipe_count]
    exact (Job.lines_withLeft_mono _ hkm).flatMap _
  · rw [output_run hlisting hread hload, output_run hdrawing hread hload,
      Job.ofRecipe_all_of_isUnbounded (Pattern.isUnbounded_iff.2 hunbounded)]
    rfl

/-- A recipe without a greatest length: one line and three, and a listing that is not possible, with
and without a count. -/
theorem run_output_unbounded :
    let contents : Text → Except ReadFailure Text := fun _ => .ok "X*\nX = x y".toList
    let output (arguments : List Text) : Text := (run contents 0 arguments).output
    output [['-', 's', '7'], ['r'], ['-', 'n', '1']] <+:
        output [['-', 'n', '3'], ['-', 's', '7'], ['r']] ∧
      output [['-', 's', '7'], ['-', 'a'], ['r']] =
        output [['-', 's', '7'], ['-', 'n', '1', '0', '0', '0'], ['r']] ∧
      output [['-', 's', '7'], ['-', 'a', 'n', '2'], ['r']] =
        output [['-', 's', '7'], ['-', 'n', '2'], ['r']] := by
  intro contents output
  let i : Ingredient := ⟨['X'], [['x'], ['y']]⟩
  let o : Options := ⟨['r'], false, false, none, none, none, some 7, none⟩
  have hparse : Document.parse "X*\nX = x y".toList =
      .ok ⟨['X', '*'], [⟨['X'], ['x', ' ', 'y'], 2⟩]⟩ := by
    decide +kernel
  have hresolve : Pantry.resolve [⟨['X'], ['x', ' ', 'y'], 2⟩] .lastWins =
      .ok (Pantry.ofList [i]) := by
    cbv
  have hline : Formula.ofLine ['X', '*'] (Pantry.ofList [i]) (Job.settings o) =
      .ok ⟨['a', '*'], [[⟨.zeroOrMore, .symbol 0⟩]], ⟨[('a', i)]⟩⟩ :=
    Formula.ofLine_eq_ok_iff.2
      ⟨Legend.ofPantry_singleton (by simp [i]), by decide +kernel, by cbv⟩
  have hload : Recipe.ofText "X*\nX = x y".toList (Job.settings o) =
      .ok ⟨['X', '*'], Pantry.ofList [i], ⟨['a', '*'], [[⟨.zeroOrMore, .symbol 0⟩]],
        ⟨[('a', i)]⟩⟩, Job.settings o⟩ := by
    have hsettings : (Job.settings o).duplicates = .lastWins := rfl
    simp only [Recipe.ofText, hparse, hsettings, hresolve, Recipe.ofParts, hline, bind, Except.bind]
    rfl
  have hunbounded : ∃ it : Item, it.Within [[⟨.zeroOrMore, .symbol 0⟩]] ∧
      it.quantifier.max? = none :=
    ⟨_, .here (List.mem_singleton_self _) (List.mem_singleton_self _), rfl⟩
  obtain ⟨hcounts, hlistings⟩ := @run_output contents 0 o _ _ rfl hload
  exact ⟨hcounts 1 3 (by decide) _ _ (by decide +kernel) (by decide +kernel),
    hlistings hunbounded none _ _ (by decide +kernel) (by decide +kernel),
    hlistings hunbounded (some 2) _ _ (by decide +kernel) (by decide +kernel)⟩

end Confection.CommandLine
