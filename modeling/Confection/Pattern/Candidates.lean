import Std.Data.HashSet
import Confection.Pattern.Basic

/-!
# The candidates of a pattern

A candidate is a list of atoms that a pattern can write.  The candidates of a bounded pattern are
searched depth first: alternatives and members in their order, and at a repetition stopping before
going on.  Each candidate is given once, where the search meets it first, and the search does no
more work than the next candidate needs.

A *path* of the search is what has been written and what is still pending: elements, each with the
least and the greatest number of copies still to be written.  Two paths that are equal have the same
future, so a path that is met again is dropped.  This keeps the search small where many ways lead to
the same candidates, as in thirty optional copies of one letter.

## Why the search ends

`pendingWeight` bounds the number of paths below one with that pending, itself included.  It is what
remains to be searched: replacing a path by its branches makes the total weight of the stack
smaller.
-/

namespace Confection

/-! ## Hash codes of paths

Paths differ in a few small numbers far down in long lists, and a hash table is only as fast as the
codes of such lists are different.
-/

namespace HashCode

/-- Takes a number into a code so that the order counts and small numbers spread over all bits.  The
multiplication by an odd constant carries low bits upwards, the shift brings the high half down
again, and neither loses anything. -/
@[inline] def mix (code n : UInt64) : UInt64 :=
  let z := (code ^^^ n) * 0x9E3779B97F4A7C15
  z ^^^ (z >>> 32)

/-- Takes the codes of the elements of a list into a code, one after the other. -/
@[specialize] def mixAll {α : Type} (of : α → UInt64) (code : UInt64) (xs : List α) : UInt64 :=
  xs.foldl (fun code x => mix code (of x)) code

end HashCode

/-! ## Paths -/

/-- An element with the least and the greatest number of copies that are still to be written.
`place` is a code of where in the pattern the element stands, by which different elements are told
apart without looking into them. -/
structure Pending where
  place : UInt64
  least : Nat
  most : Nat
  element : Element
deriving DecidableEq

/-- All of a sequence is still to be written.  Its first item stands at the given place. -/
def Pending.ofSequence (place : UInt64) : Sequence → List Pending
  | [] => []
  | ⟨q, e⟩ :: rest => ⟨place, q.min, q.maxOrMin, e⟩ :: ofSequence (HashCode.mix place 1) rest

/-- What has been written, last first, and what is still to be written. -/
structure Path where
  written : List Atom
  pending : List Pending
deriving DecidableEq

namespace Path

/-- The code of a path comes from the atoms written, and from the places and numbers of copies
pending. -/
instance : Hashable Path where
  hash p :=
    let code := HashCode.mixAll hash 0 p.written
    HashCode.mixAll (fun w => HashCode.mix (HashCode.mix w.place (hash w.least)) (hash w.most)) code
      p.pending

/-- The paths on which an alternative of a pattern is begun, with `rest` pending after it.  The
first alternative stands inside the given place, the others in its neighbours. -/
def enter (written : List Atom) (rest : List Pending) (place : UInt64) : Pattern → List Path
  | [] => []
  | s :: p => ⟨written, Pending.ofSequence (HashCode.mix place 2) s ++ rest⟩ ::
      enter written rest (HashCode.mix place 3) p

/-- The paths on which one copy of an element at the given place is written or begun, with `rest`
pending after it. -/
def write (written : List Atom) (rest : List Pending) (place : UInt64) : Element → List Path
  | .symbol i => [⟨.symbol i :: written, rest⟩]
  | .literal c => [⟨.literal c :: written, rest⟩]
  | .oneOf members => members.map fun a => ⟨a :: written, rest⟩
  | .any => printableAscii.map fun c => ⟨.literal c :: written, rest⟩
  | .group p => enter written rest place p

/-- The paths that go on from one with `first` and then `rest` pending: those that stop writing
copies of `first` come before those that write one more. -/
def branches (written : List Atom) (first : Pending) (rest : List Pending) : List Path :=
  (if first.least = 0 then [⟨written, rest⟩] else []) ++
    match first.most with
    | 0 => []
    | most + 1 =>
      write written ({ first with least := first.least - 1, most } :: rest) first.place
        first.element

end Path

/-! ## The weight of a path -/

/-- The weight of up to `n` copies of an element and then a rest of weight `w`, when `one` gives the
weight of one copy before a rest. -/
def copiesWeight (one : Nat → Nat) : Nat → Nat → Nat
  | 0, w => 1 + w
  | n + 1, w => 1 + w + one (copiesWeight one n w)

mutual

/-- The weight of the paths that begin one copy of the element before a rest of weight `w`. -/
def Element.weight : Element → Nat → Nat
  | .symbol _, w | .literal _, w => w
  | .oneOf members, w => members.length * w
  | .any, w => printableAscii.length * w
  | .group p, w => Pattern.weight p w
termination_by structural e => e

/-- The weight of a path with the sequence and then a rest of weight `w` pending. -/
def Sequence.weight : Sequence → Nat → Nat
  | [], w => w
  | ⟨q, e⟩ :: rest, w => copiesWeight e.weight q.maxOrMin (Sequence.weight rest w)
termination_by structural s => s

/-- The weight of the paths that begin the pattern before a rest of weight `w`. -/
def Pattern.weight : Pattern → Nat → Nat
  | [], _ => 0
  | s :: rest, w => Sequence.weight s w + Pattern.weight rest w
termination_by structural p => p

end

/-- The weight of a path with these pending. -/
def pendingWeight : List Pending → Nat
  | [] => 1
  | first :: rest => copiesWeight first.element.weight first.most (pendingWeight rest)

/-- The total weight of a list of paths. -/
def totalWeight : List Path → Nat
  | [] => 0
  | path :: paths => pendingWeight path.pending + totalWeight paths

theorem totalWeight_append (xs ys : List Path) :
    totalWeight (xs ++ ys) = totalWeight xs + totalWeight ys := by
  induction xs with
  | nil => rw [List.nil_append, totalWeight, Nat.zero_add]
  | cons x xs ih => rw [List.cons_append, totalWeight, totalWeight, ih, Nat.add_assoc]

/-- No path weighs more than all together. -/
theorem pendingWeight_le_totalWeight {p : Path} {paths : List Path} (h : p ∈ paths) :
    pendingWeight p.pending ≤ totalWeight paths := by
  induction h with
  | head paths => exact Nat.le_add_right _ _
  | tail q _ ih => exact Nat.le_trans ih (Nat.le_add_left _ _)

private theorem totalWeight_map_const {α : Type} (f : α → Path) (ps : List Pending)
    (hf : ∀ x, (f x).pending = ps) (xs : List α) :
    totalWeight (xs.map f) = xs.length * pendingWeight ps := by
  induction xs with
  | nil => rw [List.map_nil, totalWeight, List.length_nil, Nat.zero_mul]
  | cons x rest ih =>
    rw [List.map_cons, totalWeight, ih, hf, List.length_cons, Nat.succ_mul, Nat.add_comm]

private theorem pendingWeight_ofSequence (place : UInt64) (s : Sequence) (rest : List Pending) :
    pendingWeight (Pending.ofSequence place s ++ rest) =
      Sequence.weight s (pendingWeight rest) := by
  induction s generalizing place with
  | nil => rfl
  | cons it s ih =>
    obtain ⟨q, e⟩ := it
    rw [Pending.ofSequence, List.cons_append, pendingWeight, ih, Sequence.weight]

private theorem totalWeight_enter (written : List Atom) (rest : List Pending) (place : UInt64)
    (p : Pattern) :
    totalWeight (Path.enter written rest place p) = Pattern.weight p (pendingWeight rest) := by
  induction p generalizing place with
  | nil => rfl
  | cons s p ih =>
    rw [Path.enter, totalWeight, pendingWeight_ofSequence, ih, Pattern.weight]

private theorem totalWeight_write (written : List Atom) (rest : List Pending) (place : UInt64)
    (e : Element) :
    totalWeight (Path.write written rest place e) = e.weight (pendingWeight rest) := by
  cases e with
  | symbol i => simp [totalWeight, Path.write, Element.weight]
  | literal c => simp [totalWeight, Path.write, Element.weight]
  | oneOf members =>
    rw [Path.write, Element.weight]
    exact totalWeight_map_const _ rest (fun _ => rfl) members
  | any =>
    rw [Path.write, Element.weight]
    exact totalWeight_map_const _ rest (fun _ => rfl) printableAscii
  | group p => exact totalWeight_enter ..

/-- The branches of a path together weigh less than the path. -/
theorem totalWeight_branches_lt (written : List Atom) (first : Pending) (rest : List Pending) :
    totalWeight (Path.branches written first rest) < pendingWeight (first :: rest) := by
  obtain ⟨place, least, most, e⟩ := first
  have hstop : totalWeight (if least = 0 then [⟨written, rest⟩] else []) ≤ pendingWeight rest := by
    split <;> simp [totalWeight]
  cases most with
  | zero =>
    simp only [Path.branches, pendingWeight, copiesWeight, List.append_nil]
    omega
  | succ most =>
    simp only [Path.branches, pendingWeight, copiesWeight, totalWeight_append, totalWeight_write]
    omega

/-- Every path weighs something. -/
theorem pendingWeight_pos (ps : List Pending) : 0 < pendingWeight ps := by
  cases ps with
  | nil => simp [pendingWeight]
  | cons p rest =>
    rw [pendingWeight]
    cases p.most <;> simp only [copiesWeight] <;> omega

/-! ## The search -/

/-- A search for candidates: the paths still to be followed, first one first, and the paths that
have been. -/
structure Search where
  stack : List Path
  seen : Std.HashSet Path

namespace Search

/-- The search for all candidates of a bounded pattern. -/
def start (p : Pattern) : Search := ⟨[⟨[], [⟨0, 1, 1, .group p⟩]⟩], ∅⟩

/-- What remains to be searched. -/
def weight (s : Search) : Nat := totalWeight s.stack

/-- The next candidate of a search with these paths, and the search after it. -/
def nextFrom? (seen : Std.HashSet Path) : (stack : List Path) → Option (List Atom × Search)
  | [] => none
  | path :: stack =>
    if seen.contains path then nextFrom? seen stack
    else
      match _hp : path.pending with
      | [] => some (path.written.reverse, ⟨stack, seen.insert path⟩)
      | first :: rest =>
        nextFrom? (seen.insert path) (Path.branches path.written first rest ++ stack)
termination_by stack => totalWeight stack
decreasing_by
  · have := pendingWeight_pos path.pending
    rw [totalWeight]
    omega
  · have := totalWeight_branches_lt path.written first rest
    rw [totalWeight, totalWeight_append, _hp]
    omega

/-- The next candidate, and the search after it. -/
def next? : Search → Option (List Atom × Search)
  | ⟨stack, seen⟩ => nextFrom? seen stack

private theorem weight_nextFrom?_lt {seen : Std.HashSet Path} {stack : List Path} {s : Search}
    {atoms : List Atom} (h : nextFrom? seen stack = some (atoms, s)) :
    s.weight < totalWeight stack := by
  fun_induction nextFrom? seen stack with
  | case1 => simp at h
  | case2 seen path stack _ ih =>
    have := ih h
    have hpos := pendingWeight_pos path.pending
    rw [totalWeight]
    omega
  | case3 seen path stack _ hp =>
    simp only [Option.some.injEq, Prod.mk.injEq] at h
    have hpos := pendingWeight_pos path.pending
    rw [← h.2]
    show totalWeight stack < totalWeight (path :: stack)
    rw [totalWeight]
    omega
  | case4 seen path stack _ first rest hp ih =>
    have := ih h
    have hlt := totalWeight_branches_lt path.written first rest
    rw [totalWeight_append] at this
    rw [totalWeight, hp]
    omega

/-- After a candidate there is less to search. -/
theorem weight_next?_lt {s s' : Search} {atoms : List Atom} (h : s.next? = some (atoms, s')) :
    s'.weight < s.weight :=
  weight_nextFrom?_lt h

end Search

/-- The search for the candidates of a pattern, unless a repetition in it has no greatest number. -/
def Pattern.candidates? (p : Pattern) : Option Search :=
  if p.isUnbounded then none else some (.start p)

end Confection
