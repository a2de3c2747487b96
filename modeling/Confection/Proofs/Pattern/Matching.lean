import Mathlib.Data.Finset.Card
import Mathlib.Data.List.GetD
import Confection.Pattern.Matching
import Confection.Proofs.Pattern.Language
import Confection.Proofs.Pattern.WellFormed

/-!
# Matching decides the language of a pattern

`Text.Reaches t l i j` says that a word of the language `l` stands between the positions `i` and `j`
of the text `t`.  A reader *reads* a language when it leads from a set of positions to exactly those
that a word of the language reaches from one of them.  The reader of every part of a pattern reads
the language of that part, and so `Pattern.accepts` decides the language of the pattern.

## Shape of a repetition

A quantifier is matched without counting the rounds of any one way through the text.  The least
number of rounds is taken by all positions together, and reads a power of the language.  What the
frontier does after that is said by `has_spread`: after up to `k` rounds the reached positions are
those that up to `k` words lead to.  The invariant that carries it is `Frontier`: only the positions
of the frontier can lead to a position that is not reached yet.

Without a greatest number of rounds there are as many rounds as the text has positions.  Every round
but the last reaches a new position, so `has_spread_of_missing_le` gives all powers.
-/

namespace Confection

/-! ## Words in a text -/

namespace Text

/-- The word `u` stands in the text from position `i` to position `j`. -/
def Spans (t : Text) (i : ℕ) (u : Text) (j : ℕ) : Prop :=
  i ≤ t.length ∧ u <+: t.drop i ∧ j = i + u.length

variable {t u v : Text} {i j k : ℕ}

theorem Spans.le_length (h : t.Spans i u j) : j ≤ t.length := by
  obtain ⟨hi, hu, rfl⟩ := h
  have := hu.length_le
  rw [List.length_drop] at this
  omega

theorem spans_nil : t.Spans i [] j ↔ i ≤ t.length ∧ j = i := by
  simp [Spans]

/-- A word made of two stands where the first is followed by the second. -/
theorem spans_append : t.Spans i (u ++ v) k ↔ ∃ j, t.Spans i u j ∧ t.Spans j v k := by
  constructor
  · rintro ⟨hi, ⟨w, hw⟩, rfl⟩
    have hu : t.Spans i u (i + u.length) := ⟨hi, ⟨v ++ w, by rw [← hw, List.append_assoc]⟩, rfl⟩
    refine ⟨i + u.length, hu, hu.le_length, ⟨w, ?_⟩, by simp [Nat.add_assoc]⟩
    rw [← List.drop_drop, ← hw, List.append_assoc, List.drop_left]
  · rintro ⟨j, ⟨hi, ⟨w, hw⟩, rfl⟩, -, ⟨x, hx⟩, rfl⟩
    refine ⟨hi, ⟨x, ?_⟩, by simp [Nat.add_assoc]⟩
    rw [← List.drop_drop, ← hw, List.drop_left] at hx
    rw [List.append_assoc, hx, hw]

/-- The word that stands from the start to the end is the text. -/
theorem spans_whole : t.Spans 0 u t.length ↔ u = t := by
  constructor
  · rintro ⟨-, hu, hlen⟩
    rw [List.drop_zero] at hu
    exact hu.eq_of_length (by omega)
  · rintro rfl
    exact ⟨Nat.zero_le _, by simp, by simp⟩

theorem spans_singleton {c : Char} : t.Spans i [c] j ↔ t[i]? = some c ∧ j = i + 1 := by
  by_cases hi : i < t.length
  · rw [Spans, List.drop_eq_getElem_cons hi, List.cons_prefix_cons]
    simp [hi, hi.le, eq_comm]
  · have hdrop : t.drop i = [] := List.drop_eq_nil_of_le (by omega)
    simp [Spans, hdrop, hi]

/-- A word of the language stands in the text from position `i` to position `j`. -/
def Reaches (t : Text) (l : Language Char) (i j : ℕ) : Prop := ∃ u ∈ l, t.Spans i u j

variable {l m : Language Char}

theorem Reaches.le_length (h : t.Reaches l i j) : j ≤ t.length := by
  obtain ⟨u, -, hu⟩ := h
  exact hu.le_length

theorem reaches_one : t.Reaches 1 i j ↔ i ≤ t.length ∧ j = i := by
  simp [Reaches, spans_nil]

theorem reaches_add : t.Reaches (l + m) i j ↔ t.Reaches l i j ∨ t.Reaches m i j := by
  simp only [Reaches, Language.mem_add, or_and_right, exists_or]

theorem reaches_mul : t.Reaches (l * m) i k ↔ ∃ j, t.Reaches l i j ∧ t.Reaches m j k := by
  simp only [Reaches, Language.mem_mul]
  constructor
  · rintro ⟨-, ⟨u, hu, v, hv, rfl⟩, h⟩
    obtain ⟨j, hj, hk⟩ := spans_append.1 h
    exact ⟨j, ⟨u, hu, hj⟩, v, hv, hk⟩
  · rintro ⟨j, ⟨u, hu, hj⟩, v, hv, hk⟩
    exact ⟨u ++ v, ⟨u, hu, v, hv, rfl⟩, spans_append.2 ⟨j, hj, hk⟩⟩

theorem reaches_powers {q : Quantifier} :
    t.Reaches (q.powers l) i j ↔ ∃ k, q.Allows k ∧ t.Reaches (l ^ k) i j := by
  simp only [Reaches, Quantifier.mem_powers]
  constructor
  · rintro ⟨u, ⟨k, hk, hu⟩, h⟩
    exact ⟨k, hk, u, hu, h⟩
  · rintro ⟨k, hk, u, hu, h⟩
    exact ⟨u, ⟨k, hk, hu⟩, h⟩

end Text

/-! ## Readers -/

/-- Are all the positions in a text of this length? -/
def Positions.Within (length : ℕ) (s : Positions) : Prop := ∀ i, s.has i = true → i ≤ length

/-- The reader leads to the positions that the words of the language reach, and to no others. -/
def Reader.Reads (t : Text) (r : Reader) (l : Language Char) : Prop :=
  ∀ s, s.Within t.length → ∀ j,
    (r.ends s).has j = true ↔ ∃ i, s.has i = true ∧ t.Reaches l i j

namespace Positions

variable {s u : Positions} {i : ℕ}

@[simp] theorem has_zero : has 0 i = false := Nat.zero_testBit i

@[simp] theorem has_or : has (s ||| u) i = (has s i || has u i) := Nat.testBit_or s u i

theorem eq_zero_iff : s = 0 ↔ ∀ i, has s i = false :=
  ⟨fun h i => by rw [h, has_zero], fun h => eq_of_has_eq fun i => by rw [h, has_zero]⟩

theorem has_start : start.has i = true ↔ i = 0 := by
  rw [start, has, show (1 : ℕ) = 2 ^ 0 from rfl, Nat.testBit_two_pow, decide_eq_true_iff, eq_comm]

theorem within_start (n : ℕ) : start.Within n := by
  intro i hi
  rw [has_start.1 hi]
  exact Nat.zero_le n

end Positions

namespace Reader

variable {t : Text} {a b r : Reader} {l m : Language Char}

theorem Reads.within (h : r.Reads t l) {s : Positions} (hs : s.Within t.length) :
    (r.ends s).Within t.length := by
  intro j hj
  obtain ⟨i, -, hr⟩ := (h s hs j).1 hj
  exact hr.le_length

theorem reads_nothing : nothing.Reads t 1 := by
  intro s hs j
  simp only [Text.reaches_one]
  constructor
  · intro h
    exact ⟨j, h, hs j h, rfl⟩
  · rintro ⟨i, h, -, rfl⟩
    exact h

theorem reads_never : never.Reads t 0 := by
  intro s _ j
  simp [never, Text.Reaches]

theorem Reads.andThen (ha : a.Reads t l) (hb : b.Reads t m) : (a.andThen b).Reads t (l * m) := by
  intro s hs k
  simp only [Reader.andThen, hb _ (ha.within hs), ha s hs, Text.reaches_mul]
  constructor
  · rintro ⟨j, ⟨i, hi, hij⟩, hjk⟩
    exact ⟨i, hi, j, hij, hjk⟩
  · rintro ⟨i, hi, j, hij, hjk⟩
    exact ⟨j, ⟨i, hi, hij⟩, hjk⟩

theorem Reads.orElse (ha : a.Reads t l) (hb : b.Reads t m) : (a.orElse b).Reads t (l + m) := by
  intro s hs j
  simp only [Reader.orElse, Positions.has_or, Bool.or_eq_true, ha s hs, hb s hs, Text.reaches_add,
    and_or_left, exists_or]

/-! ## Repetition -/

/-- A number of rounds reads as many words. -/
theorem Reads.rounds (h : r.Reads t l) (k : ℕ) :
    Reads t ⟨Positions.rounds r.ends k⟩ (l ^ k) := by
  induction k with
  | zero => exact reads_nothing
  | succ k ih =>
    intro s hs j
    simp only [Positions.rounds]
    split
    · -- from no position nothing is reached, however many rounds are left
      next h0 => simp [h0]
    · rw [pow_succ']
      exact h.andThen ih s hs j

/-- The state between two rounds: the frontier is part of what is reached, and from the positions
that are not in it no word leads to a new one. -/
structure Frontier (t : Text) (l : Language Char) (reached frontier : Positions) : Prop where
  within : reached.Within t.length
  sub : ∀ i, frontier.has i = true → reached.has i = true
  closed : ∀ i j, reached.has i = true → frontier.has i = false → t.Reaches l i j →
    reached.has j = true

/-- The positions that a round from the frontier reaches for the first time. -/
private def new (r : Reader) (reached frontier : Positions) : Positions :=
  (r.ends frontier).without reached

section

variable {reached frontier : Positions} {i j : ℕ}

private theorem has_new (h : r.Reads t l) (hf : Frontier t l reached frontier) :
    (r.new reached frontier).has j = true ↔
      (∃ i, frontier.has i = true ∧ t.Reaches l i j) ∧ reached.has j = false := by
  have hwithin : frontier.Within t.length := fun i hi => hf.within i (hf.sub i hi)
  rw [new, Positions.has_without, Bool.and_eq_true, h frontier hwithin, Bool.not_eq_true']

/-- One word from a reached position leads to a position that is reached after the next round. -/
private theorem Frontier.reached_of_reaches (hf : Frontier t l reached frontier)
    (h : r.Reads t l) (hi : reached.has i = true) (hij : t.Reaches l i j) :
    (reached ||| r.new reached frontier).has j = true := by
  rw [Positions.has_or, Bool.or_eq_true, has_new h hf]
  by_cases hj : reached.has j = true
  · exact Or.inl hj
  · refine Or.inr ⟨⟨i, ?_, hij⟩, by simpa using hj⟩
    by_contra hfi
    exact hj (hf.closed i j hi (by simpa using hfi) hij)

/-- A round keeps the invariant. -/
private theorem Frontier.advance (hf : Frontier t l reached frontier) (h : r.Reads t l) :
    Frontier t l (reached ||| r.new reached frontier) (r.new reached frontier) where
  within j hj := by
    rw [Positions.has_or, Bool.or_eq_true, has_new h hf] at hj
    rcases hj with hj | ⟨⟨i, -, hij⟩, -⟩
    · exact hf.within j hj
    · exact hij.le_length
  sub j hj := by rw [Positions.has_or, hj, Bool.or_true]
  closed i j hi hnew hij := by
    rw [Positions.has_or, hnew, Bool.or_false] at hi
    exact hf.reached_of_reaches h hi hij

/-- A position reached for the first time is one word away from a reached one. -/
private theorem Frontier.exists_reaches_of_new (hf : Frontier t l reached frontier)
    (h : r.Reads t l) (hj : (reached ||| r.new reached frontier).has j = true) :
    reached.has j = true ∨ ∃ i, reached.has i = true ∧ t.Reaches l i j := by
  rw [Positions.has_or, Bool.or_eq_true, has_new h hf] at hj
  rcases hj with hj | ⟨⟨i, hi, hij⟩, -⟩
  · exact Or.inl hj
  · exact Or.inr ⟨i, hf.sub i hi, hij⟩

/-- With nothing in the frontier, words lead only to what is reached. -/
private theorem Frontier.has_of_reaches_pow (hf : Frontier t l reached 0) {n : ℕ}
    (hi : reached.has i = true) (hij : t.Reaches (l ^ n) i j) : reached.has j = true := by
  induction n generalizing i with
  | zero =>
    rw [pow_zero, Text.reaches_one] at hij
    rwa [hij.2]
  | succ n ih =>
    rw [pow_succ', Text.reaches_mul] at hij
    obtain ⟨i', hii', hij⟩ := hij
    exact ih (hf.closed i i' hi Positions.has_zero hii') hij

private theorem reaches_pow_zero_self (hf : Frontier t l reached frontier)
    (hj : reached.has j = true) :
    t.Reaches (l ^ 0) j j := by
  rw [pow_zero, Text.reaches_one]
  exact ⟨hf.within j hj, rfl⟩

private theorem spread_succ (r : Reader) (k : ℕ) (reached frontier : Positions) :
    Positions.spread r.ends (k + 1) reached frontier =
      if frontier = 0 then reached
      else Positions.spread r.ends k (reached ||| r.new reached frontier)
        (r.new reached frontier) := rfl

/-- Up to `k` further rounds reach what up to `k` words lead to from the reached positions. -/
theorem has_spread (h : r.Reads t l) (k : ℕ) (hf : Frontier t l reached frontier) :
    (Positions.spread r.ends k reached frontier).has j = true ↔
      ∃ n ≤ k, ∃ i, reached.has i = true ∧ t.Reaches (l ^ n) i j := by
  induction k generalizing reached frontier with
  | zero =>
    rw [Positions.spread]
    constructor
    · intro hj
      exact ⟨0, le_refl 0, j, hj, reaches_pow_zero_self hf hj⟩
    · rintro ⟨n, hn, i, hi, hij⟩
      rw [Nat.le_zero.1 hn, pow_zero, Text.reaches_one] at hij
      rwa [hij.2]
  | succ k ih =>
    rw [spread_succ]
    split
    · -- no round follows, and no number of words leads further
      next h0 =>
      subst h0
      constructor
      · intro hj
        exact ⟨0, Nat.zero_le _, j, hj, reaches_pow_zero_self hf hj⟩
      · rintro ⟨n, -, i, hi, hij⟩
        exact hf.has_of_reaches_pow hi hij
    · rw [ih (hf.advance h)]
      constructor
      · rintro ⟨n, hn, i, hi, hij⟩
        rcases hf.exists_reaches_of_new h hi with hi | ⟨i', hi', hii'⟩
        · exact ⟨n, by omega, i, hi, hij⟩
        · -- the position that the words start from is itself one word away
          refine ⟨n + 1, by omega, i', hi', ?_⟩
          rw [pow_succ', Text.reaches_mul]
          exact ⟨i, hii', hij⟩
      · rintro ⟨n, hn, i, hi, hij⟩
        by_cases hnk : n ≤ k
        · exact ⟨n, hnk, i, by simp [hi], hij⟩
        · -- the first of `k + 1` words leads to a position that the round has reached
          obtain rfl : n = k + 1 := by omega
          rw [pow_succ', Text.reaches_mul] at hij
          obtain ⟨i', hii', hij⟩ := hij
          exact ⟨k, le_refl k, i', hf.reached_of_reaches h hi hii', hij⟩

/-- The positions of the text that are not reached. -/
private def missing (t : Text) (reached : Positions) : Finset ℕ :=
  (Finset.range (t.length + 1)).filter fun i => reached.has i = false

/-- A round that reaches anything new leaves fewer positions. -/
private theorem Frontier.card_missing_lt (hf : Frontier t l reached frontier) (h : r.Reads t l)
    (hnew : r.new reached frontier ≠ 0) :
    (missing t (reached ||| r.new reached frontier)).card < (missing t reached).card := by
  obtain ⟨j, hj⟩ : ∃ j, (r.new reached frontier).has j = true := by
    by_contra hno
    exact hnew (Positions.eq_zero_iff.2 fun j => by simpa using not_exists.1 hno j)
  refine Finset.card_lt_card ⟨fun i hi => ?_, fun hsub => ?_⟩
  · simp only [missing, Finset.mem_filter, Positions.has_or, Bool.or_eq_false_iff] at hi ⊢
    exact ⟨hi.1, hi.2.1⟩
  · have hjt : j ≤ t.length := (hf.advance h).within j (by simp [hj])
    have hmem : j ∈ missing t reached := by
      simp only [missing, Finset.mem_filter, Finset.mem_range]
      exact ⟨by omega, ((has_new h hf).1 hj).2⟩
    have := hsub hmem
    simp [missing, hj] at this

private theorem spread_zero (step : Positions → Positions) (k : ℕ) (reached : Positions) :
    Positions.spread step k reached 0 = reached := by
  cases k <;> simp [Positions.spread]

/-- As many rounds as there are positions left reach what any number of words lead to. -/
theorem has_spread_of_missing_le (h : r.Reads t l) {k : ℕ} (hf : Frontier t l reached frontier)
    (hk : (missing t reached).card ≤ k) :
    (Positions.spread r.ends k reached frontier).has j = true ↔
      ∃ n, ∃ i, reached.has i = true ∧ t.Reaches (l ^ n) i j := by
  constructor
  · intro hj
    obtain ⟨n, -, hn⟩ := (has_spread h k hf).1 hj
    exact ⟨n, hn⟩
  rintro ⟨n, i, hi, hij⟩
  induction k generalizing reached frontier n i with
  | zero =>
    -- all positions of the text are reached
    rw [Nat.le_zero, Finset.card_eq_zero] at hk
    by_contra hj
    have hmem : j ∈ missing t reached := by
      simp only [missing, Finset.mem_filter, Finset.mem_range]
      exact ⟨Nat.lt_succ_of_le hij.le_length, by simpa [Positions.spread] using hj⟩
    rw [hk] at hmem
    exact Finset.notMem_empty j hmem
  | succ k ih =>
    rw [spread_succ]
    split
    · next h0 => subst h0; exact hf.has_of_reaches_pow hi hij
    · have hf' := hf.advance h
      have hi' : (reached ||| r.new reached frontier).has i = true := by simp [hi]
      by_cases hnew : r.new reached frontier = 0
      · -- the round reaches nothing new, so what is reached is closed under words
        rw [hnew] at hf' hi' ⊢
        rw [spread_zero]
        exact hf'.has_of_reaches_pow hi' hij
      · have hlt := hf.card_missing_lt h hnew
        exact ih hf' (by omega) n i hi' hij

end

/-- The rounds after the least number reach what as many words lead to as the quantifier still
allows. -/
private theorem has_spread_of_ordered {q : Quantifier} (h : r.Reads t l) (hq : q.Ordered)
    {reached frontier : Positions} {j : ℕ} (hf : Frontier t l reached frontier) :
    (Positions.spread r.ends ((q.max?.map (· - q.min)).getD (t.length + 1)) reached frontier).has j
        = true ↔
      ∃ n, (∀ m ∈ q.max?, q.min + n ≤ m) ∧
        ∃ i, reached.has i = true ∧ t.Reaches (l ^ n) i j := by
  cases hmax : q.max? with
  | none =>
    have hmissing : (missing t reached).card ≤ t.length + 1 :=
      (Finset.card_filter_le _ _).trans_eq (Finset.card_range _)
    simp [has_spread_of_missing_le h hf hmissing]
  | some m =>
    have hle : q.min ≤ m := hq m hmax
    rw [Option.map_some, Option.getD_some, has_spread h _ hf]
    refine exists_congr fun n => and_congr_left fun _ => ?_
    simp only [Option.mem_some_iff, forall_eq']
    omega

/-- Repeating a reader as the quantifier says reads the powers of its language. -/
theorem Reads.times {q : Quantifier} (h : r.Reads t l) (hq : q.Ordered) :
    (r.times t.length q).Reads t (q.powers l) := by
  intro s hs j
  have hrounds := h.rounds q.min
  -- right after the least number of rounds all reached positions are in the frontier
  have hf : Frontier t l (Positions.rounds r.ends q.min s) (Positions.rounds r.ends q.min s) :=
    ⟨hrounds.within hs, fun _ hi => hi, fun i _ hi hnot => by rw [hi] at hnot; cases hnot⟩
  simp only [Reader.times, Positions.repeated, Text.reaches_powers]
  rw [has_spread_of_ordered h hq hf]
  -- `k` repetitions are the least number of them and then `n` more
  constructor
  · rintro ⟨n, hn, i', hi', hij⟩
    obtain ⟨i, hi, hii'⟩ := (hrounds s hs i').1 hi'
    refine ⟨i, hi, q.min + n, ⟨Nat.le_add_right _ _, hn⟩, ?_⟩
    rw [pow_add, Text.reaches_mul]
    exact ⟨i', hii', hij⟩
  · rintro ⟨i, hi, k, ⟨hmin, hmax⟩, hij⟩
    obtain ⟨n, rfl⟩ := Nat.exists_eq_add_of_le hmin
    rw [pow_add, Text.reaches_mul] at hij
    obtain ⟨i', hii', hij⟩ := hij
    exact ⟨n, hmax, i', (hrounds s hs i').2 ⟨i, hi, hii'⟩, hij⟩

/-! ## Hops -/

/-- Hops of one length read the language whose words stand where the hops are marked. -/
private theorem reads_hop {length : ℕ} {marks : Positions}
    (h : ∀ i j, t.Reaches l i j ↔ marks.has i = true ∧ j = i + length) :
    (ofHops [(length, marks)]).Reads t l := by
  intro s _ j
  simp only [ofHops, Hops.reach_cons, Hops.reach_nil, Nat.zero_or, Positions.has_hop, h,
    Bool.and_eq_true, decide_eq_true_eq]
  constructor
  · rintro ⟨hle, hs, hm⟩
    exact ⟨j - length, hs, hm, by omega⟩
  · rintro ⟨i, hs, hm, rfl⟩
    rw [Nat.add_sub_cancel]
    exact ⟨Nat.le_add_left _ _, hs, hm⟩

theorem reads_startsOf (u : Text) :
    (ofHops [(u.length, (Marks.ofText t).startsOf u)]).Reads t (listed [u]) := by
  refine reads_hop fun i j => ?_
  rw [Marks.has_startsOf, Bool.and_eq_true, decide_eq_true_eq, List.isPrefixOf_iff_prefix]
  simp [Text.Reaches, mem_listed, Text.Spans, and_assoc]

theorem reads_placesOf (c : Char) :
    (ofHops [(1, (Marks.ofText t).placesOf c)]).Reads t (listed [[c]]) := by
  refine reads_hop fun i j => ?_
  rw [Marks.has_placesOf, beq_iff_eq]
  simp [Text.Reaches, mem_listed, Text.spans_singleton]

theorem reads_printable :
    (ofHops [(1, (Marks.ofText t).printable)]).Reads t
      {w | ∃ c : Char, (0x20 ≤ c.toNat ∧ c.toNat ≤ 0x7E) ∧ w ∈ listed [[c]]} := by
  refine reads_hop fun i j => ?_
  rw [show (Marks.ofText t).printable =
      t.occurrences fun c => 0x20 ≤ c.toNat && c.toNat ≤ 0x7E from rfl, Text.has_occurrences,
    Option.any_eq_true]
  constructor
  · rintro ⟨w, ⟨c, hc, hw⟩, hspan⟩
    obtain rfl := List.mem_singleton.1 hw
    obtain ⟨hi, hj⟩ := Text.spans_singleton.1 hspan
    exact ⟨⟨c, hi, by simpa using hc⟩, hj⟩
  · rintro ⟨⟨c, hi, hc⟩, hj⟩
    exact ⟨[c], ⟨c, by simpa using hc, by simp [mem_listed]⟩, Text.spans_singleton.2 ⟨hi, hj⟩⟩

variable {h further : Hops}

/-- Adding hops adds what they read. -/
theorem Reads.addAll (hl : (ofHops h).Reads t l) (hm : (ofHops further).Reads t m) :
    (ofHops (h.addAll further)).Reads t (l + m) := by
  have heq : ofHops (h.addAll further) = (ofHops h).orElse (ofHops further) :=
    congrArg Reader.mk (funext (Hops.reach_addAll h further))
  rw [heq]
  exact hl.orElse hm

/-- Adding hops of one length adds what they read. -/
theorem Reads.add {length : ℕ} {marks : Positions} (hl : (ofHops h).Reads t l)
    (hm : (ofHops [(length, marks)]).Reads t m) : (ofHops (h.add length marks)).Reads t (l + m) :=
  hl.addAll hm

theorem reads_hopsOver (us : List Text) :
    (ofHops ((Marks.ofText t).hopsOver us)).Reads t (listed us) := by
  suffices key : ∀ (h : Hops) (l : Language Char), (ofHops h).Reads t l →
      (ofHops (us.foldl (fun h u => h.add u.length ((Marks.ofText t).startsOf u)) h)).Reads t
        (l + listed us) by
    have := key [] 0 reads_never
    rwa [zero_add] at this
  induction us with
  | nil => intro h l hl; rwa [listed_nil, add_zero]
  | cons u us ih =>
    intro h l hl
    rw [List.foldl_cons, listed_cons, ← add_assoc]
    exact ih _ _ (hl.add (reads_startsOf u))

variable {values : SymbolValues}

/-- The hops over the values of a symbol, by the symbol's number. -/
theorem reads_symbol (i : ℕ) :
    (ofHops ((values.map (Marks.ofText t).hopsOver).getD i [])).Reads t
      ((Atom.symbol i).strings values) := by
  rw [show ([] : Hops) = (Marks.ofText t).hopsOver [] from rfl, List.getD_map]
  exact reads_hopsOver _

/-- The step of `Marks.hopsOverAtoms`, which adds the hops over what an atom may become. -/
private def addAtom (m : Marks) (symbols : List Hops) (h : Hops) : Atom → Hops
  | .symbol i => h.addAll (symbols.getD i [])
  | .literal c => h.add 1 (m.placesOf c)

private theorem Reads.addAtom (hl : (ofHops h).Reads t l) (a : Atom) :
    (ofHops (addAtom (.ofText t) (values.map (Marks.ofText t).hopsOver) h a)).Reads t
      (l + a.strings values) := by
  cases a with
  | symbol i => exact hl.addAll (reads_symbol i)
  | literal c => exact hl.add (reads_placesOf c)

theorem reads_hopsOverAtoms (members : List Atom) :
    (ofHops ((Marks.ofText t).hopsOverAtoms (values.map (Marks.ofText t).hopsOver) members)).Reads t
      ((Element.oneOf members).language (Atom.strings values)) := by
  suffices key : ∀ (h : Hops) (l : Language Char), (ofHops h).Reads t l →
      (ofHops (members.foldl (addAtom (.ofText t) (values.map (Marks.ofText t).hopsOver)) h)).Reads
        t (l + (Element.oneOf members).language (Atom.strings values)) by
    have := key [] 0 reads_never
    rwa [zero_add] at this
  have hcons (a : Atom) (rest : List Atom) :
      (Element.oneOf (a :: rest)).language (Atom.strings values) =
        a.strings values + (Element.oneOf rest).language (Atom.strings values) := by
    ext w
    simp [Element.mem_language_oneOf, Language.mem_add]
  induction members with
  | nil =>
    intro h l hl
    have hnil : (Element.oneOf []).language (Atom.strings values) = 0 := by
      ext w
      simp [Element.mem_language_oneOf]
    rwa [hnil, add_zero]
  | cons a rest ih =>
    intro h l hl
    rw [List.foldl_cons, hcons, ← add_assoc]
    exact ih _ _ (hl.addAtom a)

end Reader

/-! ## The parts of a pattern -/

section

variable {n : ℕ} (t : Text) (values : SymbolValues)

mutual

/-- The reader of an element reads its language. -/
theorem Element.reads_reader : ∀ e : Element, e.WellFormed n →
    (e.reader (.ofText t) (values.map (Marks.ofText t).hopsOver)).Reads t
      (e.language (Atom.strings values))
  | .symbol i, _ => Reader.reads_symbol i
  | .literal c, _ => Reader.reads_placesOf c
  | .oneOf members, _ => Reader.reads_hopsOverAtoms members
  | .any, _ => Reader.reads_printable
  | .group p, h => Pattern.reads_reader p h.2

/-- The reader of a sequence reads its language. -/
theorem Sequence.reads_reader : ∀ s : Sequence, Sequence.WellFormed n s →
    (Sequence.reader (.ofText t) (values.map (Marks.ofText t).hopsOver) s).Reads t
      (Sequence.language (Atom.strings values) s)
  | [], _ => Reader.reads_nothing
  | ⟨_, e⟩ :: rest, h =>
    ((e.reads_reader h.1.2).times h.1.1).andThen (Sequence.reads_reader rest h.2)

/-- The reader of a pattern reads its language. -/
theorem Pattern.reads_reader : ∀ p : Pattern, Pattern.AlternativesWellFormed n p →
    (Pattern.reader (.ofText t) (values.map (Marks.ofText t).hopsOver) p).Reads t
      (Pattern.language (Atom.strings values) p)
  | [], _ => Reader.reads_never
  | s :: rest, h => (Sequence.reads_reader s h.1).orElse (Pattern.reads_reader rest h.2)

end

end

/-- A well-formed pattern accepts exactly the texts of its language. -/
theorem Pattern.accepts_iff {n : ℕ} {p : Pattern} (h : p.WellFormed n) (values : SymbolValues)
    (t : Text) : p.accepts values t = true ↔ t ∈ p.language (Atom.strings values) := by
  rw [Pattern.accepts, Pattern.reads_reader t values p h.2 _ (Positions.within_start _)]
  simp only [Positions.has_start, exists_eq_left, Text.Reaches, Text.spans_whole,
    exists_eq_right]

/-- A pattern that is read from a text accepts exactly the texts of its language, whatever the
values of its symbols are. -/
theorem Pattern.accepts_iff_of_parse {text : Text} {symbols : List Char} {limit : ℕ} {p : Pattern}
    (h : Pattern.parse text symbols limit = .ok p) (values : SymbolValues) (t : Text) :
    p.accepts values t = true ↔ t ∈ p.language (Atom.strings values) :=
  Pattern.accepts_iff (Pattern.wellFormed_of_parse h) values t

/-- A repeated group that can match nothing, with an empty value and with one value that begins
another. -/
theorem Pattern.accepts_iff_of_parse_nullable :
    let p : Pattern :=
      [[⟨.oneOrMore, .group [[⟨.optional, .symbol 0⟩, ⟨.zeroOrMore, .symbol 1⟩]]⟩, ⟨.once, .any⟩]]
    Pattern.parse ['(', 'a', '?', 'b', '*', ')', '+', '.'] ['a', 'b'] 1 = .ok p ∧
      p.accepts [[[], ['x', 'y']], [['x']]] ['x', 'y', '!'] = true := by
  intro p
  have hparse : Pattern.parse ['(', 'a', '?', 'b', '*', ')', '+', '.'] ['a', 'b'] 1 = .ok p := by
    cbv
  refine ⟨hparse, ?_⟩
  rw [Pattern.accepts_iff_of_parse hparse]
  -- the group reads the longer value once and then nothing
  refine Or.inl ⟨['x', 'y'], ?_, ['!'], ?_, rfl⟩
  · rw [Quantifier.powers_oneOrMore]
    refine Language.append_mem_mul (a := ['x', 'y']) ?_ (Language.nil_mem_kstar _)
    refine Or.inl ⟨['x', 'y'], ?_, [], ?_, rfl⟩
    · rw [Quantifier.powers_optional]
      exact Or.inr (List.mem_cons_of_mem _ (List.mem_singleton_self _))
    · rw [Sequence.language, Quantifier.powers_zeroOrMore]
      exact Language.append_mem_mul (Language.nil_mem_kstar _) Language.nil_mem_one
  · rw [Sequence.language, Quantifier.powers_once]
    exact ⟨['!'], ⟨'!', by decide, List.mem_singleton_self _⟩, [], Language.nil_mem_one, rfl⟩

end Confection
