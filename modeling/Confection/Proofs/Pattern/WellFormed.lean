import Confection.Proofs.Pattern.Steps
import Confection.Proofs.Pattern.Language
import Confection.Proofs.Traversal

/-!
# Patterns that are read are well-formed

Not every tree is a sensible pattern: a group could have no alternative, a class no member, a symbol
no ingredient behind it, and a quantifier bounds that run downwards.  `Element.WellFormed` excludes
these at every depth, and `Pattern.wellFormed_of_parse` says that reading a text never yields them.

## Shape of the proof

Reading goes through three lists, and each has its own notion of being well-formed.

* A token is well-formed when the symbol it carries is one, and when the set it stands for has
  members.  Every reader takes its tokens from the front, so what it leaves is a suffix and
  well-formed again.
* A lexeme is well-formed when the element or the quantifier in it is.
* A draft is well-formed when all its layers are, and reading one more lexeme keeps it so.
-/

namespace Confection

/-- The bounds of the quantifier do not run downwards. -/
def Quantifier.Ordered (q : Quantifier) : Prop := ∀ m ∈ q.max?, q.min ≤ m

/-- Is the symbol that the atom may be one of `n`? -/
def Atom.InRange (n : ℕ) : Atom → Prop
  | .symbol i => i < n
  | .literal _ => True

mutual

/-- Is the element well-formed, with `n` symbols? -/
def Element.WellFormed (n : ℕ) : Element → Prop
  | .symbol i => i < n
  | .literal _ | .any => True
  | .oneOf members => members ≠ [] ∧ members.Nodup ∧ ∀ a ∈ members, a.InRange n
  | .group p => p ≠ [] ∧ Pattern.AlternativesWellFormed n p
termination_by structural e => e

/-- Are all items of the sequence well-formed? -/
def Sequence.WellFormed (n : ℕ) : Sequence → Prop
  | [] => True
  | ⟨q, e⟩ :: rest => (q.Ordered ∧ e.WellFormed n) ∧ Sequence.WellFormed n rest
termination_by structural s => s

/-- Are all alternatives of the pattern well-formed? -/
def Pattern.AlternativesWellFormed (n : ℕ) : Pattern → Prop
  | [] => True
  | s :: rest => Sequence.WellFormed n s ∧ Pattern.AlternativesWellFormed n rest
termination_by structural p => p

end

/-- Is the pattern well-formed, with `n` symbols?  It has an alternative, and all of them are. -/
def Pattern.WellFormed (n : ℕ) (p : Pattern) : Prop := p ≠ [] ∧ Pattern.AlternativesWellFormed n p

/-- Is the item well-formed, with `n` symbols? -/
def Item.WellFormed (n : ℕ) (it : Item) : Prop := it.quantifier.Ordered ∧ it.element.WellFormed n

variable {n : ℕ}

theorem Sequence.wellFormed_iff {s : Sequence} :
    Sequence.WellFormed n s ↔ ∀ it ∈ s, it.WellFormed n := by
  induction s with
  | nil => simp [Sequence.WellFormed]
  | cons it rest ih =>
    obtain ⟨q, e⟩ := it
    rw [Sequence.WellFormed, ih, List.forall_mem_cons, Item.WellFormed]

theorem Pattern.alternativesWellFormed_iff {p : Pattern} :
    Pattern.AlternativesWellFormed n p ↔ ∀ s ∈ p, Sequence.WellFormed n s := by
  induction p with
  | nil => simp [Pattern.AlternativesWellFormed]
  | cons s rest ih => rw [Pattern.AlternativesWellFormed, ih, List.forall_mem_cons]

/-! ## Words of a well-formed pattern -/

section

variable {α : Type*} {P : α → Prop}

/-- What holds of all letters of the words of two languages holds of those of their product. -/
theorem forall_mem_mul {l m : Language α} (hl : ∀ w ∈ l, ∀ a ∈ w, P a)
    (hm : ∀ w ∈ m, ∀ a ∈ w, P a) : ∀ w ∈ l * m, ∀ a ∈ w, P a := by
  rintro w ⟨u, hu, v, hv, rfl⟩
  exact List.forall_mem_append.2 ⟨hl u hu, hm v hv⟩

theorem forall_mem_powers {l : Language α} (hl : ∀ w ∈ l, ∀ a ∈ w, P a) (q : Quantifier) :
    ∀ w ∈ q.powers l, ∀ a ∈ w, P a := by
  have hpow (k : ℕ) : ∀ w ∈ l ^ k, ∀ a ∈ w, P a := by
    induction k with
    | zero => rintro w rfl a ha; cases ha
    | succ k ih => rw [pow_succ]; exact forall_mem_mul ih hl
  rintro w ⟨k, -, hw⟩
  exact hpow k w hw

end

mutual

theorem Element.inRange_of_mem_language : ∀ e : Element, e.WellFormed n →
    ∀ w ∈ e.language Atom.alone, ∀ a ∈ w, a.InRange n
  | .symbol _, h, _, rfl, _, ha => by rwa [List.mem_singleton.1 ha]
  | .literal _, _, _, rfl, _, ha => by rw [List.mem_singleton.1 ha]; trivial
  | .oneOf _, h, _, ⟨b, hb, rfl⟩, _, ha => by rw [List.mem_singleton.1 ha]; exact h.2.2 b hb
  | .any, _, _, ⟨_, _, rfl⟩, _, ha => by rw [List.mem_singleton.1 ha]; trivial
  | .group p, h, w, hw, a, ha => Pattern.inRange_of_mem_language p h.2 w hw a ha

theorem Sequence.inRange_of_mem_language : ∀ s : Sequence, Sequence.WellFormed n s →
    ∀ w ∈ Sequence.language Atom.alone s, ∀ a ∈ w, a.InRange n
  | [], _, _, rfl, _, ha => by cases ha
  | ⟨q, e⟩ :: rest, h, w, hw, a, ha =>
    forall_mem_mul (forall_mem_powers (e.inRange_of_mem_language h.1.2) q)
      (Sequence.inRange_of_mem_language rest h.2) w hw a ha

/-- The symbols in a candidate of a well-formed pattern are in range. -/
theorem Pattern.inRange_of_mem_language : ∀ p : Pattern, Pattern.AlternativesWellFormed n p →
    ∀ w ∈ Pattern.language Atom.alone p, ∀ a ∈ w, a.InRange n
  | [], _, _, hw, _, _ => absurd hw (Language.notMem_zero _)
  | s :: _, h, w, Or.inl hw, a, ha => Sequence.inRange_of_mem_language s h.1 w hw a ha
  | _ :: rest, h, w, Or.inr hw, a, ha => Pattern.inRange_of_mem_language rest h.2 w hw a ha

end

namespace Pattern

/-! ## Tokens -/

/-- Is the symbol that the token carries one of `n`, and does the set that it stands for have
members, each once? -/
def Token.WellFormed (n : ℕ) : Token → Prop
  | .char _ i => ∀ k ∈ i, k < n
  | .escape (.set cs) => cs ≠ [] ∧ cs.Nodup
  | .escape (.char _) | .malformed _ => True

private theorem lt_of_idxOf? {symbols : List Char} {c : Char} {k : ℕ}
    (h : symbols.idxOf? c = some k) : k < symbols.length := by
  obtain ⟨hk, -⟩ := List.idxOf?_eq_some_iff.1 h
  exact hk

theorem Token.wellFormed_ofEscape (c : Char) : (Token.ofEscape c).WellFormed n := by
  unfold Token.ofEscape Escape.ofChar?
  split
  · next e he =>
    split at he
    -- the three sets that an escape can stand for are fixed lists
    case h_7 => cases he; exact ⟨by decide, by decide⟩
    case h_8 => cases he; exact ⟨by decide, by decide⟩
    case h_9 => cases he; exact ⟨by decide, by decide⟩
    case h_10 =>
      split at he
      · cases he
      · cases he; trivial
    all_goals cases he; trivial
  · trivial

private theorem Token.wellFormed_ofHex (a b : Char) : (Token.ofHex a b).WellFormed n := by
  unfold Token.ofHex
  split <;> trivial

/-- The tokens of a text are well-formed. -/
theorem wellFormed_tokens (symbols : List Char) (t : Text) :
    ∀ tok ∈ tokens symbols t, tok.WellFormed symbols.length := by
  fun_induction tokens symbols t with
  | case1 => simp
  | case2 => simp [Token.WellFormed]
  | case3 => simp [Token.WellFormed]
  | case4 => simp [Token.WellFormed]
  | case5 a b rest ih => exact List.forall_mem_cons.2 ⟨Token.wellFormed_ofHex a b, ih⟩
  | case6 d rest _ ih => exact List.forall_mem_cons.2 ⟨Token.wellFormed_ofEscape d, ih⟩
  | case7 c rest _ ih => exact List.forall_mem_cons.2 ⟨fun k hk => lt_of_idxOf? hk, ih⟩

/-- Well-formedness of tokens passes to what a reader leaves. -/
theorem wellFormed_of_suffix {rest ts : List Token} (hrest : rest <:+ ts)
    (hts : ∀ tok ∈ ts, tok.WellFormed n) : ∀ tok ∈ rest, tok.WellFormed n :=
  fun tok htok => hts tok (hrest.subset htok)

/-! ## Bounds -/

namespace Bounds

private theorem readNumber_suffix {ts rest : List Token} {k : Option ℕ}
    (h : readNumber ts = .ok (k, rest)) : rest <:+ ts := by
  rw [← dropWhile_of_readNumber h]
  exact List.dropWhile_suffix _

/-- Expecting a character leaves a suffix. -/
theorem expect_suffix {c : Char} {ts rest : List Token} (h : expect c ts = .ok rest) :
    rest <:+ ts := by
  obtain ⟨t, -, rfl⟩ := expect_eq_ok_iff.1 h
  exact List.suffix_cons t _

private theorem ofPair_ordered {first second : Option ℕ} {q : Quantifier}
    (h : ofPair first second = .ok q) : q.Ordered := by
  unfold ofPair at h
  split at h
  · cases h; simp [Quantifier.Ordered, Quantifier.max?]
  · cases h; simp [Quantifier.Ordered, Quantifier.max?]
  · cases h; simp [Quantifier.Ordered, Quantifier.max?, Quantifier.min]
  · split at h
    · next hle => cases h; simpa [Quantifier.Ordered, Quantifier.max?, Quantifier.min] using hle
    · cases h

/-- Bounds that are read do not run downwards, and a suffix is left after them. -/
theorem read_spec {ts rest : List Token} {q : Quantifier} (h : read ts = .ok (q, rest)) :
    q.Ordered ∧ rest <:+ ts := by
  unfold read at h
  obtain ⟨⟨first, rest₁⟩, hfirst, h⟩ := bind_eq_ok.1 h
  have h₁ := readNumber_suffix hfirst
  dsimp only at h
  split at h
  · cases first with
    | none => cases h
    | some k =>
      cases h
      exact ⟨by simp [Quantifier.Ordered, Quantifier.max?, Quantifier.min],
        (List.tail_suffix _).trans h₁⟩
  · obtain ⟨rest₂, hcomma, h⟩ := bind_eq_ok.1 h
    obtain ⟨⟨second, rest₃⟩, hsecond, h⟩ := bind_eq_ok.1 h
    obtain ⟨rest₄, hclose, h⟩ := bind_eq_ok.1 h
    obtain ⟨q', hq, h⟩ := bind_eq_ok.1 h
    cases h
    exact ⟨ofPair_ordered hq, (expect_suffix hclose).trans ((readNumber_suffix hsecond).trans
      ((expect_suffix hcomma).trans h₁))⟩

end Bounds

/-! ## Classes -/

namespace CharClass

/-- What is read after the members of a class are put in front is read after all of them. -/
theorem after_eq_ok_iff {members all : List Atom} {rest : List Token}
    {r : Except Error (List Atom × List Token)} :
    after members r = .ok (all, rest) ↔
      ∃ following, r = .ok (following, rest) ∧ all = members ++ following := by
  cases r with
  | error e => simp [after, Except.map]
  | ok p =>
    obtain ⟨following, rest'⟩ := p
    constructor
    · intro h
      cases h
      exact ⟨following, rfl, rfl⟩
    · rintro ⟨_, h, rfl⟩
      cases h
      rfl

private theorem inRange_single {tok : Token} {c : Char} {alone : Atom} (htok : tok.WellFormed n)
    (h : Part.ofToken tok = .single c alone) : alone.InRange n := by
  unfold Part.ofToken at h
  split at h
  · next d i =>
    split at h
    · cases h
    · cases h
      cases i with
      | none => trivial
      | some k => exact htok k rfl
  · cases h; trivial
  · cases h
  · cases h

private theorem inRange_literal (cs : List Char) : ∀ a ∈ cs.map Atom.literal, a.InRange n := by
  intro a ha
  obtain ⟨c, -, rfl⟩ := List.mem_map.1 ha
  trivial

/-- The members of a class are in range, and a suffix is left after it. -/
theorem readMembers_spec {ts rest : List Token} {members : List Atom}
    (hts : ∀ tok ∈ ts, tok.WellFormed n) (h : readMembers ts = .ok (members, rest)) :
    (∀ a ∈ members, a.InRange n) ∧ rest <:+ ts := by
  fun_induction readMembers ts generalizing members with
  | case3 first rest' _ =>
    -- the closing bracket
    cases h
    exact ⟨by simp, List.suffix_cons _ _⟩
  | case5 first rest' cs _ _ ih =>
    -- a set, such as that of the digits
    obtain ⟨following, hr, rfl⟩ := after_eq_ok_iff.1 h
    obtain ⟨hin, hsuf⟩ := ih (List.forall_mem_cons.1 hts).2 hr
    exact ⟨List.forall_mem_append.2 ⟨inRange_literal cs, hin⟩, hsuf.trans (List.suffix_cons _ _)⟩
  | case9 first lo alone hfirst second _ third beyond _ =>
    -- a hyphen before the closing bracket stands for itself
    cases h
    have halone := inRange_single (hts first (by simp)) hfirst
    exact ⟨by simpa [Atom.InRange] using halone, ⟨[first, second, third], rfl⟩⟩
  | case12 first lo alone _ second _ third beyond hi _ _ _ ih =>
    -- a range
    obtain ⟨following, hr, rfl⟩ := after_eq_ok_iff.1 h
    obtain ⟨hin, hsuf⟩ := ih (fun tok htok => hts tok (by simp [htok])) hr
    exact ⟨List.forall_mem_append.2 ⟨inRange_literal _, hin⟩,
      hsuf.trans ⟨[first, second, third], rfl⟩⟩
  | case13 first lo alone hfirst second beyond _ ih =>
    -- a member on its own
    obtain ⟨following, hr, rfl⟩ := after_eq_ok_iff.1 h
    obtain ⟨hin, hsuf⟩ := ih (List.forall_mem_cons.1 hts).2 hr
    have halone := inRange_single (hts first (by simp)) hfirst
    exact ⟨List.forall_mem_append.2 ⟨by simpa using halone, hin⟩,
      hsuf.trans (List.suffix_cons _ _)⟩
  | _ => cases h

end CharClass

/-- A class that is read is well-formed, and a suffix is left after it. -/
theorem readClass_spec {ts rest : List Token} {members : List Atom}
    (hts : ∀ tok ∈ ts, tok.WellFormed n) (h : readClass ts = .ok (members, rest)) :
    (Element.oneOf members).WellFormed n ∧ rest <:+ ts := by
  unfold readClass at h
  split at h
  · cases h
  obtain ⟨⟨found, rest'⟩, hfound, h⟩ := bind_eq_ok.1 h
  obtain ⟨hin, hsuf⟩ := CharClass.readMembers_spec hts hfound
  dsimp only at h
  split at h
  · cases h
  next hne =>
  cases h
  rw [firstOccurrences_eq_eraseDups]
  have hne : found.eraseDups ≠ [] := by
    cases found with
    | nil => simp at hne
    | cons a found => simp [List.eraseDups_cons]
  exact ⟨⟨hne, nodup_eraseDups found, fun a ha => hin a (List.mem_eraseDups.1 ha)⟩, hsuf⟩

/-! ## Lexemes -/

/-- Is the element or the quantifier in the lexeme well-formed? -/
def Lexeme.WellFormed (n : ℕ) : Lexeme → Prop
  | .element e => e.WellFormed n
  | .repetition _ (.ok q) => q.Ordered
  | .repetition _ (.error _) | .opening | .closing | .bar | .malformed _ => True

private theorem readOpening_suffix {ts rest : List Token} (h : readOpening ts = .ok rest) :
    rest <:+ ts := by
  cases ts with
  | nil => cases h; exact List.suffix_refl _
  | cons t ts =>
    rw [readOpening] at h
    split at h
    · exact (Bounds.expect_suffix h).trans (List.suffix_cons _ _)
    · cases h; exact List.suffix_refl _

private theorem wellFormed_atomOf {c : Char} {i : Option ℕ} (h : ∀ k ∈ i, k < n) :
    (atomOf c i).toElement.WellFormed n := by
  cases i with
  | none => trivial
  | some k => exact h k rfl

private theorem wellFormed_set {cs : List Char} (h : cs ≠ [] ∧ cs.Nodup) :
    (Element.oneOf (cs.map .literal)).WellFormed n := by
  refine ⟨by simpa using h.1, ?_, CharClass.inRange_literal cs⟩
  exact List.Pairwise.map _ (fun _ _ hne heq => hne (Atom.literal.inj heq)) h.2

/-- The lexemes of well-formed tokens are well-formed. -/
theorem wellFormed_lexemes {ts : List Token} (hts : ∀ tok ∈ ts, tok.WellFormed n) :
    ∀ x ∈ lexemes ts, x.WellFormed n := by
  fun_induction lexemes ts with
  | case1 => simp
  | case2 => simp [Lexeme.WellFormed]
  | case3 c rest ih => exact List.forall_mem_cons.2 ⟨trivial, ih (List.forall_mem_cons.1 hts).2⟩
  | case4 cs rest ih =>
    obtain ⟨hcs, hrest⟩ := List.forall_mem_cons.1 hts
    exact List.forall_mem_cons.2 ⟨wellFormed_set hcs, ih hrest⟩
  | case5 i rest beyond hopen ih =>
    have hrest := wellFormed_of_suffix (readOpening_suffix hopen) (List.forall_mem_cons.1 hts).2
    exact List.forall_mem_cons.2 ⟨trivial, ih hrest⟩
  | case6 => simp [Lexeme.WellFormed]
  | case7 i rest ih | case8 i rest ih | case11 i rest ih =>
    -- a closing bracket, a bar, and the mark for any character
    exact List.forall_mem_cons.2 ⟨trivial, ih (List.forall_mem_cons.1 hts).2⟩
  | case9 i rest members beyond hclass ih =>
    have hspec := readClass_spec (List.forall_mem_cons.1 hts).2 hclass
    have hrest := wellFormed_of_suffix hspec.2 (List.forall_mem_cons.1 hts).2
    exact List.forall_mem_cons.2 ⟨hspec.1, ih hrest⟩
  | case10 => simp [Lexeme.WellFormed]
  | case12 i rest ih | case13 i rest ih | case14 i rest ih =>
    refine List.forall_mem_cons.2 ⟨?_, ih (List.forall_mem_cons.1 hts).2⟩
    simp [Lexeme.WellFormed, Quantifier.Ordered, Quantifier.max?, Quantifier.min]
  | case15 i rest q beyond hread ih =>
    have hspec := Bounds.read_spec hread
    have hrest := wellFormed_of_suffix hspec.2 (List.forall_mem_cons.1 hts).2
    exact List.forall_mem_cons.2 ⟨hspec.1, ih hrest⟩
  | case16 => simp [Lexeme.WellFormed]
  | case17 i rest c _ _ _ _ _ _ _ _ _ ih =>
    obtain ⟨hc, hrest⟩ := List.forall_mem_cons.1 hts
    exact List.forall_mem_cons.2 ⟨wellFormed_atomOf hc, ih hrest⟩

/-! ## Drafts -/

/-- Are the alternatives written so far well-formed, the current one included? -/
structure Layer.WellFormed (n : ℕ) (l : Layer) : Prop where
  complete : ∀ s ∈ l.complete, Sequence.WellFormed n s
  items : ∀ it ∈ l.items, it.WellFormed n

namespace Layer

variable {l : Layer}

private theorem wellFormed_empty : empty.WellFormed n := ⟨by simp [empty], by simp [empty]⟩

private theorem WellFormed.push (h : l.WellFormed n) {it : Item} (hit : it.WellFormed n) :
    (l.push it).WellFormed n :=
  ⟨h.complete, List.forall_mem_cons.2 ⟨hit, h.items⟩⟩

private theorem WellFormed.requantify (h : l.WellFormed n) {q : Quantifier} (hq : q.Ordered) :
    (l.requantify q).WellFormed n := by
  unfold Layer.requantify
  split
  · exact h
  · next it rest heq =>
    have hitems := h.items
    rw [heq, List.forall_mem_cons] at hitems
    exact ⟨h.complete, List.forall_mem_cons.2 ⟨⟨hq, hitems.1.2⟩, hitems.2⟩⟩

private theorem WellFormed.current (h : l.WellFormed n) :
    Sequence.WellFormed n l.items.reverse := by
  rw [Sequence.wellFormed_iff]
  exact fun it hit => h.items it (List.mem_reverse.1 hit)

private theorem WellFormed.nextAlternative (h : l.WellFormed n) :
    l.nextAlternative.WellFormed n :=
  ⟨List.forall_mem_cons.2 ⟨h.current, h.complete⟩, by simp [Layer.nextAlternative]⟩

private theorem WellFormed.toPattern (h : l.WellFormed n) :
    Pattern.WellFormed n l.toPattern := by
  refine ⟨by simp [Layer.toPattern], Pattern.alternativesWellFormed_iff.2 fun s hs => ?_⟩
  exact List.forall_mem_cons.2 ⟨h.current, h.complete⟩ s (List.mem_reverse.1 hs)

end Layer

/-- Are all layers of the draft well-formed? -/
structure Draft.WellFormed (n : ℕ) (d : Draft) : Prop where
  layer : d.layer.WellFormed n
  around : ∀ l ∈ d.around, l.WellFormed n

/-- Reading a well-formed lexeme keeps a draft well-formed. -/
theorem Draft.WellFormed.step {limit : ℕ} {d d' : Draft} {x : Lexeme} (hd : d.WellFormed n)
    (hx : x.WellFormed n) (h : d.step limit x = .ok d') : d'.WellFormed n := by
  have once : Quantifier.once.Ordered := by
    simp [Quantifier.Ordered, Quantifier.max?, Quantifier.min]
  cases Draft.step_eq_ok_iff.1 h with
  | element e => exact ⟨hd.layer.push ⟨once, hx⟩, hd.around⟩
  | repetition => exact ⟨hd.layer.requantify hx, hd.around⟩
  | lazy => exact ⟨hd.layer, hd.around⟩
  | bar => exact ⟨hd.layer.nextAlternative, hd.around⟩
  | opening => exact ⟨Layer.wellFormed_empty, List.forall_mem_cons.2 ⟨hd.layer, hd.around⟩⟩
  | closing heq =>
    have haround := hd.around
    rw [heq, List.forall_mem_cons] at haround
    exact ⟨haround.1.push ⟨once, hd.layer.toPattern⟩, haround.2⟩

/-- Reading well-formed lexemes keeps a draft well-formed. -/
theorem Draft.WellFormed.foldlM_step {limit : ℕ} {ls : List Lexeme} {d d' : Draft}
    (hd : d.WellFormed n) (hls : ∀ x ∈ ls, x.WellFormed n)
    (h : ls.foldlM (Draft.step limit) d = .ok d') : d'.WellFormed n := by
  induction ls generalizing d with
  | nil => cases h; exact hd
  | cons x ls ih =>
    obtain ⟨hx, hls⟩ := List.forall_mem_cons.1 hls
    rw [List.foldlM_cons, bind_eq_ok] at h
    obtain ⟨d₁, hstep, h⟩ := h
    exact ih (hd.step hx hstep) hls h

/-- A pattern that is read from well-formed tokens is well-formed. -/
theorem wellFormed_of_ofTokens {ts : List Token} (hts : ∀ tok ∈ ts, tok.WellFormed n) {limit : ℕ}
    {p : Pattern} (h : ofTokens limit ts = .ok p) : p.WellFormed n := by
  obtain ⟨d, hd, hp⟩ := bind_eq_ok.1 h
  have hempty : Draft.empty.WellFormed n := ⟨Layer.wellFormed_empty, by simp [Draft.empty]⟩
  have hdraft := hempty.foldlM_step (wellFormed_lexemes hts) hd
  unfold Draft.finish at hp
  split at hp
  · cases hp; exact hdraft.layer.toPattern
  · cases hp

/-- A pattern that is read from a text is well-formed. -/
theorem wellFormed_of_parse {t : Text} {symbols : List Char} {limit : ℕ} {p : Pattern}
    (h : parse t symbols limit = .ok p) : p.WellFormed symbols.length :=
  wellFormed_of_ofTokens (wellFormed_tokens symbols t) h

end Pattern

end Confection
