import Confection.Proofs.Pattern.Phrases
import Confection.Proofs.Spelling.Tokens

/-!
# What follows a complete pattern

Nothing in a pattern that is complete depends on what is written after it.  A class ends with its
bracket and a quantifier in braces with its brace, so their readers do the same whatever follows
(`Settles`); only the opening of a group looks ahead, and at the end of a complete pattern no group
is open.  Hence the lexemes of a text that starts with a complete pattern are those of the pattern
and those of the rest, `lexemes_tokens_append`.

For this the tokens must not change either.  An escape that is not complete would take its missing
characters from what follows, but it is a mistake, and a mistake is not read over.
-/

namespace Confection.Pattern

variable {ts rest : List Token}

/-- Reading `x` is settled by the tokens: it is the same whatever follows them, and no mistake has
been read over. -/
structure Settles {α : Type} (read : List Token → Except Error (α × List Token)) (ts : List Token)
    (x : α) (rest : List Token) : Prop where
  append : ∀ more, read (ts ++ more) = .ok (x, rest ++ more)
  malformed : ∀ e, .malformed e ∈ ts → .malformed e ∈ rest

/-! ## Bounds -/

namespace Bounds

theorem expect_append {c : Char} (h : expect c ts = .ok rest) (more : List Token) :
    expect c (ts ++ more) = .ok (rest ++ more) := by
  obtain ⟨t, ht, rfl⟩ := expect_eq_ok_iff.1 h
  exact expect_eq_ok_iff.2 ⟨t, ht, rfl⟩

theorem malformed_of_expect {c : Char} (h : expect c ts = .ok rest) {e : Error}
    (he : .malformed e ∈ ts) : .malformed e ∈ rest := by
  obtain ⟨t, ht, rfl⟩ := expect_eq_ok_iff.1 h
  refine (List.mem_cons.1 he).resolve_left ?_
  rintro rfl
  cases ht

/-- A number is settled by what comes after it. -/
theorem settles_readNumber {n : Option ℕ} (h : readNumber ts = .ok (n, rest)) (hne : rest ≠ []) :
    Settles readNumber ts n rest := by
  have hrest := dropWhile_of_readNumber h
  have hsplit : ts.takeWhile Token.isDigit ++ rest = ts := by
    rw [← hrest, List.takeWhile_append_dropWhile]
  constructor
  · intro more
    have hlength : (ts.takeWhile Token.isDigit).length ≠ ts.length := by
      have hpos := List.length_pos_iff.2 hne
      have hsum := congrArg List.length hsplit
      rw [List.length_append] at hsum
      omega
    have htake : (ts ++ more).takeWhile Token.isDigit = ts.takeWhile Token.isDigit := by
      rw [List.takeWhile_append, if_neg hlength]
    have hdrop : (ts ++ more).dropWhile Token.isDigit = rest ++ more := by
      rw [List.dropWhile_append, hrest, if_neg (by simpa using hne)]
    simp only [readNumber, htake, hdrop, hrest] at h ⊢
    split at h
    · next hempty => cases h; rw [if_pos hempty]
    · next hempty =>
      rw [if_neg hempty]
      split at h
      · cases h
      · next hfits => cases h; rw [if_neg hfits]
  · intro e he
    rw [← hsplit, List.mem_append] at he
    refine he.resolve_left fun hdigit => ?_
    cases List.all_eq_true.1 List.all_takeWhile _ hdigit

/-- Bounds end with their brace. -/
theorem settles_read {q : Quantifier} (h : read ts = .ok (q, rest)) : Settles read ts q rest := by
  obtain ⟨⟨first, rest₁⟩, hfirst, h⟩ := bind_eq_ok.1 h
  dsimp only at h
  split at h
  · next hclose =>
    cases rest₁ with
    | nil => cases hclose
    | cons close rest₁ =>
      cases first with
      | none => cases h
      | some n =>
        cases h
        have hfirst' := settles_readNumber hfirst (List.cons_ne_nil _ _)
        refine ⟨fun more => bind_eq_ok.2 ⟨_, hfirst'.append more, if_pos hclose⟩, fun e he => ?_⟩
        refine (List.mem_cons.1 (hfirst'.malformed e he)).resolve_left ?_
        rintro rfl
        cases hclose
  · next hclose =>
    obtain ⟨rest₂, hcomma, h⟩ := bind_eq_ok.1 h
    obtain ⟨⟨second, rest₃⟩, hsecond, h⟩ := bind_eq_ok.1 h
    obtain ⟨rest₄, hend, h⟩ := bind_eq_ok.1 h
    obtain ⟨q', hq, h⟩ := bind_eq_ok.1 h
    cases h
    have hne {c : Char} {us vs : List Token} (h : expect c us = .ok vs) : us ≠ [] := by
      obtain ⟨t, -, rfl⟩ := expect_eq_ok_iff.1 h
      exact List.cons_ne_nil _ _
    have hfirst' := settles_readNumber hfirst (hne hcomma)
    have hsecond' := settles_readNumber hsecond (hne hend)
    constructor
    · intro more
      have hclose' : ¬ (rest₁ ++ more).head?.any (·.isMark '\x7d') = true := by
        rwa [List.head?_append_of_ne_nil _ (hne hcomma)]
      refine bind_eq_ok.2 ⟨_, hfirst'.append more, ?_⟩
      dsimp only
      rw [if_neg hclose']
      exact bind_eq_ok.2 ⟨_, expect_append hcomma more, bind_eq_ok.2 ⟨_, hsecond'.append more,
        bind_eq_ok.2 ⟨_, expect_append hend more, bind_eq_ok.2 ⟨q, hq, rfl⟩⟩⟩⟩
    · intro e he
      exact malformed_of_expect hend (hsecond'.malformed e
        (malformed_of_expect hcomma (hfirst'.malformed e he)))

end Bounds

/-! ## Classes -/

namespace CharClass

/-- A mistake is no part of a class. -/
theorem malformed_of_cons {t : Token} (ht : ∀ e, Part.ofToken t ≠ .wrong e) {e : Error}
    (he : .malformed e ∈ t :: ts) : .malformed e ∈ ts := by
  refine (List.mem_cons.1 he).resolve_left ?_
  rintro rfl
  exact ht e rfl

/-- Where a class goes on to its end, what follows it decides about no range. -/
theorem startsRange_append {members : List Atom} (h : readMembers ts = .ok (members, rest))
    (more : List Token) : startsRange (ts ++ more) = startsRange ts := by
  match ts with
  | [] => rw [readMembers.eq_def] at h; cases h
  | _ :: _ :: _ => rfl
  | [t] =>
    have hmark : t.isMark '-' = false := by
      rw [← Bool.not_eq_true]
      intro hmark
      have hsingle : ∃ i, t = .char '-' i := by
        cases t with
        | char c i => rw [Token.isMark, beq_iff_eq] at hmark; exact ⟨i, by rw [hmark]⟩
        | escape | malformed => cases hmark
      obtain ⟨i, rfl⟩ := hsingle
      rw [readMembers_single_nil rfl] at h
      cases h
    cases more with
    | nil => rfl
    | cons u more => simp [startsRange, hmark]

/-- A class ends with its bracket. -/
theorem settles_readMembers {members : List Atom} (h : readMembers ts = .ok (members, rest)) :
    Settles readMembers ts members rest := by
  have hright {t : Token} {p : Part} (ht : Part.ofToken t = p) (hp : ∀ e, p ≠ .wrong e) :
      ∀ e, Part.ofToken t ≠ .wrong e := by rwa [ht]
  have hhyphen {t : Token} (ht : t.isMark '-' = true) : ∀ e, Part.ofToken t ≠ .wrong e := by
    cases t with
    | char c i =>
      rw [Token.isMark, beq_iff_eq] at ht
      subst ht
      intro e h
      cases h
    | escape | malformed => cases ht
  fun_induction readMembers ts generalizing members with
  | case3 first rest' hfirst =>
    -- the closing bracket
    cases h
    exact ⟨fun more => readMembers_close hfirst, fun e => malformed_of_cons (hright hfirst (by simp))⟩
  | case5 first rest' cs hfirst hrange ih =>
    -- a set
    obtain ⟨following, hr, rfl⟩ := after_eq_ok_iff.1 h
    obtain ⟨happend, hmalformed⟩ := ih hr
    refine ⟨fun more => ?_, fun e he => hmalformed e (malformed_of_cons (hright hfirst (by simp)) he)⟩
    rw [List.cons_append, readMembers_set hfirst, startsRange_append hr, if_neg hrange]
    exact after_eq_ok_iff.2 ⟨following, happend more, rfl⟩
  | case9 first lo alone hfirst second hhyphen' third beyond hthird =>
    -- a hyphen before the closing bracket
    cases h
    exact ⟨fun more => readMembers_hyphen_close hfirst hhyphen' hthird, fun e he =>
      malformed_of_cons (hright hthird (by simp)) (malformed_of_cons (hhyphen hhyphen')
        (malformed_of_cons (hright hfirst (by simp)) he))⟩
  | case12 first lo alone hfirst second hhyphen' third beyond hi other hthird hle ih =>
    -- a range
    obtain ⟨following, hr, rfl⟩ := after_eq_ok_iff.1 h
    obtain ⟨happend, hmalformed⟩ := ih hr
    refine ⟨fun more => ?_, fun e he => hmalformed e (malformed_of_cons (hright hthird (by simp))
      (malformed_of_cons (hhyphen hhyphen') (malformed_of_cons (hright hfirst (by simp)) he)))⟩
    refine (readMembers_range hfirst hhyphen' hthird).trans ?_
    rw [if_neg hle]
    exact after_eq_ok_iff.2 ⟨following, happend more, rfl⟩
  | case13 first lo alone hfirst second beyond hhyphen' ih =>
    -- a member on its own
    obtain ⟨following, hr, rfl⟩ := after_eq_ok_iff.1 h
    obtain ⟨happend, hmalformed⟩ := ih hr
    refine ⟨fun more => ?_, fun e he => hmalformed e (malformed_of_cons (hright hfirst (by simp)) he)⟩
    refine (readMembers_single hfirst (Bool.not_eq_true _ ▸ hhyphen')).trans ?_
    exact after_eq_ok_iff.2 ⟨following, happend more, rfl⟩
  | _ => cases h

end CharClass

theorem settles_readClass {members : List Atom} (h : readClass ts = .ok (members, rest)) :
    Settles readClass ts members rest := by
  unfold readClass at h
  split at h
  · cases h
  next hnegated =>
  obtain ⟨⟨found, rest'⟩, hfound, h⟩ := bind_eq_ok.1 h
  obtain ⟨happend, hmalformed⟩ := CharClass.settles_readMembers hfound
  have hts : ts ≠ [] := by
    rintro rfl
    rw [CharClass.readMembers.eq_def] at hfound
    cases hfound
  dsimp only at h
  split at h
  · cases h
  next hempty =>
  cases h
  refine ⟨fun more => ?_, hmalformed⟩
  rw [readClass, List.head?_append_of_ne_nil _ hts, if_neg hnegated]
  exact bind_eq_ok.2 ⟨_, happend more, if_neg hempty⟩

/-! ## Lexemes -/

theorem readOpening_append (h : readOpening ts = .ok rest) (hne : ts ≠ []) (more : List Token) :
    readOpening (ts ++ more) = .ok (rest ++ more) := by
  obtain ⟨t, ts, rfl⟩ := List.exists_cons_of_ne_nil hne
  rw [List.cons_append, readOpening]
  rw [readOpening] at h
  split at h
  · next hmark =>
    rw [if_pos hmark]
    exact Bounds.expect_append h more
  · next hmark =>
    cases h
    rw [if_neg hmark]
    rfl

theorem malformed_of_readOpening (h : readOpening ts = .ok rest) {e : Error}
    (he : .malformed e ∈ ts) : .malformed e ∈ rest := by
  cases ts with
  | nil => cases he
  | cons t ts =>
    rw [readOpening] at h
    split at h
    · next hmark =>
      refine Bounds.malformed_of_expect h ((List.mem_cons.1 he).resolve_left ?_)
      rintro rfl
      cases hmark
    · cases h; exact he

variable {limit : ℕ} {d d' : Draft}

/-- Induction along the lexemes of tokens that are read without a mistake, where `P` may speak of the
draft that the rest is read from. -/
theorem runInduction {P : Draft → List Token → Prop} (nil : P d' [])
    (alone : ∀ d d₁ t x rest, t.alone? = some x → d.step limit x = .ok d₁ → P d₁ rest →
      P d (t :: rest))
    (opening : ∀ d d₁ i rest beyond, readOpening rest = .ok beyond →
      d.step limit .opening = .ok d₁ → (lexemes beyond).foldlM (Draft.step limit) d₁ = .ok d' →
      P d₁ beyond → P d (.char '(' i :: rest))
    (charClass : ∀ d d₁ i rest members beyond, readClass rest = .ok (members, beyond) →
      P d₁ beyond → P d (.char '[' i :: rest))
    (braces : ∀ d d₁ i rest q beyond, Bounds.read rest = .ok (q, beyond) → P d₁ beyond →
      P d (.char '\x7b' i :: rest))
    (h : (lexemes ts).foldlM (Draft.step limit) d = .ok d') : P d ts := by
  induction ts using lexemesInduction generalizing d with
  | nil =>
    rw [lexemes_nil] at h
    cases h
    exact nil
  | malformed e rest =>
    rw [lexemes_malformed] at h
    cases h
  | alone t x rest hx ih =>
    rw [lexemes_alone hx] at h
    obtain ⟨d₁, hstep, h⟩ := bind_eq_ok.1 h
    exact alone d d₁ t x rest hx hstep (ih h)
  | opening i rest ih =>
    rw [lexemes_opening] at h
    cases hread : readOpening rest with
    | error e =>
      rw [hread] at h
      cases h
    | ok beyond =>
      rw [hread] at h
      obtain ⟨d₁, hstep, h⟩ := bind_eq_ok.1 h
      exact opening d d₁ i rest beyond hread hstep h (ih beyond hread h)
  | charClass i rest ih =>
    rw [lexemes_class] at h
    cases hread : readClass rest with
    | error e =>
      rw [hread] at h
      cases h
    | ok r =>
      rw [hread] at h
      obtain ⟨d₁, -, h⟩ := bind_eq_ok.1 h
      exact charClass d d₁ i rest r.1 r.2 hread (ih r.1 r.2 hread h)
  | braces i rest ih =>
    rw [lexemes_braces] at h
    cases hread : Bounds.read rest with
    | error e =>
      rw [hread] at h
      obtain ⟨d₁, hstep, -⟩ := bind_eq_ok.1 h
      exact absurd hstep step_braces_error
    | ok r =>
      rw [hread] at h
      obtain ⟨d₁, -, h⟩ := bind_eq_ok.1 h
      exact braces d d₁ i rest r.1 r.2 hread (ih r.1 r.2 hread h)

/-- After a complete pattern the lexemes start anew. -/
theorem lexemes_append (h : (lexemes ts).foldlM (Draft.step limit) d = .ok d')
    (hclosed : d'.around = []) (more : List Token) :
    lexemes (ts ++ more) = lexemes ts ++ lexemes more := by
  refine runInduction (P := fun _ ts => lexemes (ts ++ more) = lexemes ts ++ lexemes more)
    ?nil ?alone ?opening ?charClass ?braces h
  case nil => rw [lexemes_nil]; rfl
  case alone =>
    intro d d₁ t x rest hx _ ih
    rw [List.cons_append, lexemes_alone hx, lexemes_alone hx, ih, List.cons_append]
  case opening =>
    intro d d₁ i rest beyond hread hstep hrun ih
    -- at the end of the tokens the group would still be open
    have hne : rest ≠ [] := by
      rintro rfl
      cases hread
      rw [lexemes_nil] at hrun
      cases hrun
      cases Draft.step_eq_ok_iff.1 hstep
      cases hclosed
    rw [List.cons_append, lexemes_opening, lexemes_opening, readOpening_append hread hne, hread]
    exact congrArg (.opening :: ·) ih
  case charClass =>
    intro d d₁ i rest members beyond hread ih
    rw [List.cons_append, lexemes_class, lexemes_class, (settles_readClass hread).append, hread]
    exact congrArg (.element (.oneOf members) :: ·) ih
  case braces =>
    intro d d₁ i rest q beyond hread ih
    rw [List.cons_append, lexemes_braces, lexemes_braces, (Bounds.settles_read hread).append, hread]
    exact congrArg (.repetition '\x7b' (.ok q) :: ·) ih

/-- A mistake is not read over. -/
theorem malformed_notMem_of_run (h : (lexemes ts).foldlM (Draft.step limit) d = .ok d')
    (e : Error) : .malformed e ∉ ts := by
  have hrest {t : Token} {rest : List Token} (he : .malformed e ∈ t :: rest)
      (ht : .malformed e ≠ t) : .malformed e ∈ rest := (List.mem_cons.1 he).resolve_left ht
  refine runInduction (P := fun _ ts => .malformed e ∉ ts) ?nil ?alone ?opening ?charClass ?braces h
  case nil => exact List.not_mem_nil
  case alone =>
    intro d d₁ t x rest hx _ ih he
    refine ih (hrest he ?_)
    rintro rfl
    cases hx
  case opening =>
    intro d d₁ i rest beyond hread _ _ ih he
    exact ih (malformed_of_readOpening hread (hrest he nofun))
  case charClass =>
    intro d d₁ i rest members beyond hread ih he
    exact ih ((settles_readClass hread).malformed e (hrest he nofun))
  case braces =>
    intro d d₁ i rest q beyond hread ih he
    exact ih ((Bounds.settles_read hread).malformed e (hrest he nofun))

/-! ## Texts -/

/-- An escape that is not complete is a mistake. -/
theorem exists_malformed_of_endsInEscape {symbols : List Char} {t : Text}
    (h : endsInEscape t = true) : ∃ e, .malformed e ∈ tokens symbols t := by
  fun_induction tokens symbols t with
  | case1 => cases h
  | case2 => exact ⟨_, List.mem_singleton_self _⟩
  | case3 => exact ⟨_, List.mem_singleton_self _⟩
  | case4 => exact ⟨_, List.mem_singleton_self _⟩
  | case5 a b rest ih =>
    obtain ⟨e, he⟩ := ih h
    exact ⟨e, List.mem_cons_of_mem _ he⟩
  | case6 d rest hd ih =>
    rw [endsInEscape_escape hd] at h
    obtain ⟨e, he⟩ := ih h
    exact ⟨e, List.mem_cons_of_mem _ he⟩
  | case7 c rest hc ih =>
    rw [endsInEscape_char hc] at h
    obtain ⟨e, he⟩ := ih h
    exact ⟨e, List.mem_cons_of_mem _ he⟩

variable {symbols : List Char} {t : Text}

/-- What comes after a text without mistakes is read as it is by itself. -/
theorem tokens_append_of_run
    (h : (lexemes (tokens symbols t)).foldlM (Draft.step limit) d = .ok d') (u : Text) :
    tokens symbols (t ++ u) = tokens symbols t ++ tokens symbols u := by
  refine tokens_append ?_ u
  rw [← Bool.not_eq_true]
  intro hescape
  obtain ⟨e, he⟩ := exists_malformed_of_endsInEscape hescape
  exact malformed_notMem_of_run h e he

/-- The lexemes of a text that starts with a complete pattern. -/
theorem lexemes_tokens_append
    (h : (lexemes (tokens symbols t)).foldlM (Draft.step limit) d = .ok d')
    (hclosed : d'.around = []) (u : Text) :
    lexemes (tokens symbols (t ++ u)) = lexemes (tokens symbols t) ++ lexemes (tokens symbols u) := by
  rw [tokens_append_of_run h, lexemes_append h hclosed]

end Confection.Pattern
