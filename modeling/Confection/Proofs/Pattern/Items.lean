import Confection.Proofs.Pattern.Lexing

/-!
# The items of a pattern that is read

What `Forall` says of the elements is said here of the items, so with their quantifiers, and with
the number of groups around them.  `forall_of_ofTokens` is the induction: a property of items passes
to the whole pattern if single elements have it, if it is not lost with another quantifier, and if a
group has it whose items have it one level further in.

Two things follow for patterns that are read: groups are not nested deeper than the limit
(`depth_le_of_parse`), and all numbers of repetitions are below the bound that the reader checks
(`numbersFit_of_parse`).
-/

namespace Confection

/-- The numbers of the quantifier lie below the bound for numbers in a pattern. -/
def Quantifier.Fits (q : Quantifier) : Prop :=
  q.min < Pattern.numberBound ∧ ∀ m ∈ q.max?, m < Pattern.numberBound

namespace Pattern

variable {limit : ℕ} {P : ℕ → Item → Prop}

/-- Does `P` hold of the items of the layer, with so many groups around them? -/
structure Layer.ForallAt (P : ℕ → Item → Prop) (k : ℕ) (l : Layer) : Prop where
  items : ∀ it ∈ l.items, P k it
  complete : ∀ s ∈ l.complete, ∀ it ∈ s, P k it

namespace Layer.ForallAt

variable {l : Layer} {k : ℕ}

theorem push (h : l.ForallAt P k) {it : Item} (hit : P k it) : (l.push it).ForallAt P k :=
  ⟨List.forall_mem_cons.2 ⟨hit, h.items⟩, h.complete⟩

theorem requantify (h : l.ForallAt P k) {q : Quantifier}
    (hq : ∀ it, P k it → P k ⟨q, it.element⟩) : (l.requantify q).ForallAt P k := by
  unfold Layer.requantify
  split
  · exact h
  · next it rest hitems =>
    have hall := h.items
    rw [hitems, List.forall_mem_cons] at hall
    exact ⟨List.forall_mem_cons.2 ⟨hq it hall.1, hall.2⟩, h.complete⟩

theorem alternatives (h : l.ForallAt P k) :
    ∀ s ∈ l.items.reverse :: l.complete, ∀ it ∈ s, P k it :=
  List.forall_mem_cons.2 ⟨fun it hit => h.items it (List.mem_reverse.1 hit), h.complete⟩

theorem nextAlternative (h : l.ForallAt P k) : l.nextAlternative.ForallAt P k :=
  ⟨by simp [Layer.nextAlternative], h.alternatives⟩

theorem toPattern (h : l.ForallAt P k) : ∀ s ∈ l.toPattern, ∀ it ∈ s, P k it :=
  fun s hs => h.alternatives s (List.mem_reverse.1 hs)

end Layer.ForallAt

theorem Layer.forallAt_empty {k : ℕ} : Layer.empty.ForallAt P k :=
  ⟨by simp [Layer.empty], by simp [Layer.empty]⟩

/-- Does `P` hold of the items of all layers, each having the layers after it around it? -/
def Layers.ForallAt (P : ℕ → Item → Prop) : List Layer → Prop
  | [] => True
  | l :: around => l.ForallAt P around.length ∧ Layers.ForallAt P around

/-- The layers of the draft are not too many, and `P` holds of all items in them. -/
structure Draft.ForallAt (limit : ℕ) (P : ℕ → Item → Prop) (d : Draft) : Prop where
  depth : d.around.length ≤ limit
  layers : Layers.ForallAt P (d.layer :: d.around)

/-- What a lexeme must be for `P` to pass on to what is read: its element makes an item of which `P`
holds at every level, and its quantifier does not lose `P`. -/
def Lexeme.PassesOn (limit : ℕ) (P : ℕ → Item → Prop) : Lexeme → Prop
  | .element e => ∀ k ≤ limit, P k ⟨.once, e⟩
  | .repetition _ (.ok q) => ∀ k it, P k it → P k ⟨q, it.element⟩
  | .repetition _ (.error _) | .opening | .closing | .bar | .malformed _ => True

section

variable (hgroup : ∀ k < limit, ∀ p : Pattern, (∀ s ∈ p, ∀ it ∈ s, P (k + 1) it) →
  P k ⟨.once, .group p⟩)

include hgroup

/-- Reading a lexeme passes `P` on. -/
theorem Draft.ForallAt.step {d d' : Draft} {x : Lexeme} (hd : d.ForallAt limit P)
    (hx : x.PassesOn limit P) (h : d.step limit x = .ok d') : d'.ForallAt limit P := by
  obtain ⟨hdepth, hlayer, haround⟩ := hd
  cases Draft.step_eq_ok_iff.1 h with
  | element e => exact ⟨hdepth, hlayer.push (hx _ hdepth), haround⟩
  | repetition => exact ⟨hdepth, hlayer.requantify (hx _), haround⟩
  | lazy => exact ⟨hdepth, hlayer, haround⟩
  | bar => exact ⟨hdepth, hlayer.nextAlternative, haround⟩
  | opening hlimit => exact ⟨hlimit, Layer.forallAt_empty, hlayer, haround⟩
  | closing heq =>
    rw [heq] at hdepth hlayer haround
    have hitem := hgroup _ hdepth _ hlayer.toPattern
    exact ⟨Nat.le_of_succ_le hdepth, haround.1.push hitem, haround.2⟩

theorem Draft.ForallAt.foldlM_step {ls : List Lexeme} {d d' : Draft} (hd : d.ForallAt limit P)
    (hls : ∀ x ∈ ls, x.PassesOn limit P) (h : ls.foldlM (Draft.step limit) d = .ok d') :
    d'.ForallAt limit P := by
  induction ls generalizing d with
  | nil => cases h; exact hd
  | cons x ls ih =>
    obtain ⟨hx, hls⟩ := List.forall_mem_cons.1 hls
    obtain ⟨d₁, hstep, h⟩ := bind_eq_ok.1 h
    exact ih (hd.step hgroup hx hstep) hls h

/-- What the lexemes pass on holds of the items of the pattern that they make. -/
theorem forall_of_passesOn {ts : List Token} {p : Pattern}
    (hls : ∀ x ∈ lexemes ts, x.PassesOn limit P) (h : ofTokens limit ts = .ok p) :
    ∀ s ∈ p, ∀ it ∈ s, P 0 it := by
  obtain ⟨d, hd, hp⟩ := bind_eq_ok.1 h
  have hempty : Draft.empty.ForallAt limit P :=
    ⟨Nat.zero_le _, Layer.forallAt_empty, trivial⟩
  obtain ⟨-, hlayer, -⟩ := hempty.foldlM_step hgroup hls hd
  unfold Draft.finish at hp
  split at hp
  · next hopen =>
    cases hp
    rw [List.isEmpty_iff.1 hopen] at hlayer
    exact hlayer.toPattern
  · cases hp

end

/-! ## What lexemes hold -/

/-- Is the element in the lexeme no group, and do the numbers of the quantifier in it fit? -/
def Lexeme.Flat : Lexeme → Prop
  | .element e => ∀ p, e ≠ .group p
  | .repetition _ (.ok q) => q.Fits
  | .repetition _ (.error _) | .opening | .closing | .bar | .malformed _ => True

theorem readNumber_lt {ts rest : List Token} {k : ℕ}
    (h : Bounds.readNumber ts = .ok (some k, rest)) : k < numberBound := by
  simp only [Bounds.readNumber] at h
  split at h
  · cases h
  · split at h
    · cases h
    · next hlt => cases h; exact Nat.lt_of_not_le hlt

/-- The numbers of bounds that are read have been checked. -/
theorem fits_of_read {ts rest : List Token} {q : Quantifier}
    (h : Bounds.read ts = .ok (q, rest)) : q.Fits := by
  have hzero : 0 < numberBound := by decide
  obtain ⟨⟨first, rest₁⟩, hfirst, h⟩ := bind_eq_ok.1 h
  dsimp only at h
  split at h
  · cases first with
    | none => cases h
    | some k =>
      cases h
      have hk := readNumber_lt hfirst
      exact ⟨hk, fun m hm => Option.some.inj hm ▸ hk⟩
  · obtain ⟨rest₂, -, h⟩ := bind_eq_ok.1 h
    obtain ⟨⟨second, rest₃⟩, hsecond, h⟩ := bind_eq_ok.1 h
    obtain ⟨rest₄, -, h⟩ := bind_eq_ok.1 h
    obtain ⟨q', hq, h⟩ := bind_eq_ok.1 h
    cases h
    cases first with
    | none =>
      cases second with
      | none => cases hq; exact ⟨hzero, by simp [Quantifier.max?]⟩
      | some m =>
        cases hq
        exact ⟨hzero, fun b hb => Option.some.inj hb ▸ readNumber_lt hsecond⟩
    | some n =>
      have hn := readNumber_lt hfirst
      cases second with
      | none => cases hq; exact ⟨hn, by simp [Quantifier.max?]⟩
      | some m =>
        rw [Bounds.ofPair] at hq
        split at hq
        · cases hq
          exact ⟨hn, fun b hb => Option.some.inj hb ▸ readNumber_lt hsecond⟩
        · cases hq

theorem flat_of_alone? {t : Token} {x : Lexeme} (h : t.alone? = some x) : x.Flat := by
  have hatom (a : Atom) (p : Pattern) : a.toElement ≠ .group p := by
    cases a <;> simp [Atom.toElement]
  have hfits :
      Quantifier.optional.Fits ∧ Quantifier.zeroOrMore.Fits ∧ Quantifier.oneOrMore.Fits := by
    simp [Quantifier.Fits, Quantifier.min, Quantifier.max?, numberBound, UInt64.size]
  unfold Token.alone? at h
  split at h
  · cases h
  · cases h; simp [Lexeme.Flat]
  · cases h; simp [Lexeme.Flat]
  · split at h
    · cases h
    · cases h
    · cases h
    · cases h; trivial
    · cases h; trivial
    · cases h; simp [Lexeme.Flat]
    · cases h; exact hfits.1
    · cases h; exact hfits.2.1
    · cases h; exact hfits.2.2
    · cases h; exact hatom _

/-- The lexemes of tokens are flat. -/
theorem flat_lexemes (ts : List Token) : ∀ x ∈ lexemes ts, x.Flat := by
  induction ts using lexemesInduction with
  | nil => simp [lexemes_nil]
  | malformed e rest => simp [lexemes_malformed, Lexeme.Flat]
  | alone t x rest hx ih =>
    rw [lexemes_alone hx]
    exact List.forall_mem_cons.2 ⟨flat_of_alone? hx, ih⟩
  | opening i rest ih =>
    rw [lexemes_opening]
    split
    · next beyond hread => exact List.forall_mem_cons.2 ⟨trivial, ih beyond hread⟩
    · exact List.forall_mem_singleton.2 trivial
  | charClass i rest ih =>
    rw [lexemes_class]
    split
    · next members beyond hread =>
      exact List.forall_mem_cons.2 ⟨by simp [Lexeme.Flat], ih members beyond hread⟩
    · exact List.forall_mem_singleton.2 trivial
  | braces i rest ih =>
    rw [lexemes_braces]
    split
    · next q beyond hread => exact List.forall_mem_cons.2 ⟨fits_of_read hread, ih q beyond hread⟩
    · exact List.forall_mem_singleton.2 trivial

/-- What holds of items of single elements, is not lost with another quantifier, and passes to
groups from what is in them, holds of the items of a pattern that is read. -/
theorem forall_of_ofTokens {ts : List Token} {p : Pattern}
    (helement : ∀ e : Element, (∀ p, e ≠ .group p) → ∀ k ≤ limit, P k ⟨.once, e⟩)
    (hquantifier : ∀ q : Quantifier, q.Fits → ∀ k it, P k it → P k ⟨q, it.element⟩)
    (hgroup : ∀ k < limit, ∀ p : Pattern, (∀ s ∈ p, ∀ it ∈ s, P (k + 1) it) →
      P k ⟨.once, .group p⟩) (h : ofTokens limit ts = .ok p) : ∀ s ∈ p, ∀ it ∈ s, P 0 it := by
  refine forall_of_passesOn hgroup (fun x hx => ?_) h
  have hflat := flat_lexemes ts x hx
  cases x with
  | element e => exact helement e hflat
  | repetition mark q =>
    cases q with
    | error e => trivial
    | ok q => exact hquantifier q hflat
  | opening | closing | bar | malformed => trivial

end Pattern

/-! ## Depth -/

mutual

/-- How deep groups are nested in the element. -/
def Element.depth : Element → ℕ
  | .group p => Pattern.depth p + 1
  | .symbol _ | .literal _ | .oneOf _ | .any => 0
termination_by structural e => e

/-- How deep groups are nested in the sequence. -/
def Sequence.depth : Sequence → ℕ
  | [] => 0
  | ⟨_, e⟩ :: rest => max e.depth (Sequence.depth rest)
termination_by structural s => s

/-- How deep groups are nested in the pattern. -/
def Pattern.depth : Pattern → ℕ
  | [] => 0
  | s :: rest => max (Sequence.depth s) (Pattern.depth rest)
termination_by structural p => p

end

theorem Element.depth_eq_zero {e : Element} (h : ∀ p, e ≠ .group p) : e.depth = 0 := by
  cases e with
  | group p => exact absurd rfl (h p)
  | symbol | literal | oneOf | any => rfl

theorem Sequence.depth_le {s : Sequence} {n : ℕ} (h : ∀ it ∈ s, it.element.depth ≤ n) :
    Sequence.depth s ≤ n := by
  induction s with
  | nil => exact Nat.zero_le n
  | cons it s ih =>
    obtain ⟨q, e⟩ := it
    obtain ⟨he, hs⟩ := List.forall_mem_cons.1 h
    exact max_le he (ih hs)

theorem Pattern.depth_le {p : Pattern} {n : ℕ} (h : ∀ s ∈ p, ∀ it ∈ s, it.element.depth ≤ n) :
    Pattern.depth p ≤ n := by
  induction p with
  | nil => exact Nat.zero_le n
  | cons s p ih =>
    obtain ⟨hs, hp⟩ := List.forall_mem_cons.1 h
    exact max_le (Sequence.depth_le hs) (ih hp)

/-- Groups are not nested deeper than the limit in a pattern that is read. -/
theorem Pattern.depth_le_of_parse {t : Text} {symbols : List Char} {limit : ℕ} {p : Pattern}
    (h : Pattern.parse t symbols limit = .ok p) : p.depth ≤ limit := by
  let P (k : ℕ) (it : Item) : Prop := it.element.depth + k ≤ limit
  refine Pattern.depth_le (forall_of_ofTokens (P := P) (fun e he k hk => ?_)
    (fun _ _ _ _ hit => hit) (fun k hk p hp => ?_) h)
  · show e.depth + k ≤ limit
    rwa [Element.depth_eq_zero he, Nat.zero_add]
  · have hdepth : Pattern.depth p ≤ limit - (k + 1) :=
      Pattern.depth_le fun s hs it hit => Nat.le_sub_of_add_le (hp s hs it hit)
    show Pattern.depth p + 1 + k ≤ limit
    omega

/-! ## Properties at every depth -/

section

variable (Q : Quantifier → Prop) (E : Element → Prop)

mutual

/-- Do `Q` and `E` hold of all quantifiers and elements in the element, and `E` of itself? -/
def Element.Everywhere : Element → Prop
  | .symbol i => E (.symbol i)
  | .literal c => E (.literal c)
  | .oneOf members => E (.oneOf members)
  | .any => E .any
  | .group p => E (.group p) ∧ Pattern.Everywhere p
termination_by structural e => e

/-- Do `Q` and `E` hold of all quantifiers and elements in the sequence? -/
def Sequence.Everywhere : Sequence → Prop
  | [] => True
  | ⟨q, e⟩ :: rest => (Q q ∧ e.Everywhere) ∧ Sequence.Everywhere rest
termination_by structural s => s

/-- Do `Q` and `E` hold of all quantifiers and elements in the pattern? -/
def Pattern.Everywhere : Pattern → Prop
  | [] => True
  | s :: rest => Sequence.Everywhere s ∧ Pattern.Everywhere rest
termination_by structural p => p

end

variable {Q E}

theorem Sequence.everywhere_iff {s : Sequence} :
    Sequence.Everywhere Q E s ↔ ∀ it ∈ s, Q it.quantifier ∧ it.element.Everywhere Q E := by
  induction s with
  | nil => simp [Sequence.Everywhere]
  | cons it s ih =>
    obtain ⟨q, e⟩ := it
    rw [Sequence.Everywhere, ih, List.forall_mem_cons]

theorem Pattern.everywhere_iff {p : Pattern} :
    Pattern.Everywhere Q E p ↔
      ∀ s ∈ p, ∀ it ∈ s, Q it.quantifier ∧ it.element.Everywhere Q E := by
  induction p with
  | nil => simp [Pattern.Everywhere]
  | cons s p ih => rw [Pattern.Everywhere, ih, List.forall_mem_cons, Sequence.everywhere_iff]

end

/-- Do all numbers in the pattern lie below the bound for numbers? -/
def Pattern.NumbersFit (p : Pattern) : Prop :=
  Pattern.Everywhere Quantifier.Fits (fun _ => True) p

/-- The numbers in a pattern that is read lie below the bound. -/
theorem Pattern.numbersFit_of_parse {t : Text} {symbols : List Char} {limit : ℕ} {p : Pattern}
    (h : Pattern.parse t symbols limit = .ok p) : p.NumbersFit := by
  have honce : Quantifier.once.Fits := by
    simp [Quantifier.Fits, Quantifier.min, Quantifier.max?, numberBound, UInt64.size]
  let P (_ : ℕ) (it : Item) : Prop :=
    it.quantifier.Fits ∧ it.element.Everywhere Quantifier.Fits fun _ => True
  refine Pattern.everywhere_iff.2 (forall_of_ofTokens (P := P) (fun e he _ _ => ⟨honce, ?_⟩)
    (fun _ hq _ _ hit => ⟨hq, hit.2⟩)
    (fun _ _ _ hp => ⟨honce, trivial, Pattern.everywhere_iff.2 hp⟩) h)
  cases e with
  | group p => exact absurd rfl (he p)
  | symbol | literal | oneOf | any => trivial

end Confection
