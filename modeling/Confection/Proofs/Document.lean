import Mathlib.Data.Nat.Notation
import Confection.Document
import Confection.Proofs.Spelling.Pieces
import Confection.Proofs.Text.Lines
import Confection.Proofs.Traversal

/-!
# What the lines of a document say

`Document.Says` reads a document from its lines without trimming or cutting them: it says how a
line is written that holds a given pattern or definition, with any blanks at the places where they
do not count, and lets lines that say nothing stand anywhere.  `Document.parse_iff_lines` is the
bridge to how a document is read: what the lines say is what is read, and if they do not say a
document, either no line holds a pattern or the error names the first malformed line after it.

## Shape of the proof

A line says nothing exactly if it is not significant, and a definition is on a line exactly if it is
read there.  What one line adds is then carried through the lines by induction, first for those
after the pattern (`Document.definitionsFrom`) and then for all of them (`Document.parseFrom`).
-/

namespace Confection

open Text

/-- Is the line blank or a comment?  A comment's first character that is not blank is a hash. -/
def SaysNothing (line : Text) : Prop := ∀ c ∈ line.find? (!isBlank ·), c = '#'

/-- Is this the definition that stands on the line, its number aside?  The expression may contain
further equals signs. -/
structure Definition.IsOn (d : Definition) (line : Text) : Prop where
  isIdentifier : d.name.isIdentifier = true
  expression_ne_nil : d.expression ≠ []
  isTrimmed : IsTrimmed d.expression
  isPadded : ∃ before after, AllBlank before ∧ AllBlank after ∧
    IsPadded (d.name ++ before ++ '=' :: after ++ d.expression) line

/-- Does the line say something, but no definition? -/
def IsMalformed (line : Text) : Prop := ¬ SaysNothing line ∧ ∀ d : Definition, ¬ d.IsOn line

namespace Document

/-- These are the definitions on the lines that say anything, where the first line has the number
`n`. -/
inductive Defines : ℕ → List Text → List Definition → Prop
  | nil {n} : Defines n [] []
  | skip {n line lines ds} (hline : SaysNothing line) (h : Defines (n + 1) lines ds) :
      Defines n (line :: lines) ds
  | definition {n line lines d ds} (hline : d.IsOn line) (hnumber : d.line = n)
      (h : Defines (n + 1) lines ds) : Defines n (line :: lines) (d :: ds)

/-- The first line that says anything holds the pattern, and the lines after it the definitions. -/
inductive Says : ℕ → List Text → Document → Prop
  | skip {n line lines d} (hline : SaysNothing line) (h : Says (n + 1) lines d) :
      Says n (line :: lines) d
  | pattern {n line lines p ds} (hne : p ≠ []) (hhash : p.head? ≠ some '#') (htrimmed : IsTrimmed p)
      (hpadded : IsPadded p line) (h : Defines (n + 1) lines ds) :
      Says n (line :: lines) { pattern := p, definitions := ds }

/-- This is the number and the trimmed text of the first line after the pattern that is
malformed. -/
def FirstMalformed (lines : List Text) (number : ℕ) (text : Text) : Prop :=
  ∃ skipped pattern before bad after, lines = skipped ++ pattern :: (before ++ bad :: after) ∧
    (∀ line ∈ skipped, SaysNothing line) ∧ ¬ SaysNothing pattern ∧
    (∀ line ∈ before, ¬ IsMalformed line) ∧ IsMalformed bad ∧
    number = (skipped ++ pattern :: before).length + 1 ∧ IsTrimmed text ∧ IsPadded text bad

end Document

/-! ## One line -/

theorem not_isSignificant_trim_iff {line : Text} :
    Document.isSignificant line.trim = false ↔ SaysNothing line := by
  rw [SaysNothing, ← head?_trim]
  cases htrim : line.trim <;> simp [Document.isSignificant]

theorem not_saysNothing_iff {line : Text} :
    ¬ SaysNothing line ↔ line.trim ≠ [] ∧ line.trim.head? ≠ some '#' := by
  rw [SaysNothing, ← head?_trim]
  cases htrim : line.trim <;> simp

theorem isIdentifierChar_of_isIdentifier {name : Text} (h : name.isIdentifier = true) :
    ∀ c ∈ name, isIdentifierChar c = true :=
  List.all_eq_true.1 (Bool.and_eq_true_iff.1 h).2

/-- No character of an identifier is an equals sign, and neither is a blank. -/
theorem notMem_equals_of_isIdentifier {name before : Text} (hname : name.isIdentifier = true)
    (hbefore : AllBlank before) : '=' ∉ name ++ before := by
  refine List.not_mem_append (fun hmem => ?_) (fun hmem => ?_)
  · exact absurd (isIdentifierChar_of_isIdentifier hname '=' hmem) (by decide +kernel)
  · exact absurd (hbefore '=' hmem) (by decide)

theorem isTrimmed_of_isIdentifier {name : Text} (h : name.isIdentifier = true) :
    IsTrimmed name := by
  have hchar (c : Char) (hc : c ∈ name) : isBlank c = false :=
    isBlank_eq_false_of_isIdentifierChar (isIdentifierChar_of_isIdentifier h c hc)
  exact ⟨fun c hc => hchar c (List.mem_of_mem_head? hc),
    fun c hc => hchar c (List.mem_of_getLast? hc)⟩

theorem ne_nil_of_isIdentifier {name : Text} (h : name.isIdentifier = true) : name ≠ [] := by
  rintro rfl
  cases h

/-- Without the blanks around it, the line starts with the name and ends with the expression. -/
theorem Definition.IsOn.trim_eq {d : Definition} {line : Text} (h : d.IsOn line) :
    ∃ before after, AllBlank before ∧ AllBlank after ∧
      line.trim = d.name ++ before ++ '=' :: (after ++ d.expression) := by
  obtain ⟨before, after, hbefore, hafter, hpadded⟩ := h.isPadded
  have htrimmed : IsTrimmed (d.name ++ before ++ '=' :: after ++ d.expression) := by
    simpa using (isTrimmed_of_isIdentifier h.isIdentifier).append h.isTrimmed
      (ne_nil_of_isIdentifier h.isIdentifier) h.expression_ne_nil (before ++ '=' :: after)
  refine ⟨before, after, hbefore, hafter, ?_⟩
  simpa using trim_eq_iff.2 ⟨htrimmed, hpadded⟩

/-- A line that holds a definition says something. -/
theorem Definition.IsOn.not_saysNothing {d : Definition} {line : Text} (h : d.IsOn line) :
    ¬ SaysNothing line := by
  obtain ⟨before, after, -, -, htrim⟩ := h.trim_eq
  have hname := h.isIdentifier
  rw [SaysNothing, ← head?_trim, htrim]
  cases hcons : d.name with
  | nil => exact absurd hcons (ne_nil_of_isIdentifier hname)
  | cons c name =>
    intro hhash
    obtain rfl : c = '#' := hhash c rfl
    have hc := isIdentifierChar_of_isIdentifier hname '#' (hcons ▸ List.mem_cons_self)
    exact absurd hc (by decide +kernel)

/-- The definition that is read on a line stands there. -/
theorem Definition.ofLine?_trim_eq_some_iff {n : ℕ} {line : Text} {d : Definition} :
    ofLine? n line.trim = some d ↔ d.IsOn line ∧ d.line = n := by
  constructor
  · intro h
    obtain ⟨⟨name, expression⟩, hcut, h⟩ := Option.bind_eq_some_iff.1 h
    dsimp only at h
    split at h
    · next hparts =>
      cases h
      obtain ⟨hname, hexpression⟩ := Bool.and_eq_true_iff.1 hparts
      obtain ⟨htrim, -⟩ := splitAtFirst_eq_some_iff.1 hcut
      obtain ⟨left, before, hleft, hbefore, hname'⟩ := isPadded_trim name
      obtain ⟨after, right, hafter, hright, hexpression'⟩ := isPadded_trim expression
      obtain ⟨left', right', hleft', hright', hline⟩ := isPadded_trim line
      refine ⟨⟨hname, by simpa using hexpression, isTrimmed_trim _, before, after, hbefore, hafter,
        left' ++ left, right ++ right', hleft'.append hleft, hright.append hright', ?_⟩, rfl⟩
      calc line = left' ++ (name ++ '=' :: expression) ++ right' := by rw [← htrim, ← hline]
        _ = left' ++ ((left ++ name.trim ++ before) ++ '=' :: (after ++ expression.trim ++ right)) ++
              right' := by rw [← hname', ← hexpression']
        _ = _ := by simp only [List.append_assoc, List.cons_append]
    · cases h
  · rintro ⟨h, rfl⟩
    obtain ⟨before, after, hbefore, hafter, htrim⟩ := h.trim_eq
    have hcut : line.trim.splitAtFirst '=' = some (d.name ++ before, after ++ d.expression) :=
      splitAtFirst_eq_some_iff.2 ⟨htrim, notMem_equals_of_isIdentifier h.isIdentifier hbefore⟩
    have hleft : (d.name ++ before).trim = d.name :=
      trim_eq_iff.2
        ⟨isTrimmed_of_isIdentifier h.isIdentifier, [], before, allBlank_nil, hbefore, rfl⟩
    have hright : (after ++ d.expression).trim = d.expression :=
      trim_eq_iff.2 ⟨h.isTrimmed, after, [], hafter, allBlank_nil, by simp⟩
    simp [ofLine?, hcut, hleft, hright, h.isIdentifier, h.expression_ne_nil]

namespace Document

variable {n : ℕ} {t : Text} {line : Text} {lines : List Text} {d : Definition}

theorem readDefinition_eq_ok_iff {line : ℕ × Text} {d : Definition} :
    readDefinition line = .ok d ↔ Definition.ofLine? line.1 line.2 = some d := by
  cases hline : Definition.ofLine? line.1 line.2 <;> simp [readDefinition, hline]

theorem eq_of_readDefinition_eq_error {line : ℕ × Text} {e : Error}
    (h : readDefinition line = .error e) : e = .malformedIngredient line.1 line.2 := by
  cases hline : Definition.ofLine? line.1 line.2 <;> simp [readDefinition, hline] at h
  exact h.symm

theorem readDefinition_trim_eq_ok_iff :
    readDefinition (n, line.trim) = .ok d ↔ d.IsOn line ∧ d.line = n :=
  readDefinition_eq_ok_iff.trans Definition.ofLine?_trim_eq_some_iff

/-- The number of the line does not matter for whether it holds a definition. -/
theorem exists_readDefinition_trim (h : d.IsOn line) (n : ℕ) :
    ∃ d, readDefinition (n, line.trim) = .ok d :=
  ⟨{ d with line := n }, readDefinition_trim_eq_ok_iff.2
    ⟨⟨h.isIdentifier, h.expression_ne_nil, h.isTrimmed, h.isPadded⟩, rfl⟩⟩

theorem readDefinition_trim_eq_error_iff {e : Error} :
    readDefinition (n, line.trim) = .error e ↔
      (∀ d : Definition, ¬ d.IsOn line) ∧ e = .malformedIngredient n line.trim := by
  constructor
  · refine fun h => ⟨fun d hd => ?_, eq_of_readDefinition_eq_error h⟩
    obtain ⟨_, hok⟩ := exists_readDefinition_trim hd n
    rw [h] at hok
    cases hok
  · rintro ⟨hnone, rfl⟩
    cases h : readDefinition (n, line.trim) with
    | ok d => exact absurd (readDefinition_trim_eq_ok_iff.1 h).1 (hnone d)
    | error e => rw [eq_of_readDefinition_eq_error h]

theorem saysNothing_or_exists_isOn (h : ¬ IsMalformed line) :
    SaysNothing line ∨ ∃ d : Definition, d.IsOn line := by
  by_contra hnot
  obtain ⟨hsignificant, hnone⟩ := not_or.1 hnot
  exact h ⟨hsignificant, not_exists.1 hnone⟩

/-! ## The lines after the pattern -/

/-- What is said on the lines, where the first one has the number `n`. -/
def significantFrom (n : ℕ) (lines : List Text) : List (ℕ × Text) :=
  ((lines.map trim).zipIdx n).filterMap fun (line, number) =>
    if isSignificant line then some (number, line) else none

/-- Reads the definitions on the lines. -/
def definitionsFrom (n : ℕ) (lines : List Text) : Except Error (List Definition) :=
  (significantFrom n lines).mapM readDefinition

theorem significantFrom_of_saysNothing (h : SaysNothing line) :
    significantFrom n (line :: lines) = significantFrom (n + 1) lines := by
  simp [significantFrom, not_isSignificant_trim_iff.2 h]

theorem significantFrom_of_not_saysNothing (h : ¬ SaysNothing line) :
    significantFrom n (line :: lines) = (n, line.trim) :: significantFrom (n + 1) lines := by
  have hsignificant : isSignificant line.trim = true :=
    Bool.not_eq_false _ ▸ mt not_isSignificant_trim_iff.1 h
  simp [significantFrom, hsignificant]

theorem definitionsFrom_of_saysNothing (h : SaysNothing line) :
    definitionsFrom n (line :: lines) = definitionsFrom (n + 1) lines := by
  rw [definitionsFrom, significantFrom_of_saysNothing h, definitionsFrom]

theorem definitionsFrom_of_not_saysNothing (h : ¬ SaysNothing line) :
    definitionsFrom n (line :: lines) = do
      let d ← readDefinition (n, line.trim)
      let ds ← definitionsFrom (n + 1) lines
      return d :: ds := by
  rw [definitionsFrom, significantFrom_of_not_saysNothing h, List.mapM_cons]
  rfl

theorem definitionsFrom_eq_ok_iff {ds : List Definition} :
    definitionsFrom n lines = .ok ds ↔ Defines n lines ds := by
  constructor
  · intro h
    induction lines generalizing n ds with
    | nil =>
      cases h
      exact .nil
    | cons line lines ih =>
      by_cases hline : SaysNothing line
      · rw [definitionsFrom_of_saysNothing hline] at h
        exact .skip hline (ih h)
      · rw [definitionsFrom_of_not_saysNothing hline] at h
        obtain ⟨d, hd, h⟩ := bind_eq_ok.1 h
        obtain ⟨ds, hds, h⟩ := bind_eq_ok.1 h
        cases h
        obtain ⟨hon, hnumber⟩ := readDefinition_trim_eq_ok_iff.1 hd
        exact .definition hon hnumber (ih hds)
  · intro h
    induction h with
    | nil => rfl
    | skip hline _ ih => rw [definitionsFrom_of_saysNothing hline, ih]
    | definition hline hnumber _ ih =>
      rw [definitionsFrom_of_not_saysNothing hline.not_saysNothing,
        readDefinition_trim_eq_ok_iff.2 ⟨hline, hnumber⟩, ih]
      rfl

theorem definitionsFrom_of_isMalformed (h : IsMalformed line) :
    definitionsFrom n (line :: lines) = .error (.malformedIngredient n line.trim) := by
  rw [definitionsFrom_of_not_saysNothing h.1, readDefinition_trim_eq_error_iff.2 ⟨h.2, rfl⟩]
  rfl

/-- Where a line is not malformed, it depends on the lines after it whether there is an error. -/
theorem definitionsFrom_cons_eq_error_iff (h : ¬ IsMalformed line) {e : Error} :
    definitionsFrom n (line :: lines) = .error e ↔ definitionsFrom (n + 1) lines = .error e := by
  rcases saysNothing_or_exists_isOn h with hnothing | ⟨d, hd⟩
  · rw [definitionsFrom_of_saysNothing hnothing]
  · obtain ⟨d, hread⟩ := exists_readDefinition_trim hd n
    rw [definitionsFrom_of_not_saysNothing hd.not_saysNothing, hread]
    cases definitionsFrom (n + 1) lines <;> simp [bind, Except.bind, pure, Except.pure]

theorem add_length_cons (n : ℕ) (line : Text) (lines : List Text) :
    n + (line :: lines).length = n + 1 + lines.length := by
  rw [List.length_cons, Nat.add_right_comm, Nat.add_assoc]

theorem definitionsFrom_eq_error_iff {e : Error} :
    definitionsFrom n lines = .error e ↔ ∃ before bad after, lines = before ++ bad :: after ∧
      (∀ line ∈ before, ¬ IsMalformed line) ∧ IsMalformed bad ∧
      e = .malformedIngredient (n + before.length) bad.trim := by
  constructor
  · intro h
    induction lines generalizing n with
    | nil => cases h
    | cons line lines ih =>
      by_cases hline : IsMalformed line
      · rw [definitionsFrom_of_isMalformed hline] at h
        cases h
        exact ⟨[], line, lines, rfl, List.forall_mem_nil _, hline, rfl⟩
      · obtain ⟨before, bad, after, rfl, hbefore, hbad, rfl⟩ :=
          ih ((definitionsFrom_cons_eq_error_iff hline).1 h)
        exact ⟨line :: before, bad, after, rfl, List.forall_mem_cons.2 ⟨hline, hbefore⟩, hbad,
          by rw [add_length_cons]⟩
  · rintro ⟨before, bad, after, rfl, hbefore, hbad, rfl⟩
    induction before generalizing n with
    | nil => exact definitionsFrom_of_isMalformed hbad
    | cons line before ih =>
      obtain ⟨hline, hbefore⟩ := List.forall_mem_cons.1 hbefore
      rw [add_length_cons]
      exact (definitionsFrom_cons_eq_error_iff hline).2 (ih hbefore)

/-! ## All lines -/

/-- Reads the lines of a document. -/
def parseFrom (n : ℕ) (lines : List Text) : Except Error Document :=
  match significantFrom n lines with
  | [] => .error .missingPattern
  | (_, pattern) :: rest => do
    let definitions ← rest.mapM readDefinition
    return { pattern, definitions }

theorem parse_eq_parseFrom (h : HasLines t lines) : parse t = parseFrom 1 lines := by
  have hsignificant : significantLines t = significantFrom 1 lines := by
    rw [significantLines, h.map_trim]
    rfl
  rw [parse, hsignificant]
  rfl

theorem parseFrom_of_saysNothing (h : SaysNothing line) :
    parseFrom n (line :: lines) = parseFrom (n + 1) lines := by
  rw [parseFrom, significantFrom_of_saysNothing h, parseFrom]

theorem parseFrom_of_not_saysNothing (h : ¬ SaysNothing line) :
    parseFrom n (line :: lines) = do
      let definitions ← definitionsFrom (n + 1) lines
      return { pattern := line.trim, definitions } := by
  rw [parseFrom, significantFrom_of_not_saysNothing h]
  rfl

theorem parseFrom_eq_ok_iff {d : Document} : parseFrom n lines = .ok d ↔ Says n lines d := by
  constructor
  · intro h
    induction lines generalizing n with
    | nil => cases h
    | cons line lines ih =>
      by_cases hline : SaysNothing line
      · rw [parseFrom_of_saysNothing hline] at h
        exact .skip hline (ih h)
      · rw [parseFrom_of_not_saysNothing hline] at h
        obtain ⟨ds, hds, h⟩ := bind_eq_ok.1 h
        cases h
        obtain ⟨hne, hhash⟩ := not_saysNothing_iff.1 hline
        exact .pattern hne hhash (isTrimmed_trim line) (isPadded_trim line)
          (definitionsFrom_eq_ok_iff.1 hds)
  · intro h
    induction h with
    | skip hline _ ih => rw [parseFrom_of_saysNothing hline, ih]
    | pattern hne hhash htrimmed hpadded h =>
      obtain rfl := trim_eq_iff.2 ⟨htrimmed, hpadded⟩
      rw [parseFrom_of_not_saysNothing (not_saysNothing_iff.2 ⟨hne, hhash⟩),
        definitionsFrom_eq_ok_iff.2 h]
      rfl

/-- Every definition stands on one of the lines. -/
theorem Defines.exists_isOn {ds : List Definition} (h : Defines n lines ds) :
    ∀ d ∈ ds, ∃ line ∈ lines, d.IsOn line := by
  induction h with
  | nil => exact List.forall_mem_nil _
  | @skip n line lines ds _ _ ih =>
    exact fun d hd => (ih d hd).imp fun _ h => ⟨List.mem_cons_of_mem line h.1, h.2⟩
  | @definition n line lines d ds hline _ _ ih =>
    refine List.forall_mem_cons.2 ⟨⟨line, List.mem_cons_self, hline⟩, fun d hd => ?_⟩
    exact (ih d hd).imp fun _ h => ⟨List.mem_cons_of_mem line h.1, h.2⟩

theorem Says.exists_isOn {document : Document} (h : Says n lines document) :
    ∀ d ∈ document.definitions, ∃ line ∈ lines, d.IsOn line := by
  induction h with
  | @skip n line lines document _ _ ih =>
    exact fun d hd => (ih d hd).imp fun _ h => ⟨List.mem_cons_of_mem line h.1, h.2⟩
  | @pattern n line lines p ds _ _ _ _ h =>
    exact fun d hd => (h.exists_isOn d hd).imp fun _ h => ⟨List.mem_cons_of_mem line h.1, h.2⟩

theorem parseFrom_eq_missingPattern (h : ∀ line ∈ lines, SaysNothing line) :
    parseFrom n lines = .error .missingPattern := by
  induction lines generalizing n with
  | nil => rfl
  | cons line lines ih =>
    obtain ⟨hline, hlines⟩ := List.forall_mem_cons.1 h
    rw [parseFrom_of_saysNothing hline, ih hlines]

/-- The pattern is on the first line that says anything. -/
theorem parseFrom_append {skipped rest : List Text} (hskipped : ∀ line ∈ skipped, SaysNothing line)
    (hline : ¬ SaysNothing line) :
    parseFrom n (skipped ++ line :: rest) = do
      let definitions ← definitionsFrom (n + skipped.length + 1) rest
      return { pattern := line.trim, definitions } := by
  induction skipped generalizing n with
  | nil => exact parseFrom_of_not_saysNothing hline
  | cons first skipped ih =>
    obtain ⟨hfirst, hskipped⟩ := List.forall_mem_cons.1 hskipped
    rw [List.cons_append, parseFrom_of_saysNothing hfirst, ih hskipped, add_length_cons]

theorem forall_saysNothing_or_exists (lines : List Text) :
    (∀ line ∈ lines, SaysNothing line) ∨ ∃ skipped line rest, lines = skipped ++ line :: rest ∧
      (∀ line ∈ skipped, SaysNothing line) ∧ ¬ SaysNothing line := by
  induction lines with
  | nil => exact .inl (List.forall_mem_nil _)
  | cons line lines ih =>
    by_cases hline : SaysNothing line
    · rcases ih with hlines | ⟨skipped, pattern, rest, rfl, hskipped, hpattern⟩
      · exact .inl (List.forall_mem_cons.2 ⟨hline, hlines⟩)
      · exact .inr ⟨line :: skipped, pattern, rest, rfl,
          List.forall_mem_cons.2 ⟨hline, hskipped⟩, hpattern⟩
    · exact .inr ⟨[], line, lines, rfl, List.forall_mem_nil _, hline⟩

theorem parseFrom_eq_missingPattern_iff :
    parseFrom n lines = .error .missingPattern ↔ ∀ line ∈ lines, SaysNothing line := by
  refine ⟨fun h => ?_, parseFrom_eq_missingPattern⟩
  rcases forall_saysNothing_or_exists lines with
    hlines | ⟨skipped, pattern, rest, rfl, hskipped, hpattern⟩
  · exact hlines
  · rw [parseFrom_append hskipped hpattern] at h
    rcases bind_eq_error.1 h with h | ⟨_, -, h⟩
    · obtain ⟨_, _, _, -, -, -, h⟩ := definitionsFrom_eq_error_iff.1 h
      cases h
    · cases h

theorem number_eq (skipped before : List Text) (pattern : Text) :
    1 + skipped.length + 1 + before.length = (skipped ++ pattern :: before).length + 1 := by
  rw [List.length_append, List.length_cons]
  omega

theorem parseFrom_eq_malformedIngredient_iff {number : ℕ} {text : Text} :
    parseFrom 1 lines = .error (.malformedIngredient number text) ↔
      FirstMalformed lines number text := by
  constructor
  · intro h
    rcases forall_saysNothing_or_exists lines with
      hlines | ⟨skipped, pattern, rest, rfl, hskipped, hpattern⟩
    · rw [parseFrom_eq_missingPattern hlines] at h
      cases h
    · rw [parseFrom_append hskipped hpattern] at h
      rcases bind_eq_error.1 h with h | ⟨_, -, h⟩
      · obtain ⟨before, bad, after, rfl, hbefore, hbad, h⟩ := definitionsFrom_eq_error_iff.1 h
        cases h
        exact ⟨skipped, pattern, before, bad, after, rfl, hskipped, hpattern, hbefore, hbad,
          number_eq skipped before pattern, isTrimmed_trim bad, isPadded_trim bad⟩
      · cases h
  · rintro ⟨skipped, pattern, before, bad, after, rfl, hskipped, hpattern, hbefore, hbad, rfl,
      htrimmed, hpadded⟩
    obtain rfl := trim_eq_iff.2 ⟨htrimmed, hpadded⟩
    rw [parseFrom_append hskipped hpattern, ← number_eq]
    exact bind_eq_error.2 (.inl (definitionsFrom_eq_error_iff.2
      ⟨before, bad, after, rfl, hbefore, hbad, rfl⟩))

/-- What is read of a document is what its lines say. -/
theorem parse_iff_lines (t : Text) :
    (∃ lines, HasLines t lines) ∧ ∀ lines, HasLines t lines →
      (∀ d, parse t = .ok d ↔ Says 1 lines d) ∧
      (parse t = .error .missingPattern ↔ ∀ line ∈ lines, SaysNothing line) ∧
      ∀ number text, parse t = .error (.malformedIngredient number text) ↔
        FirstMalformed lines number text := by
  refine ⟨⟨t.lines, hasLines_lines t⟩, fun lines h => ?_⟩
  rw [parse_eq_parseFrom h]
  exact ⟨fun d => parseFrom_eq_ok_iff, parseFrom_eq_missingPattern_iff,
    fun number text => parseFrom_eq_malformedIngredient_iff⟩

/-- Both kinds of line ends, lines that say nothing, an expression with an equals sign and a hash,
and an ingredient that is defined twice; and a document with a malformed line. -/
theorem parse_iff_lines_twice :
    let t : Text := "#\r\n X# \n\tX=a = # b \r\n\nX=c".toList
    let lines : List Text := [['#'], " X# ".toList, "\tX=a = # b ".toList, [], "X=c".toList]
    let u : Text := "X\n#\r\n =x".toList
    HasLines t lines ∧
      Says 1 lines ⟨"X#".toList, [⟨['X'], "a = # b".toList, 3⟩, ⟨['X'], ['c'], 5⟩]⟩ ∧
      HasLines u [['X'], ['#'], " =x".toList] ∧
      FirstMalformed [['X'], ['#'], " =x".toList] 3 "=x".toList := by
  intro t lines u
  have ht : HasLines t lines :=
    @HasLines.carriageReturn ['#'] _ _ (by decide) <|
      @HasLines.lineFeed " X# ".toList _ _ (by decide) <|
      @HasLines.carriageReturn "\tX=a = # b ".toList _ _ (by decide) <|
      @HasLines.lineFeed [] _ _ (by decide) <| .last (by decide)
  have hu : HasLines u [['X'], ['#'], " =x".toList] :=
    @HasLines.lineFeed ['X'] _ _ (by decide) <|
      @HasLines.carriageReturn ['#'] _ _ (by decide) <| .last (by decide)
  exact ⟨ht, (((parse_iff_lines t).2 lines ht).1 _).1 (by decide +kernel), hu,
    (((parse_iff_lines u).2 _ hu).2.2 3 _).1 (by decide +kernel)⟩

end Document

end Confection
