import MakeBlueprint.Proofs.Reading.Abreast.Blocks
import MakeBlueprint.Proofs.Reading.Verbatim

/-!
# Assignments keep their text

An assignment tells the text of its statement (`Assignment.KeptIn`): its target, its name and its
operator tell what is in front of the value, and the value tells the rest, up to white characters
around it and escaped line breaks.

* `Cursor.Faithful`: the invariant of the readers. What was assigned so far is kept in the source.
* `Cursor.Faithful.assignment`, `Cursor.Faithful.statement`: every reader without faults keeps the
  invariant.
* `keptIn_of_mem_parse`: **all assignments of a text without faults** are kept in it.
-/

namespace MakeBlueprint.Makefile

open Text (byteSize isWhite)
open Token (lex textOf unbroken dollars Lossless)
open Phrase (Body)

/-! ## Trimmed phrases -/

namespace Phrase.Body

variable {b : Body} {c : Char}

theorem isWhite_leadingWhite (b : Body) : ∀ x ∈ b.leadingWhite, isWhite x = true := by
  induction b with
  | nil => exact List.forall_mem_nil _
  | char x r ih =>
    rw [leadingWhite]
    split
    · next hx => exact List.forall_mem_cons.mpr ⟨hx, ih⟩
    · exact List.forall_mem_nil _
  | ref => exact List.forall_mem_nil _

/-- White characters are dropped at the end. -/
theorem exists_dump_trimEnd (b : Body) :
    ∃ w, (∀ x ∈ w, isWhite x = true) ∧ b.dump = b.trimEnd.dump ++ w := by
  induction b with
  | nil => exact ⟨[], nofun, rfl⟩
  | char x r ih =>
    obtain ⟨w, hw, hdump⟩ := ih
    simp only [trimEnd, dump, hdump]
    split
    · next hnil =>
      rw [hnil]
      split
      · next hx => exact ⟨x :: w, List.forall_mem_cons.mpr ⟨hx, hw⟩, rfl⟩
      · exact ⟨w, hw, rfl⟩
    · exact ⟨w, hw, rfl⟩
  | ref name m n d r _ ih =>
    obtain ⟨w, hw, hdump⟩ := ih
    exact ⟨w, hw, by rw [trimEnd, dump, dump, hdump, List.append_assoc]⟩

theorem dump_dropLast (h : b.endsWith c = true) : b.dump = b.dropLast.dump ++ [c] := by
  induction b with
  | nil => cases h
  | char x r ih =>
    cases r with
    | nil =>
      obtain rfl : x = c := by simpa [endsWith] using h
      rfl
    | char => exact congrArg (x :: ·) (ih h)
    | ref => exact congrArg (x :: ·) (ih h)
  | ref name m n d r _ ih => rw [dropLast, dump, dump, ih h, List.append_assoc]

/-- Trimming a phrase does not change its trimmed text. -/
theorem trim_dump_trim (b : Body) : Text.trim b.trimStart.trimEnd.dump = Text.trim b.dump := by
  have hstart : Text.trim b.dump = Text.trim b.trimStart.dump := by
    have hsplit := congrArg dump b.leadingWhite_append_trimStart
    rw [dump_append, dump_ofText] at hsplit
    rw [← hsplit]
    unfold Text.trim Text.trimStart
    rw [List.dropWhile_append_of_pos b.isWhite_leadingWhite]
  obtain ⟨w, hw, hdump⟩ := b.trimStart.exists_dump_trimEnd
  rw [hstart, hdump, Text.trim_append_white hw]

theorem positions_trimEnd (b : Body) : b.trimEnd.positions = b.positions := by
  induction b with
  | nil => rfl
  | char x r ih =>
    rw [trimEnd, positions, ← ih]
    split
    · next h =>
      rw [h]
      split <;> rfl
    · rfl
  | ref name m n d r _ ih => rw [trimEnd, positions, positions, ih]

theorem positions_trimStart (b : Body) : b.trimStart.positions = b.positions := by
  have hsplit := congrArg positions b.leadingWhite_append_trimStart
  rwa [positions_append, positions_ofText, List.nil_append] at hsplit

end Phrase.Body

/-! ## The text of an assignment -/

/-- **How an operator is written.** Behind a target, white characters may stand between a mark and
its equals sign. -/
inductive AssignOp.Written : AssignOp → Text → Prop
  | recursive : Written .recursive ['=']
  | simple : Written .simple [':', '=']
  | double : Written .simple [':', ':', '=']
  | append {w : Text} (hw : ∀ x ∈ w, isWhite x = true) : Written .append ('+' :: (w ++ ['=']))
  | conditional {w : Text} (hw : ∀ x ∈ w, isWhite x = true) :
      Written .conditional ('?' :: (w ++ ['=']))

/-- **What stands in front of the name** that is assigned to: nothing, or a target with its
colons. -/
inductive Labels : Option Phrase → Text → Prop
  | none : Labels none []
  | target {t : Phrase} {v colons w : Text} (hv : ∀ x ∈ v, isWhite x = true)
      (hcolons : colons = [':'] ∨ colons = [':', ':']) (hw : ∀ x ∈ w, isWhite x = true) :
      Labels (some t) (t.dump ++ v ++ colons ++ w)

/-- **An assignment tells the text in front of its value**: its target, its name and its
operator. -/
def Assignment.Heads (a : Assignment) (front : Text) : Prop :=
  ∃ label gap operator, Labels a.target label ∧ (∀ x ∈ gap, isWhite x = true) ∧
    a.op.Written operator ∧ front = label ++ a.name.dump ++ gap ++ operator

/-- **An assignment is kept in a source**, in a span of it: the tokens of the span are those that
it heads, up to its operator, and those of its value. White characters around the value are
dropped, and the references in it have the positions of the dollar signs. -/
def Assignment.KeptIn (source : Text) (span : Span) (a : Assignment) : Prop :=
  ∃ before front behind after, lex source = before ++ (front ++ (behind ++ after)) ∧
    span = ⟨byteSize (textOf before), byteSize (textOf (before ++ (front ++ behind)))⟩ ∧
    a.Heads (unbroken front) ∧
    Text.trim a.value.dump = Text.trim (unbroken behind) ∧
    a.value.body.positions = dollars false (byteSize (textOf (before ++ front))) behind

namespace Cursor

variable {source : Text} {c d mid next : Cursor} {body : Body} {ts us : List Token} {t : Token}
  {op : AssignOp} {target : Option Phrase} {name : Phrase} {keyword : Keyword}

/-! ## The invariant -/

/-- **The invariant of the readers.** A cursor stands in front of a token of its source, what was
assigned so far is kept in the source, and there are no comments. -/
structure Faithful (source : Text) (c : Cursor) : Prop where
  lossless : Lossless (lex source)
  exists_before : ∃ before, lex source = before ++ c.rest ∧ c.read = byteSize (textOf before)
  statements : ∀ s ∈ c.statements, ∀ a, s.1 = .assignment a → a.KeptIn source s.2
  comments : c.comments = []

theorem faithful_start (h : Lossless (lex source)) : Faithful source (start source) :=
  ⟨h, ⟨[], rfl, rfl⟩, nofun, rfl⟩

theorem Faithful.rest (h : Faithful source c) : Lossless c.rest := by
  obtain ⟨before, hsource, -⟩ := h.exists_before
  have hlossless := h.lossless
  rw [hsource] at hlossless
  exact hlossless.suffix

/-- Going past tokens keeps the invariant. -/
theorem Faithful.passes (h : Faithful source c) (hpass : Passes c ts d) : Faithful source d where
  lossless := h.lossless
  exists_before := by
    obtain ⟨before, hsource, hread⟩ := h.exists_before
    refine ⟨before ++ ts, ?_, ?_⟩
    · rw [hsource, hpass.rest, List.append_assoc]
    · rw [hpass.read, hread, Token.textOf_append, Text.byteSize_append]
  statements := by
    rw [hpass.statements]
    exact h.statements
  comments := hpass.comments.trans h.comments

theorem Faithful.advance (h : Faithful source c) (n : Nat) : Faithful source (c.advance n) :=
  h.passes (passes_advance c n)

theorem Faithful.ne_hash (h : Faithful source c) : c.kindAt 0 ≠ some .hash := by
  intro hhash
  obtain ⟨t, ts, hrest, hkind⟩ := exists_of_kindAt hhash
  have hlossless := h.rest
  rw [hrest] at hlossless
  exact hlossless.ne_hash hkind

theorem Faithful.record (h : Faithful source c) {content : Content} {start : Nat}
    (hcontent : ∀ a, content = .assignment a → a.KeptIn source (c.spanFrom start)) :
    Faithful source (c.record content start) where
  lossless := h.lossless
  exists_before := h.exists_before
  statements := List.forall_mem_append.mpr ⟨h.statements, List.forall_mem_singleton.mpr hcontent⟩
  comments := h.comments

theorem Faithful.phrase (h : Faithful source c) {place : Place}
    (hd : (c.phrase place).2.faults = []) : Faithful source (c.phrase place).2 := by
  obtain ⟨-, ts, hpass, -⟩ := (reads_phrase place c).keeps h.rest hd
  exact h.passes hpass

/-! ## Punctuation -/

/-- A token of a kind with one character, which is neither an escape nor a line break. -/
theorem Faithful.passes_single (h : Faithful source c) {kind : Token.Kind} {x : Char}
    (hnext : c.kindAt 0 = some kind) (hx : kind.char? = some x) (hne : kind ≠ .newline) :
    ∃ t, Passes c [t] (c.advance 1) ∧ unbroken [t] = [x] := by
  obtain ⟨t, us, hrest, hkind⟩ := exists_of_kindAt hnext
  have ht := (h.rest.formed t (hrest ▸ List.mem_cons_self)).eq_of_char? hkind hx hne
  have hescape : t.kind ≠ .escape := by
    rintro hk
    rw [hk] at hkind
    rw [← hkind] at hx
    cases hx
  refine ⟨t, passes_advance_one hrest, ?_⟩
  rw [Token.unbroken_cons _ hescape, ht]
  rfl

/-- Two colons. -/
theorem Faithful.passes_colons (h : Faithful source c) (hcolon : c.kindAt 0 = some .colon)
    (hcolon' : c.kindAt 1 = some .colon) :
    ∃ ts, Passes c ts (c.advance 2) ∧ unbroken ts = [':', ':'] := by
  obtain ⟨t, hpass, htext⟩ := h.passes_single hcolon rfl nofun
  have hnext : (c.advance 1).kindAt 0 = some .colon := (kindAt_advance c 1 0).trans hcolon'
  obtain ⟨u, hpass', htext'⟩ := (h.passes hpass).passes_single hnext rfl nofun
  rw [advance_advance] at hpass'
  refine ⟨_, hpass.trans hpass', ?_⟩
  rw [Token.unbroken_append, htext, htext']
  rfl

/-- Blanks are white. -/
theorem Faithful.passes_blanks (h : Faithful source c) :
    ∃ ts, Passes c ts c.skipBlanks ∧ ∀ x ∈ unbroken ts, isWhite x = true := by
  refine ⟨_, passes_advance c _, ?_⟩
  rw [← List.prefix_iff_eq_take.mp (List.takeWhile_prefix _)]
  intro x hx
  obtain ⟨t, ht, hx⟩ := List.mem_flatMap.mp hx
  have hblank : t.kind.isBlank = true := by
    simpa using List.mem_takeWhile_imp ht
  have hescape : t.kind ≠ .escape := by
    rintro hk
    rw [hk] at hblank
    cases hblank
  rw [if_neg fun hk => hescape hk.1] at hx
  have hlayout := mem_layout (h.rest.formed t ((List.takeWhile_sublist _).subset ht))
    (by rw [hblank]; rfl) hx
  simp only [List.mem_cons, List.not_mem_nil, or_false] at hlayout
  rcases hlayout with rfl | rfl | rfl | rfl <;> decide

/-- The mark of an operator, in front of its equals sign. -/
inductive Marks : AssignOp → Text → Prop
  | recursive : Marks .recursive []
  | simple : Marks .simple [':']
  | double : Marks .simple [':', ':']
  | conditional : Marks .conditional ['?']

theorem ReadsOperator.passes (h : ReadsOperator c op d) (hc : Faithful source c) :
    ∃ ts, Passes c ts d ∧ Marks op (unbroken ts) := by
  cases h with
  | recursive hequals => exact ⟨[], .refl c, .recursive⟩
  | conditional hquestion hequals =>
    obtain ⟨t, hpass, htext⟩ := hc.passes_single hquestion rfl nofun
    exact ⟨[t], hpass, htext ▸ .conditional⟩
  | simple hcolon hequals =>
    obtain ⟨t, hpass, htext⟩ := hc.passes_single hcolon rfl nofun
    exact ⟨[t], hpass, htext ▸ .simple⟩
  | double hcolon hcolon' hequals =>
    obtain ⟨ts, hpass, htext⟩ := hc.passes_colons hcolon hcolon'
    exact ⟨ts, hpass, htext ▸ .double⟩

theorem ReadsColons.passes (h : ReadsColons c d) (hc : Faithful source c) :
    ∃ ts, Passes c ts d ∧ (unbroken ts = [':'] ∨ unbroken ts = [':', ':']) := by
  cases h with
  | single hcolon hequals hcolon' =>
    obtain ⟨t, hpass, htext⟩ := hc.passes_single hcolon rfl nofun
    exact ⟨[t], hpass, .inl htext⟩
  | double hcolon hcolon' hequals =>
    obtain ⟨ts, hpass, htext⟩ := hc.passes_colons hcolon hcolon'
    exact ⟨ts, hpass, .inr htext⟩

theorem ReadsPrerequisites.passes (h : ReadsPrerequisites c body d) (hc : Faithful source c)
    (hd : d.faults = []) : ∃ ts, Passes c ts d ∧ unbroken ts = body.dump := by
  induction h with
  | last hbody hstop =>
    obtain ⟨-, ts, hpass, htext, -⟩ := hbody.keeps hc.rest hd
    exact ⟨ts, hpass, htext⟩
  | @more c mid d first body hfirst hcolon hrest ih =>
    have hmid := ((ahead_advance mid 1).trans hrest.ahead).faults_nil hd
    obtain ⟨-, ts, hpass, htext, -⟩ := hfirst.keeps hc.rest hmid
    obtain ⟨t, hpass', htext'⟩ := (hc.passes hpass).passes_single hcolon.1 rfl nofun
    obtain ⟨us, hpass'', htext''⟩ := ih ((hc.passes hpass).passes hpass') hd
    refine ⟨_, (hpass.trans hpass').trans hpass'', ?_⟩
    rw [Token.unbroken_append, Token.unbroken_append, htext, htext', htext'']
    simp [Body.dump]

/-! ## Assignments -/

/-- What is read in front of an equals sign, up to the operator, tells the name and the operator
that come of it. -/
theorem heads_takeMark {value : Phrase} {front label gap mark : Text} (hlabel : Labels target label)
    (hgap : ∀ x ∈ gap, isWhite x = true) (hmark : Marks op mark)
    (hfront : front = label ++ name.dump ++ gap ++ mark) :
    Assignment.Heads ⟨(op.takeMark name).2.trimEnd, (op.takeMark name).1, value, target⟩
      (front ++ ['=']) := by
  -- A mark at the end of the name is part of the operator.
  have hdropped : ∀ {c : Char}, name.body.endsWith c = true → op = .recursive → ∃ w,
      (∀ x ∈ w, isWhite x = true) ∧
        front ++ ['='] = label ++ name.dropLast.trimEnd.dump ++ w ++ c :: (gap ++ ['=']) := by
    rintro c hc rfl
    obtain ⟨w, hw, hdump⟩ := name.body.dropLast.exists_dump_trimEnd
    refine ⟨w, hw, ?_⟩
    cases hmark
    have hname : name.dump = name.dropLast.trimEnd.dump ++ w ++ [c] :=
      (Body.dump_dropLast hc).trans (congrArg (· ++ [c]) hdump)
    rw [hfront, hname]
    simp
  unfold AssignOp.takeMark
  split
  · next hplus =>
    obtain ⟨w, hw, hfront⟩ := hdropped hplus.2 hplus.1
    exact ⟨label, w, _, hlabel, hw, .append hgap, hfront⟩
  · split
    · next hquestion =>
      obtain ⟨w, hw, hfront⟩ := hdropped hquestion.2 hquestion.1
      exact ⟨label, w, _, hlabel, hw, .conditional hgap, hfront⟩
    · obtain ⟨w, hw, hdump⟩ := name.body.exists_dump_trimEnd
      have hname : name.dump = name.trimEnd.dump ++ w := hdump
      refine ⟨label, w ++ gap, mark ++ ['='], hlabel, List.forall_mem_append.mpr ⟨hw, hgap⟩, ?_, ?_⟩
      · cases hmark with
        | recursive => exact .recursive
        | simple => exact .simple
        | double => exact .double
        | conditional => exact .conditional (w := []) nofun
      · rw [hfront, hname]
        simp

/-- **An assignment is kept.** Between the start of its statement and its operator are the tokens
that it heads. -/
theorem Faithful.assignment {label gap mark : Text} (h : Faithful source c)
    (hpass : Passes c ts mid) (hequals : mid.kindAt 0 = some .equals) (hlabel : Labels target label)
    (hgap : ∀ x ∈ gap, isWhite x = true) (hmark : Marks op mark)
    (hfront : unbroken ts = label ++ name.dump ++ gap ++ mark)
    (hpos : target.elim name.pos Phrase.pos = c.read)
    (hd : (mid.assignment op target name).faults = []) :
    Faithful source (mid.assignment op target name) := by
  obtain ⟨t, hone, htext⟩ := (h.passes hpass).passes_single hequals rfl nofun
  have hfaults := (ahead_assignment_value op target name mid).faults_nil hd
  have hvalue := (h.passes hpass).passes hone
  obtain ⟨-, us, hbehind, hunbroken, hdollars⟩ := (reads_phrase .line _).keeps hvalue.rest hfaults
  have hkept : ∀ start, start = c.read → (∀ a, Content.assignment ⟨(op.takeMark name).2.trimEnd,
      (op.takeMark name).1, ((mid.advance 1).phrase .line).1.trim, target⟩ = .assignment a →
        a.KeptIn source (((mid.advance 1).phrase .line).2.spanFrom start)) := by
    rintro _ rfl a ⟨⟩
    obtain ⟨before, hsource, hread⟩ := h.exists_before
    have hwhole := (hpass.trans hone).trans hbehind
    refine ⟨before, ts ++ [t], us, ((mid.advance 1).phrase .line).2.rest, ?_, ?_, ?_, ?_, ?_⟩
    · rw [hsource, hwhole.rest]
      simp
    · rw [Cursor.spanFrom, hwhole.read, Nat.max_eq_left (Nat.le_add_right _ _), hread,
        ← Text.byteSize_append, ← Token.textOf_append]
    · rw [Token.unbroken_append, htext]
      exact heads_takeMark hlabel hgap hmark hfront
    · rw [hunbroken]
      exact Body.trim_dump_trim _
    · have hbody : ((mid.advance 1).phrase .line).1.trim.body.positions =
          ((mid.advance 1).phrase .line).1.body.positions :=
        (Body.positions_trimEnd _).trans (Body.positions_trimStart _)
      rw [hbody, ← hdollars, (hpass.trans hone).read, hread, ← Text.byteSize_append,
        ← Token.textOf_append]
  unfold Cursor.assignment at hd ⊢
  cases target with
  | none =>
    dsimp only at hd ⊢
    split at hd
    · exact absurd hd (faults_report_ne_nil _ _ _)
    · next hname =>
      rw [if_neg hname]
      exact (hvalue.passes hbehind).record (hkept _ hpos)
  | some t =>
    dsimp only at hd ⊢
    split at hd
    · exact absurd hd (faults_report_ne_nil _ _ _)
    · next hname =>
      rw [if_neg hname]
      exact (hvalue.passes hbehind).record (hkept _ hpos)

/-! ## Statements -/

theorem Faithful.directive (h : Faithful source c) (hd : (c.directive keyword).faults = []) :
    Faithful source (c.directive keyword) := by
  have hword : Faithful source (c.advance 1) := h.advance 1
  have hd : ((c.advance 1).directiveArguments keyword).2.faults = [] := hd
  suffices harguments : Faithful source ((c.advance 1).directiveArguments keyword).2 from
    harguments.record nofun
  revert hd
  unfold Cursor.directiveArguments
  split
  · exact fun _ => hword
  · exact fun _ => hword
  · exact fun _ => hword
  · unfold Cursor.defineArguments
    dsimp only
    split
    · exact fun _ => (hword.advance _).advance _
    · exact fun hd => absurd ((ahead_advance _ _).faults_nil hd) (faults_report_ne_nil _ _ _)
  · exact fun hd => (hword.advance _).phrase hd

theorem Faithful.skipBreak (h : Faithful source c) : Faithful source c.skipBreak := by
  unfold Cursor.skipBreak
  split
  · exact h.advance 1
  · exact h

theorem Faithful.recipeLine (h : Faithful source c) : Faithful source c.recipeLine.2 :=
  (h.advance _).advance 1

theorem ReadsRecipe.faithful {lines : Text} (h : ReadsRecipe c lines d) (hc : Faithful source c)
    (hd : d.faults = []) : Faithful source d := by
  induction h with
  | line htab hrest ih => exact ih (hc.advance _).recipeLine hd
  | directive htab hkeyword hrest ih =>
    have hdirective := ((ahead_skipBreak _).trans hrest.ahead).faults_nil hd
    exact ih (hc.directive hdirective).skipBreak hd
  | stop htab hkeyword => exact hc

theorem Faithful.recipe {rule prerequisites : Phrase} {firstLine : Bool} (h : Faithful source c)
    (hd : (c.recipe rule prerequisites firstLine).faults = []) :
    Faithful source (c.recipe rule prerequisites firstLine) := by
  obtain ⟨lines, d, hlines, heq⟩ := exists_recipe rule prerequisites firstLine c
  have hstart : Faithful source (recipeStart firstLine c).2 := by
    unfold recipeStart
    split
    · exact h.recipeLine
    · exact h
  rw [heq] at hd ⊢
  have hinside := hlines.faithful
    ⟨hstart.lossless, hstart.exists_before, nofun, hstart.comments⟩ hd
  exact ⟨hinside.lossless, hinside.exists_before, List.forall_mem_append.mpr
    ⟨hstart.statements, List.forall_mem_cons.mpr ⟨nofun, hinside.statements⟩⟩, hinside.comments⟩

theorem OpensRecipe.faithful {firstLine : Bool} (h : OpensRecipe c firstLine d)
    (hc : Faithful source c) (hd : d.faults = []) : Faithful source d := by
  cases h with
  | semicolon hnext => exact (hc.advance 1).advance _
  | newline hnext => exact hc.advance 1
  | comment hnext => exact absurd hnext hc.ne_hash
  | nothing hnext => exact hc
  | unexpected kind hnext hkind => exact absurd hd (faults_report_ne_nil _ _ _)

/-- **Behind a target**, an assignment is kept with the target. -/
theorem Faithful.rule {rule : Phrase} {colons : Text} (h : Faithful source c)
    (hpass : Passes c ts mid) (hcolons : colons = [':'] ∨ colons = [':', ':'])
    (hfront : unbroken ts = rule.dump ++ colons) (hpos : rule.pos = c.read)
    (hd : (mid.rule rule).faults = []) : Faithful source (mid.rule rule) := by
  obtain ⟨v, hv, hdump⟩ := rule.body.exists_dump_trimEnd
  obtain ⟨blanks, hblanks, hwhite⟩ := (h.passes hpass).passes_blanks
  have hskip := h.passes (hpass.trans hblanks)
  have hlabel : Labels (some rule.trimEnd)
      (rule.trimEnd.dump ++ v ++ colons ++ unbroken blanks) := .target hv hcolons hwhite
  -- The name with the white characters behind it.
  have hname : ∀ {body : Body} {us : List Token}, unbroken us = body.dump → ∃ w,
      (∀ x ∈ w, isWhite x = true) ∧ unbroken (ts ++ blanks ++ us) =
        rule.trimEnd.dump ++ v ++ colons ++ unbroken blanks ++
          (Phrase.trimEnd ⟨mid.skipBlanks.offset, body⟩).dump ++ w := by
    intro body us hus
    obtain ⟨w, hw, hdumpBody⟩ := body.exists_dump_trimEnd
    have hrule : rule.dump = rule.trimEnd.dump ++ v := hdump
    have hbody : body.dump = (Phrase.trimEnd ⟨mid.skipBlanks.offset, body⟩).dump ++ w := hdumpBody
    refine ⟨w, hw, ?_⟩
    rw [Token.unbroken_append, Token.unbroken_append, hfront, hus, hbody, hrule]
    simp
  have hrule := readsRule_rule rule mid
  generalize mid.rule rule = e at hrule hd
  cases hrule with
  | @assignment last body hbody hnext =>
    have hlast := ((ahead_advance _ 1).trans (ahead_assignment _ _ _ _)).faults_nil hd
    obtain ⟨us, hus, htext⟩ := hbody.passes hskip hlast
    obtain ⟨w, hw, hwhole⟩ := hname htext
    exact h.assignment ((hpass.trans hblanks).trans hus) hnext hlabel hw .recursive
      (by rw [hwhole, List.append_nil]) hpos hd
  | @simple last body hbody hnext =>
    have hlast := ((ahead_advance _ 1).trans (ahead_assignment _ _ _ _)).faults_nil hd
    obtain ⟨us, hus, htext⟩ := hbody.passes hskip ((ahead_advance _ 1).faults_nil hlast)
    obtain ⟨w, hw, hwhole⟩ := hname htext
    obtain ⟨t, hone, hcolon⟩ := (hskip.passes hus).passes_single hnext rfl nofun
    refine h.assignment (((hpass.trans hblanks).trans hus).trans hone) ?_ hlabel hw .simple
      ?_ hpos hd
    · exact (kindAt_advance last 1 0).trans (hbody.kindAt_one hnext)
    · rw [Token.unbroken_append, hwhole, hcolon]
  | @recipe last next body firstLine hbody hopens =>
    have hnext := (ahead_recipe _ _ _ _).faults_nil hd
    have hlast := hopens.ahead.faults_nil hnext
    obtain ⟨us, hus, -⟩ := hbody.passes hskip hlast
    exact (hopens.faithful (hskip.passes hus) hnext).recipe hd

theorem Faithful.loneLine {phrase : Phrase} (h : Faithful source c)
    (hd : (c.loneLine phrase).faults = []) : Faithful source (c.loneLine phrase) := by
  rw [loneLine_eq] at hd ⊢
  have hnoted := (ahead_endLine _).faults_nil hd
  have hfaithful : Faithful source (c.noted phrase) := by
    unfold noted at hnoted ⊢
    split at hnoted
    · exact h.record nofun
    · split at hnoted
      · next hempty =>
        rw [if_pos hempty]
        exact h
      · exact absurd hnoted (faults_report_ne_nil _ _ _)
  unfold endLine
  rw [if_neg hfaithful.ne_hash]
  exact hfaithful.advance 1

theorem Faithful.statement (h : Faithful source c) (hrest : c.rest ≠ [])
    (hd : c.statement.faults = []) : Faithful source c.statement := by
  obtain ⟨t, ts, hcons⟩ := List.exists_cons_of_ne_nil hrest
  have hoffset : c.offset = c.read := offset_of_kindAt (kindAt_of_rest hcons)
  have hstatement := readsStatement_statement c
  generalize c.statement = d at hstatement hd
  cases hstatement with
  | directive hkeyword => exact h.directive hd
  | @assignment mid next head op hkeyword hhead hop =>
    have hnext := ((ahead_advance _ 1).trans (ahead_assignment _ _ _ _)).faults_nil hd
    obtain ⟨-, us, hus, htext, -⟩ := hhead.keeps h.rest (hop.ahead.faults_nil hnext)
    obtain ⟨vs, hvs, hmark⟩ := hop.passes (h.passes hus)
    have hgap : ∀ x ∈ ([] : Text), isWhite x = true := nofun
    refine h.assignment (hus.trans hvs) hop.kindAt .none hgap hmark ?_ hoffset hd
    rw [Token.unbroken_append, htext]
    simp [Phrase.dump]
  | @rule mid next head hkeyword hhead hcolons =>
    have hnext := (ahead_rule _ _).faults_nil hd
    obtain ⟨-, us, hus, htext, -⟩ := hhead.keeps h.rest (hcolons.ahead.faults_nil hnext)
    obtain ⟨vs, hvs, hcolon⟩ := hcolons.passes (h.passes hus)
    refine h.rule (hus.trans hvs) hcolon ?_ hoffset hd
    rw [Token.unbroken_append, htext]
    rfl
  | lone hkeyword hhead hnext =>
    obtain ⟨-, us, hus, -⟩ := hhead.keeps h.rest ((ahead_loneLine _ _).faults_nil hd)
    exact (h.passes hus).loneLine hd
  | expectedEquals hkeyword hhead hquestion hequals =>
    have hreported := ((ahead_skipLine _).trans (ahead_advance _ 1)).faults_nil hd
    exact absurd hreported (faults_report_ne_nil _ _ _)
  | unexpected hkeyword hhead hnext hkind =>
    have hreported := ((ahead_skipLine _).trans (ahead_advance _ 1)).faults_nil hd
    exact absurd hreported (faults_report_ne_nil _ _ _)

theorem ReadsLines.faithful (h : ReadsLines c d) (hc : Faithful source c) (hd : d.faults = []) :
    Faithful source d := by
  induction h with
  | done hrest => exact hc.advance _
  | statement hrest hlines ih =>
    have hstatement := hlines.ahead.faults_nil hd
    exact ih (Faithful.statement (hc.advance _) hrest hstatement) hd

end Cursor

variable {source : Text}

/-- The references of an assignment that is kept begin with dollar signs of the source. -/
theorem Assignment.KeptIn.exists_dollar {span : Span} {a : Assignment} (h : a.KeptIn source span) :
    ∀ p ∈ a.value.body.positions, ∃ t u, source = t ++ '$' :: u ∧ byteSize t = p := by
  obtain ⟨before, front, behind, after, hsource, -, -, -, hpositions⟩ := h
  intro p hp
  rw [hpositions] at hp
  obtain ⟨us, t, vs, rfl, hkind, rfl⟩ := Token.exists_of_mem_dollars hp
  have ht : t.Formed := Token.formed_of_mem_lex source t (by rw [hsource]; simp)
  obtain rfl := ht.eq_of_char? hkind rfl nofun
  refine ⟨textOf (before ++ front ++ us), textOf (vs ++ after), ?_, ?_⟩
  · rw [← Token.textOf_lex source, hsource]
    simp [textOf]
  · rw [Token.textOf_append, Text.byteSize_append]

/-- **Assignments keep their text.** In a text without faults, without comments and without escapes
behind dollar signs, an assignment tells its statement: its head tells the tokens up to the
operator, and its value the tokens from there to the end of the statement, up to white characters
around them and with a blank for every escaped line break. The value has one more literal run than
references, and all references in it, at any depth, have the positions of their dollar signs. -/
theorem keptIn_of_mem_parse (hhash : '#' ∉ source) (hescape : ¬ ['$', '\\'] <:+: source)
    (herrors : (parse source).errors = []) {s : Statement} (hs : s ∈ (parse source).statements)
    {a : Assignment} (ha : s.content = .assignment a) :
    a.KeptIn source s.span ∧
      a.value.body.strings.length = a.value.body.references.length + 1 ∧
      ∀ p ∈ a.value.body.positions, ∃ t u, source = t ++ '$' :: u ∧ byteSize t = p := by
  have hfaults : (readText source).faults = [] := List.map_eq_nil_iff.mp herrors
  have hfaithful := (Cursor.readsLines_readText source).faithful
    (Cursor.faithful_start (Token.lossless_lex hhash hescape)) hfaults
  have hkept : a.KeptIn source s.span := by
    obtain ⟨p, hp, rfl⟩ := List.mem_map.mp hs
    rcases mem_interleave.mp hp with hmem | hmem
    · exact hfaithful.statements p hmem a ha
    · rw [hfaithful.comments] at hmem
      cases hmem
  exact ⟨hkept, a.value.body.length_strings, hkept.exists_dollar⟩

/-- An assignment behind a target, with references in a reference and a line that is broken. -/
def nested : Text := "a b: X +  = $(c $$ \\\n$(D)) $Yz \ny =\n".toList

theorem keptIn_nested :
    (assignments (parse nested).statements).map (fun a => a.value.body.positions) =
        [[12, 16, 21, 27], []] ∧
      ∀ s ∈ (parse nested).statements, ∀ a, s.content = .assignment a → a.KeptIn nested s.span ∧
        a.value.body.strings.length = a.value.body.references.length + 1 ∧
        ∀ p ∈ a.value.body.positions, ∃ t u, nested = t ++ '$' :: u ∧ byteSize t = p := by
  have hhash : '#' ∉ nested := by decide
  have hescape : ¬ ['$', '\\'] <:+: nested := by decide +kernel
  have herrors : (parse nested).errors = [] := by decide +kernel
  exact ⟨by decide +kernel, fun _ hs _ ha => keptIn_of_mem_parse hhash hescape herrors hs ha⟩

end MakeBlueprint.Makefile
