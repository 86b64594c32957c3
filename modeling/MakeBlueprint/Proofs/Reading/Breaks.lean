import MakeBlueprint.Proofs.Reading.Layout
import MakeBlueprint.Proofs.Reading.Lines
import MakeBlueprint.Proofs.Reading.Tokens
import MakeBlueprint.Proofs.Reading.Trimming

/-!
# Line breaks in phrases

A phrase ends with its line, and a line break that is escaped in it is read as a space. There is one
way around this: a dollar sign in front of an escaped line break takes the escape for its name. So a
line feed in a phrase belongs to such a name (`Body.HoldsBreak`).

* `Body.OnLine`: what is read up to the end of a line. `OnLine.holdsBreak`: a line feed in it
  belongs to a name.
* `ReadsBody.onLine`: **phrases are of this form**. The invariant of the readers is `Steady`.
* `holdsBreak_of_mem_assignments`: so are the values of all assignments of a text.
-/

namespace MakeBlueprint.Makefile

/-! ## Tokens -/

namespace Token

/-- The tokens that escape a line break. -/
def escapedBreaks : List Text := [['\\', '\n'], ['\\', '\r', '\n']]

variable {t : Token}

theorem IsLetter.ne_newline {c : Char} (h : IsLetter c) : c ≠ '\n' := by
  rintro rfl
  exact absurd h.1 (by decide)

/-- The text of a token that is neither a line break nor an escape. -/
theorem Formed.newline_not_mem (h : t.Formed) (hbreak : t.kind ≠ .newline)
    (hescape : t.kind ≠ .escape) : '\n' ∉ t.text := by
  obtain ⟨kind, text⟩ := t
  cases kind with
  | newline => exact absurd rfl hbreak
  | escape => exact absurd rfl hescape
  | identifier => exact fun hmem => (h.2 _ hmem).ne_newline rfl
  | backslash =>
    obtain rfl : text = ['\\'] := h
    decide
  | _ =>
    obtain ⟨c, hc, rfl⟩ := h
    rintro hmem
    rw [← List.mem_singleton.mp hmem] at hc
    cases hc

/-- An escape with a line feed in it escapes a line break. -/
theorem Formed.mem_escapedBreaks (h : t.Formed) (hescape : t.kind = .escape)
    (hmem : '\n' ∈ t.text) : t.text ∈ escapedBreaks ∧ t.escapesBreak = true := by
  obtain ⟨kind, text⟩ := t
  cases hescape
  rcases h with h | ⟨c, h⟩
  · cases h
    decide
  · cases h
    obtain rfl : '\n' = c := by simpa using hmem
    decide

end Token

/-- What a token adds to a phrase holds no line feed. -/
theorem Place.Takes.newline_not_mem {place : Place} {depth depth' : Nat} {t : Token} {text : Text}
    (h : place.Takes depth t text depth') (ht : t.Formed) : '\n' ∉ text := by
  cases h with
  | closing hdepth hcloses =>
    have hkind : ∃ b : Bracket, t.kind = b.closing := by
      cases place with
      | name b => exact ⟨b, by simpa [Place.closes] using hcloses⟩
      | head | prerequisites | line => cases hcloses
    obtain ⟨b, hb⟩ := hkind
    refine ht.newline_not_mem ?_ ?_
    all_goals
      rw [hb]
      cases b <;> decide
  | escape hends hkind =>
    split
    · decide
    · next hescapes => exact fun hmem => hescapes (ht.mem_escapedBreaks hkind hmem).2
  | literal hends hkind =>
    refine ht.newline_not_mem ?_ ?_
    all_goals
      intro hk
      rw [hk] at hkind
      cases hkind

/-! ## Phrases -/

namespace Phrase.Body

variable {a b : Body}

/-- **A line feed is part of the body**: an escaped line break is the name of a reference. -/
def HoldsBreak : Body → Prop
  | .nil => False
  | .char _ r => HoldsBreak r
  | .ref name _ _ delimiter r =>
    (delimiter = .bare ∧ ∃ t ∈ Token.escapedBreaks, name = .ofText t) ∨ HoldsBreak name ∨
      HoldsBreak r

/-- **What a line can hold**: no character is a line feed, except in the name of a reference that is
an escaped line break. -/
def OnLine : Body → Prop
  | .nil => True
  | .char c r => c ≠ '\n' ∧ OnLine r
  | .ref name _ _ delimiter r =>
    ((delimiter = .bare ∧ ∃ t ∈ Token.escapedBreaks, name = .ofText t) ∨ OnLine name) ∧ OnLine r

theorem onLine_append : (a ++ b).OnLine ↔ a.OnLine ∧ b.OnLine := by
  induction a with
  | nil => simp [OnLine]
  | char c r ih => simp [OnLine, ih, and_assoc]
  | ref name m n d r _ ih => simp [OnLine, ih, and_assoc]

theorem onLine_ofText {t : Text} (h : '\n' ∉ t) : (ofText t).OnLine := by
  induction t with
  | nil => trivial
  | cons c t ih =>
    rw [List.mem_cons, not_or] at h
    exact ⟨Ne.symm h.1, ih h.2⟩

theorem OnLine.trimStart (h : b.OnLine) : b.trimStart.OnLine := by
  rw [← leadingWhite_append_trimStart b, onLine_append] at h
  exact h.2

theorem OnLine.trimEnd (h : b.OnLine) : b.trimEnd.OnLine := by
  obtain ⟨w, hw⟩ := b.exists_append_trimEnd
  rw [← hw, onLine_append] at h
  exact h.1

theorem newline_mem_wrap_iff {delimiter : Delimiter} {name : Text} :
    '\n' ∈ delimiter.wrap name ↔ '\n' ∈ name := by
  cases delimiter with
  | paren | brace => simp [Delimiter.wrap]
  | bare =>
    by_cases hname : name = dollarName
    · subst hname
      decide
    · simp [Delimiter.wrap, hname]

/-- A reference is dumped with the phrase that it is in. -/
theorem newline_mem_dump_of_mem_references {r : Reference} (hr : r ∈ b.references)
    (hmem : '\n' ∈ r.name.dump) : '\n' ∈ b.dump := by
  induction b with
  | nil => cases hr
  | char c rest ih => exact List.mem_cons_of_mem c (ih hr)
  | ref name m n d rest _ ih =>
    rcases List.mem_cons.mp hr with rfl | hr
    · exact List.mem_append_left _ (newline_mem_wrap_iff.mpr hmem)
    · exact List.mem_append_right _ (ih hr)

/-- **A line feed on one line belongs to a name.** -/
theorem OnLine.holdsBreak (h : b.OnLine) (hmem : '\n' ∈ b.dump) : b.HoldsBreak := by
  induction b with
  | nil => cases hmem
  | char c r ih =>
    rcases List.mem_cons.mp hmem with heq | hmem
    · exact absurd heq.symm h.1
    · exact ih h.2 hmem
  | ref name m n d r ihname ih =>
    rcases List.mem_append.mp hmem with hmem | hmem
    · rcases h.1 with hbreak | hname
      · exact .inl hbreak
      · exact .inr (.inl (ihname hname (newline_mem_wrap_iff.mp hmem)))
    · exact .inr (.inr (ih h.2 hmem))

end Phrase.Body

/-- A statement that assigns no more than what a line can hold. -/
def Content.OnLine : Content → Prop
  | .assignment a => a.value.body.OnLine
  | _ => True

namespace Cursor

variable {c d mid : Cursor} {place : Place} {depth : Nat} {body : Phrase.Body} {keyword : Keyword}
  {op : AssignOp} {target : Option Phrase} {name : Phrase}

/-! ## What every reader keeps -/

/-- **The invariant of the readers.** The tokens that are left are formed, and what was assigned so
far was on one line. -/
structure Steady (c : Cursor) : Prop where
  tokens : ∀ t ∈ c.rest, t.Formed
  statements : ∀ s ∈ c.statements, s.1.OnLine
  comments : ∀ s ∈ c.comments, s.1.OnLine

theorem steady_start (source : Text) : Steady (start source) where
  tokens := Token.formed_of_mem_lex source
  statements _ h := absurd h List.not_mem_nil
  comments _ h := absurd h List.not_mem_nil

theorem Steady.advance (h : Steady c) (n : Nat) : Steady (c.advance n) :=
  ⟨fun t ht => h.tokens t (List.mem_of_mem_drop ht), h.statements, h.comments⟩

theorem Steady.report (h : Steady c) (offset : Nat) (cause : Cause) :
    Steady (c.report offset cause) := by
  unfold Cursor.report
  split
  · exact h
  · split
    · exact ⟨fun t ht => absurd ht List.not_mem_nil, h.statements, h.comments⟩
    · exact ⟨h.tokens, h.statements, h.comments⟩

theorem Steady.record (h : Steady c) {content : Content} {start : Nat}
    (hcontent : content.OnLine) : Steady (c.record content start) :=
  ⟨h.tokens, List.forall_mem_append.mpr ⟨h.statements, List.forall_mem_singleton.mpr hcontent⟩,
    h.comments⟩

theorem Steady.comment (h : Steady c) : Steady c.comment := by
  have hbehind : Steady ((c.advance 1).skipLine.advance 1) := ((h.advance 1).advance _).advance 1
  exact ⟨hbehind.tokens, hbehind.statements,
    List.forall_mem_append.mpr ⟨hbehind.comments, List.forall_mem_singleton.mpr trivial⟩⟩

theorem Steady.skipBreak (h : Steady c) : Steady c.skipBreak := by
  unfold Cursor.skipBreak
  split
  · exact h.advance 1
  · exact h

/-! ## Phrases -/

/-- A line feed in a bare name is escaped, and the escape is all of the name. -/
theorem Steady.bareName (h : Steady c) (dollar : Nat) :
    Steady (c.bareName dollar).2.2 ∧
      ('\n' ∈ (c.bareName dollar).1 → (c.bareName dollar).1 ∈ Token.escapedBreaks) := by
  unfold Cursor.bareName
  split
  · exact ⟨h.report _ _, fun hmem => absurd hmem List.not_mem_nil⟩
  · next t ts hrest =>
    have ht : t.Formed := h.tokens t (hrest ▸ List.mem_cons_self)
    split
    · exact ⟨h.report _ _, fun hmem => absurd hmem List.not_mem_nil⟩
    · have hdollar : '\n' ∉ dollarName := by decide
      exact ⟨h.advance 1, fun hmem => absurd hmem hdollar⟩
    · next hk =>
      have hletters : '\n' ∉ t.text := ht.newline_not_mem (by simp [hk]) (by simp [hk])
      split
      -- One letter is taken, and the rest of the word stays in front of the other tokens.
      · next x y w htext =>
        have hword : Token.Formed ⟨.identifier, y :: w⟩ := by
          unfold Token.Formed at ht
          rw [hk, htext] at ht
          exact ⟨List.cons_ne_nil _ _, fun z hz => ht.2 z (List.mem_cons_of_mem x hz)⟩
        rw [htext] at hletters
        refine ⟨⟨List.forall_mem_cons.mpr ⟨hword, fun u hu => ?_⟩, h.statements, h.comments⟩, ?_⟩
        · exact h.tokens u (hrest ▸ List.mem_cons_of_mem t hu)
        · intro hmem
          rw [← List.mem_singleton.mp hmem] at hletters
          exact absurd List.mem_cons_self hletters
      · exact ⟨h.advance 1, fun hmem => absurd hmem hletters⟩
    · next hnewline hdollar hidentifier =>
      refine ⟨h.advance 1, fun hmem => ?_⟩
      by_cases hescape : t.kind = .escape
      · exact (ht.mem_escapedBreaks hescape hmem).1
      · exact absurd hmem (ht.newline_not_mem hnewline hescape)

theorem Steady.closeReference (h : Steady c) (b : Bracket) (name : Phrase.Body) :
    Steady (c.closeReference b name) := by
  unfold Cursor.closeReference
  split
  · exact h.advance 1
  · exact h.report _ _

/-- **A phrase is read on one line.** -/
theorem ReadsBody.onLine (h : ReadsBody place depth c body d) (hc : Steady c) :
    Steady d ∧ body.OnLine := by
  induction h with
  | finish hstop => exact ⟨hc, trivial⟩
  | @literal place depth depth' c d t text body hnext htake hrest ih =>
    obtain ⟨hd, hbody⟩ := ih (hc.advance 1)
    have ht : t.Formed := hc.tokens t (List.mem_of_mem_head? hnext)
    exact ⟨hd, Phrase.Body.onLine_append.mpr
      ⟨Phrase.Body.onLine_ofText (htake.newline_not_mem ht), hbody⟩⟩
  | backslash hnext => exact ⟨(hc.report _ _).advance 1, trivial⟩
  | comment hnext hends => exact ⟨hc.comment, trivial⟩
  | @bracketed place depth c atClose d b name body hnext hopen hname hrest ihname ih =>
    obtain ⟨hclose, hinside⟩ := ihname (hc.advance 2)
    obtain ⟨hd, hbody⟩ := ih (hclose.closeReference b name)
    exact ⟨hd, .inr hinside, hbody⟩
  | @bare place depth c d body hnext hopen hrest ih =>
    obtain ⟨hbehind, hname⟩ := (hc.advance 1).bareName c.offset
    obtain ⟨hd, hbody⟩ := ih hbehind
    refine ⟨hd, ?_, hbody⟩
    -- A name without a line feed is on the line like any other text.
    by_cases hmem : '\n' ∈ ((c.advance 1).bareName c.offset).1
    · exact .inl ⟨rfl, _, hname hmem, rfl⟩
    · exact .inr (Phrase.Body.onLine_ofText hmem)

theorem Steady.phrase (h : Steady c) (place : Place) :
    Steady (c.phrase place).2 ∧ (c.phrase place).1.body.OnLine :=
  (reads_phrase place c).onLine h

theorem ReadsPrerequisites.steady (h : ReadsPrerequisites c body d) (hc : Steady c) : Steady d := by
  induction h with
  | last hbody hstop => exact (hbody.onLine hc).1
  | more hfirst hcolon hrest ih => exact ih ((hfirst.onLine hc).1.advance 1)

/-! ## Statements -/

theorem Steady.directive (h : Steady c) (keyword : Keyword) : Steady (c.directive keyword) := by
  have hword : Steady (c.advance 1) := h.advance 1
  suffices harguments : Steady ((c.advance 1).directiveArguments keyword).2 from
    harguments.record trivial
  unfold Cursor.directiveArguments
  split
  · exact hword
  · exact hword
  · exact hword
  · unfold Cursor.defineArguments
    dsimp only
    split
    · exact (hword.advance _).advance _
    · exact ((hword.advance _).report _ _).advance _
  · exact ((hword.advance _).phrase .line).1

theorem Steady.assignment (h : Steady c) (op : AssignOp) (target : Option Phrase) (name : Phrase) :
    Steady (c.assignment op target name) := by
  obtain ⟨hbehind, hvalue⟩ := (h.advance 1).phrase .line
  unfold Cursor.assignment
  dsimp only
  split
  · exact hbehind.report _ _
  · exact hbehind.record hvalue.trimStart.trimEnd

theorem Steady.recipeLine (h : Steady c) : Steady c.recipeLine.2 := (h.advance _).advance 1

theorem ReadsRecipe.steady {lines : Text} (h : ReadsRecipe c lines d) (hc : Steady c) :
    Steady d := by
  induction h with
  | line htab hrest ih => exact ih (hc.advance _).recipeLine
  | directive htab hkeyword hrest ih => exact ih (hc.directive _).skipBreak
  | stop htab hkeyword => exact hc

theorem Steady.recipe (h : Steady c) (target prerequisites : Phrase) (firstLine : Bool) :
    Steady (c.recipe target prerequisites firstLine) := by
  obtain ⟨lines, d, hlines, heq⟩ := exists_recipe target prerequisites firstLine c
  have hstart : Steady (recipeStart firstLine c).2 := by
    unfold recipeStart
    split
    · exact h.recipeLine
    · exact h
  have hinside := hlines.steady
    ⟨hstart.tokens, fun s hs => absurd hs List.not_mem_nil, hstart.comments⟩
  rw [heq]
  exact ⟨hinside.tokens, List.forall_mem_append.mpr
    ⟨hstart.statements, List.forall_mem_cons.mpr ⟨trivial, hinside.statements⟩⟩, hinside.comments⟩

theorem OpensRecipe.steady {firstLine : Bool} (h : OpensRecipe c firstLine d) (hc : Steady c) :
    Steady d := by
  cases h with
  | semicolon hnext => exact (hc.advance 1).advance _
  | newline hnext => exact hc.advance 1
  | comment hnext => exact hc.comment
  | nothing hnext => exact hc
  | unexpected kind hnext hkind => exact hc.report _ _

theorem Steady.rule (h : Steady c) (target : Phrase) : Steady (c.rule target) := by
  have hrule := readsRule_rule target c
  generalize c.rule target = d at hrule
  cases hrule with
  | assignment hbody hnext => exact (hbody.steady (h.advance _)).assignment _ _ _
  | simple hbody hnext => exact ((hbody.steady (h.advance _)).advance 1).assignment _ _ _
  | recipe hbody hopens => exact (hopens.steady (hbody.steady (h.advance _))).recipe _ _ _

theorem Steady.loneLine (h : Steady c) (phrase : Phrase) : Steady (c.loneLine phrase) := by
  rw [loneLine_eq]
  have hnoted : Steady (c.noted phrase) := by
    unfold noted
    split
    · exact h.record trivial
    · split
      · exact h
      · exact h.report _ _
  unfold endLine
  split
  · exact hnoted.comment
  · exact hnoted.advance 1

theorem ReadsOperator.steady (h : ReadsOperator c op d) (hc : Steady c) : Steady d := by
  cases h with
  | recursive hequals => exact hc
  | conditional | simple | double => exact hc.advance _

theorem ReadsColons.steady (h : ReadsColons c d) (hc : Steady c) : Steady d := by
  cases h with
  | single | double => exact hc.advance _

theorem Steady.statement (h : Steady c) : Steady c.statement := by
  have hstatement := readsStatement_statement c
  generalize c.statement = d at hstatement
  cases hstatement with
  | directive hkeyword => exact h.directive _
  | assignment hkeyword hhead hop => exact (hop.steady (hhead.onLine h).1).assignment _ _ _
  | rule hkeyword hhead hcolons => exact (hcolons.steady (hhead.onLine h).1).rule _
  | lone hkeyword hhead hnext => exact (hhead.onLine h).1.loneLine _
  | expectedEquals hkeyword hhead hquestion hequals =>
    exact ((((hhead.onLine h).1.advance 1).report _ _).advance _).advance 1
  | unexpected hkeyword hhead hnext hkind =>
    exact (((hhead.onLine h).1.report _ _).advance _).advance 1

theorem ReadsLines.steady (h : ReadsLines c d) (hc : Steady c) : Steady d := by
  induction h with
  | done hrest => exact hc.advance _
  | statement hrest hlines ih => exact ih (hc.advance _).statement

end Cursor

/-- **A line feed in an assigned value is an escaped line break** that is the name of a
reference. -/
theorem holdsBreak_of_mem_assignments {source : Text} {a : Assignment}
    (ha : a ∈ assignments (parse source).statements) (hmem : '\n' ∈ a.value.body.dump) :
    a.value.body.HoldsBreak := by
  have hsteady := (Cursor.readsLines_readText source).steady (Cursor.steady_start source)
  obtain ⟨s, hs, hcontent⟩ := List.mem_filterMap.mp ha
  obtain ⟨p, hp, rfl⟩ := List.mem_map.mp hs
  have hassigned : p.1 = .assignment a := by
    unfold locate at hcontent
    dsimp only at hcontent
    split at hcontent
    · next heq =>
      cases hcontent
      exact heq
    · cases hcontent
  have honLine : p.1.OnLine := by
    rcases mem_interleave.mp hp with hp | hp
    · exact hsteady.statements p hp
    · exact hsteady.comments p hp
  rw [hassigned] at honLine
  exact honLine.holdsBreak hmem

end MakeBlueprint.Makefile
