import MakeBlueprint.Proofs.Reading.Lines
import MakeBlueprint.Proofs.Reading.Positions

/-!
# Reading behind another text

A cursor that stands behind another text (`moved`) reads what it would read at the start, with
every position moved. What was found before stays in front.

* `ReadsBody.moved`, `ReadsPrerequisites.moved`, `ReadsRecipe.moved`: one rule of the grammar after
  the other.
* `statement_moved`, `ReadsLines.moved`: statements, and all of them.
-/

namespace MakeBlueprint.Makefile

/-- A statement and its span, moved. -/
def movedBy (n : Nat) (s : Content × Span) : Content × Span :=
  (s.1.mapPos (n + ·), mapSpan (n + ·) s.2)

namespace Cursor

/-- The cursor behind a text of `n` bytes, in which statements and comments were found. -/
def moved (n : Nat) (ss cs : List (Content × Span)) (c : Cursor) : Cursor where
  rest := c.rest
  read := n + c.read
  size := n + c.size
  statements := ss ++ c.statements.map (movedBy n)
  comments := cs ++ c.comments.map (movedBy n)
  faults := c.faults.map (Fault.mapPos (n + ·))

variable {n : Nat} {ss cs : List (Content × Span)} {c d : Cursor} {place : Place} {depth : Nat}
  {body : Phrase.Body}

/-! ## Steps -/

theorem offset_moved (c : Cursor) : (c.moved n ss cs).offset = n + c.offset := by
  unfold offset moved
  split <;> rfl

theorem advance_moved (c : Cursor) (k : Nat) :
    (c.moved n ss cs).advance k = (c.advance k).moved n ss cs := by
  unfold advance moved
  rw [Nat.add_assoc]

theorem skipWhile_moved (p : Token.Kind → Bool) (c : Cursor) :
    (c.moved n ss cs).skipWhile p = (c.skipWhile p).moved n ss cs := advance_moved c _

theorem skipBlanks_moved (c : Cursor) :
    (c.moved n ss cs).skipBlanks = c.skipBlanks.moved n ss cs := advance_moved c _

theorem skipLine_moved (c : Cursor) : (c.moved n ss cs).skipLine = c.skipLine.moved n ss cs :=
  advance_moved c _

theorem skipBreak_moved (c : Cursor) : (c.moved n ss cs).skipBreak = c.skipBreak.moved n ss cs := by
  unfold skipBreak
  split
  · next h => rw [if_pos (by exact h), advance_moved]
  · next h => rw [if_neg (by exact h)]

theorem report_moved (c : Cursor) (offset : Nat) (cause : Cause) :
    (c.moved n ss cs).report (n + offset) (cause.mapPos (n + ·)) =
      (c.report offset cause).moved n ss cs := by
  have hlength : (c.moved n ss cs).faults.length = c.faults.length := List.length_map _
  have hfaults : (c.moved n ss cs).faults ++ [Fault.mk (cause.mapPos (n + ·)) (n + offset)] =
      (c.faults ++ [Fault.mk cause offset]).map (Fault.mapPos (n + ·)) := by
    rw [List.map_append]
    rfl
  unfold report
  rw [hlength, hfaults]
  split
  · rfl
  · split <;> rfl

theorem reportHere_moved (c : Cursor) (cause : Cause) :
    (c.moved n ss cs).reportHere (cause.mapPos (n + ·)) = (c.reportHere cause).moved n ss cs := by
  unfold reportHere
  rw [offset_moved, report_moved]

theorem spanFrom_moved (c : Cursor) (start : Nat) :
    (c.moved n ss cs).spanFrom (n + start) = mapSpan (n + ·) (c.spanFrom start) := by
  unfold spanFrom mapSpan moved
  rw [Nat.add_max_add_left]

theorem record_moved (c : Cursor) (content : Content) (start : Nat) :
    (c.moved n ss cs).record (content.mapPos (n + ·)) (n + start) =
      (c.record content start).moved n ss cs := by
  unfold record
  rw [spanFrom_moved]
  simp [moved, movedBy]

theorem comment_moved (c : Cursor) : (c.moved n ss cs).comment = c.comment.moved n ss cs := by
  unfold comment
  simp only [offset_moved, advance_moved, skipLine_moved, spanFrom_moved]
  simp [moved, movedBy, Content.mapPos, line]

theorem bareName_moved (c : Cursor) (dollar : Nat) :
    (c.moved n ss cs).bareName (n + dollar) =
      ((c.bareName dollar).1, n + (c.bareName dollar).2.1,
        (c.bareName dollar).2.2.moved n ss cs) := by
  have hrest : (c.moved n ss cs).rest = c.rest := rfl
  have hreport : (c.moved n ss cs).reportHere .missingName =
      (c.reportHere .missingName).moved n ss cs := reportHere_moved c .missingName
  unfold bareName
  rw [hrest]
  split
  · rw [hreport]
  · split
    · rw [hreport]
    · rw [advance_moved]
    · split
      · rw [offset_moved]
        simp [moved, Nat.add_assoc]
      · rw [offset_moved, advance_moved]
    · rw [offset_moved, advance_moved]

theorem closeReference_moved (b : Bracket) (name : Phrase.Body) (c : Cursor) :
    (c.moved n ss cs).closeReference b (name.mapPos (n + ·)) =
      (c.closeReference b name).moved n ss cs := by
  have hreport :
      (c.moved n ss cs).reportHere (.unclosedReference b.closingChar (name.mapPos (n + ·))) =
        (c.reportHere (.unclosedReference b.closingChar name)).moved n ss cs :=
    reportHere_moved c (.unclosedReference b.closingChar name)
  unfold closeReference
  rw [hreport, advance_moved]
  split
  · next h => rw [if_pos (by exact h)]
  · next h => rw [if_neg (by exact h)]

/-! ## Phrases -/

/-- **A phrase behind another text.** -/
theorem ReadsBody.moved (h : ReadsBody place depth c body d) :
    ReadsBody place depth (c.moved n ss cs) (body.mapPos (n + ·)) (d.moved n ss cs) := by
  induction h with
  | finish hstop => exact .finish hstop
  | @literal place depth depth' c d t text body hnext htake hrest ih =>
    rw [← advance_moved] at ih
    rw [Phrase.Body.mapPos_append, Phrase.Body.mapPos_ofText]
    exact .literal hnext htake ih
  | @backslash place depth c hnext =>
    rw [← advance_moved, ← reportHere_moved]
    exact .backslash hnext
  | comment hnext hends =>
    rw [← comment_moved]
    exact .comment hnext hends
  | @bracketed place depth c atClose d b name body hnext hopen hname hrest ihname ih =>
    rw [← advance_moved] at ihname
    rw [← closeReference_moved] at ih
    rw [Phrase.Body.mapPos, ← @offset_moved n ss cs c, ← @offset_moved n ss cs (c.advance 2),
      ← advance_moved]
    exact .bracketed hnext hopen ihname ih
  | @bare place depth c d body hnext hopen hrest ih =>
    have hbare := @bareName_moved n ss cs (c.advance 1) c.offset
    rw [← advance_moved, ← @offset_moved n ss cs c] at hbare
    have hread := @ReadsBody.bare place depth (c.moved n ss cs) _ _ hnext hopen
      (by rw [hbare]; exact ih)
    rw [hbare, offset_moved] at hread
    rw [Phrase.Body.mapPos, Phrase.Body.mapPos_ofText]
    exact hread

theorem phrase_moved (place : Place) (c : Cursor) :
    (c.moved n ss cs).phrase place =
      ((c.phrase place).1.mapPos (n + ·), (c.phrase place).2.moved n ss cs) := by
  rw [(reads_phrase place c).moved.phrase_eq, offset_moved]
  rfl

/-- Prerequisites behind another text. -/
theorem ReadsPrerequisites.moved (h : ReadsPrerequisites c body d) :
    ReadsPrerequisites (c.moved n ss cs) (body.mapPos (n + ·)) (d.moved n ss cs) := by
  induction h with
  | last hbody hstop => exact .last hbody.moved hstop
  | more hfirst hcolon hrest ih =>
    rw [← advance_moved] at ih
    rw [Phrase.Body.mapPos_append]
    exact .more hfirst.moved hcolon ih

theorem prerequisites_moved (c : Cursor) :
    (c.moved n ss cs).prerequisites (c.rest.length + 1) =
      ((c.prerequisites (c.rest.length + 1)).1.mapPos (n + ·),
        (c.prerequisites (c.rest.length + 1)).2.moved n ss cs) :=
  (readsPrerequisites_prerequisites (Nat.lt_add_one _)).moved.eq_prerequisites (Nat.lt_add_one _)

/-! ## Directives and assignments -/

theorem defineArguments_moved (c : Cursor) :
    (c.moved n ss cs).defineArguments =
      (c.defineArguments.1.mapPos (n + ·), c.defineArguments.2.moved n ss cs) := by
  have hrest : ∀ d : Cursor, (d.moved n ss cs).rest = d.rest := fun _ => rfl
  have hreport : (c.skipBlanks.moved n ss cs).reportHere .endlessDefine =
      (c.skipBlanks.reportHere .endlessDefine).moved n ss cs := reportHere_moved _ .endlessDefine
  unfold defineArguments
  simp only [skipBlanks_moved, hrest, offset_moved, hreport, advance_moved]
  split <;> simp [Phrase.ofText, Phrase.mapPos]

theorem directiveArguments_moved (keyword : Keyword) (c : Cursor) :
    (c.moved n ss cs).directiveArguments keyword =
      ((c.directiveArguments keyword).1.mapPos (n + ·),
        (c.directiveArguments keyword).2.moved n ss cs) := by
  unfold directiveArguments
  split
  · rw [offset_moved]
    rfl
  · rw [offset_moved]
    rfl
  · rw [offset_moved]
    rfl
  · exact defineArguments_moved c
  · rw [skipBlanks_moved, phrase_moved]
    exact congrArg (·, _) (Phrase.trimEnd_mapPos _ _)

theorem directive_moved (keyword : Keyword) (c : Cursor) :
    (c.moved n ss cs).directive keyword = (c.directive keyword).moved n ss cs := by
  unfold directive
  rw [advance_moved, directiveArguments_moved, offset_moved, ← record_moved]
  rfl

theorem assignment_moved (op : AssignOp) (target : Option Phrase) (name : Phrase) (c : Cursor) :
    (c.moved n ss cs).assignment op (target.map (Phrase.mapPos (n + ·))) (name.mapPos (n + ·)) =
      (c.assignment op target name).moved n ss cs := by
  have hreport : ∀ start (d : Cursor), (d.moved n ss cs).report (n + start) .emptyName =
      (d.report start .emptyName).moved n ss cs := fun start d => report_moved d start .emptyName
  unfold assignment
  rw [advance_moved, phrase_moved, AssignOp.takeMark_mapPos]
  dsimp only
  rw [Phrase.trimEnd_mapPos, Phrase.isEmpty_mapPos, Phrase.trim_mapPos]
  cases target with
  | none =>
    dsimp only [Option.map_none, Phrase.pos_mapPos]
    split
    · exact hreport _ _
    · exact record_moved _ (.assignment ⟨_, _, _, none⟩) _
  | some t =>
    dsimp only [Option.map_some, Phrase.pos_mapPos]
    split
    · exact hreport _ _
    · exact record_moved _ (.assignment ⟨_, _, _, some t⟩) _

/-! ## Rules -/

theorem recipeLine_moved (c : Cursor) :
    (c.moved n ss cs).recipeLine = (c.recipeLine.1, c.recipeLine.2.moved n ss cs) := by
  unfold recipeLine
  dsimp only
  rw [skipLine_moved, advance_moved]
  rfl

/-- A recipe behind another text. -/
theorem ReadsRecipe.moved {lines : Text} (h : ReadsRecipe c lines d) :
    ReadsRecipe (c.moved n ss cs) lines (d.moved n ss cs) := by
  induction h with
  | @line c d lines htab hrest ih =>
    have hline : ((c.moved n ss cs).advance ((c.moved n ss cs).breaks + 1)).recipeLine =
        ((c.advance (c.breaks + 1)).recipeLine.1,
          (c.advance (c.breaks + 1)).recipeLine.2.moved n ss cs) := by
      rw [advance_moved, recipeLine_moved]
      rfl
    have hread := @ReadsRecipe.line (c.moved n ss cs) _ lines htab (by rw [hline]; exact ih)
    rw [hline] at hread
    exact hread
  | @directive c d lines keyword htab hkeyword hrest ih =>
    rw [← skipBreak_moved, ← directive_moved] at ih
    exact .directive htab hkeyword ih
  | stop htab hkeyword => exact .stop htab hkeyword

theorem recipe_moved (target prerequisites : Phrase) (firstLine : Bool) (c : Cursor) :
    (c.moved n ss cs).recipe (target.mapPos (n + ·)) (prerequisites.mapPos (n + ·)) firstLine =
      (c.recipe target prerequisites firstLine).moved n ss cs := by
  have hstart : recipeStart firstLine (c.moved n ss cs) =
      ((recipeStart firstLine c).1, (recipeStart firstLine c).2.moved n ss cs) := by
    unfold recipeStart
    rw [recipeLine_moved]
    split <;> rfl
  obtain ⟨lines, d, hlines, heq⟩ := exists_recipe target prerequisites firstLine c
  rw [heq]
  -- The recipe is read from a cursor without statements, so nothing stands in front of them.
  have hmoved : ReadsRecipe { (recipeStart firstLine (c.moved n ss cs)).2 with statements := [] }
      lines (d.moved n [] cs) := by
    rw [hstart]
    exact @ReadsRecipe.moved n [] cs _ _ lines hlines
  rw [hmoved.recipe_eq, hstart]
  unfold behindRule
  dsimp only
  rw [Phrase.pos_mapPos, spanFrom_moved]
  simp [moved, movedBy, Content.mapPos]

theorem rule_moved (target : Phrase) (c : Cursor) :
    (c.moved n ss cs).rule (target.mapPos (n + ·)) = (c.rule target).moved n ss cs := by
  have hbody : (c.skipBlanks.moved n ss cs).prerequisites
      ((c.skipBlanks.moved n ss cs).rest.length + 1) = _ := prerequisites_moved c.skipBlanks
  unfold rule
  dsimp only
  rw [skipBlanks_moved, offset_moved, hbody, Phrase.trimEnd_mapPos]
  obtain ⟨body, behind⟩ := c.skipBlanks.prerequisites (c.skipBlanks.rest.length + 1)
  have hphrase : Phrase.trimEnd ⟨n + c.skipBlanks.offset, body.mapPos (n + ·)⟩ =
      (Phrase.trimEnd ⟨c.skipBlanks.offset, body⟩).mapPos (n + ·) := Phrase.trimEnd_mapPos _ ⟨_, _⟩
  have hnext : (behind.moved n ss cs).kindAt 0 = behind.kindAt 0 := rfl
  have hreport : ∀ kind, (behind.moved n ss cs).reportHere (.unexpectedInRule kind) =
      (behind.reportHere (.unexpectedInRule kind)).moved n ss cs :=
    fun kind => reportHere_moved behind (.unexpectedInRule kind)
  dsimp only
  rw [hphrase, hnext, advance_moved, skipBlanks_moved, comment_moved]
  split
  · exact assignment_moved _ (some _) _ _
  · exact assignment_moved _ (some _) _ _
  · exact recipe_moved _ _ _ _
  · exact recipe_moved _ _ _ _
  · exact recipe_moved _ _ _ _
  · rw [hreport]
    exact recipe_moved _ _ _ _
  · exact recipe_moved _ _ _ _

/-! ## Lines -/

theorem loneLine_moved (phrase : Phrase) (c : Cursor) :
    (c.moved n ss cs).loneLine (phrase.mapPos (n + ·)) = (c.loneLine phrase).moved n ss cs := by
  have hreport :
      (c.moved n ss cs).report (n + phrase.pos) (.strayText (phrase.body.mapPos (n + ·))) =
        (c.report phrase.pos (.strayText phrase.body)).moved n ss cs :=
    report_moved c phrase.pos (.strayText phrase.body)
  have hnoted : (c.moved n ss cs).noted (phrase.mapPos (n + ·)) =
      (c.noted phrase).moved n ss cs := by
    unfold noted
    rw [Phrase.soleReference?_mapPos, Phrase.isEmpty_mapPos]
    cases phrase.soleReference? with
    | some r => exact record_moved c (.reference r) phrase.pos
    | none =>
      dsimp only [Option.map_none]
      split
      · rfl
      · exact hreport
  have hend : ∀ d : Cursor, (d.moved n ss cs).endLine = d.endLine.moved n ss cs := by
    intro d
    unfold endLine
    rw [comment_moved, advance_moved]
    exact (apply_ite _ _ _ _).symm
  rw [loneLine_eq, loneLine_eq, hnoted, hend]

theorem afterColon_moved (head : Phrase) (c : Cursor) :
    (c.moved n ss cs).afterColon (head.mapPos (n + ·)) = (c.afterColon head).moved n ss cs := by
  have hassignment : ∀ d : Cursor, (d.moved n ss cs).assignment .simple none (head.mapPos (n + ·)) =
      (d.assignment .simple none head).moved n ss cs := assignment_moved _ none head
  have hkind : ∀ k, (c.moved n ss cs).kindAt k = c.kindAt k := fun _ => rfl
  unfold afterColon
  rw [hkind, hkind, advance_moved, hassignment, hassignment, rule_moved, rule_moved]
  split
  · rfl
  · split
    · split <;> rfl
    · rfl

theorem statement_moved (c : Cursor) :
    (c.moved n ss cs).statement = c.statement.moved n ss cs := by
  have hkeyword : (c.moved n ss cs).keyword? = c.keyword? := rfl
  unfold statement
  rw [hkeyword, phrase_moved]
  split
  · exact directive_moved _ c
  · obtain ⟨head, behind⟩ := c.phrase .head
    have hassignment : ∀ op (d : Cursor),
        (d.moved n ss cs).assignment op none (head.mapPos (n + ·)) =
          (d.assignment op none head).moved n ss cs := fun op d => assignment_moved op none head d
    have hkind : ∀ (d : Cursor) k, (d.moved n ss cs).kindAt k = d.kindAt k := fun _ _ => rfl
    have hequals : ((behind.advance 1).moved n ss cs).reportHere .expectedEquals =
        ((behind.advance 1).reportHere .expectedEquals).moved n ss cs :=
      reportHere_moved _ .expectedEquals
    have hreport : ∀ kind, (behind.moved n ss cs).reportHere (.unexpected kind) =
        (behind.reportHere (.unexpected kind)).moved n ss cs :=
      fun kind => reportHere_moved behind (.unexpected kind)
    dsimp only
    rw [hkind, advance_moved, hkind, hequals, skipLine_moved, advance_moved, hassignment,
      hassignment, afterColon_moved, loneLine_moved]
    split
    · split <;> rfl
    · rfl
    · rfl
    · rfl
    · rfl
    · rfl
    · rw [hreport, skipLine_moved, advance_moved]

/-- **All statements behind another text.** -/
theorem ReadsLines.moved (h : ReadsLines c d) : ReadsLines (c.moved n ss cs) (d.moved n ss cs) := by
  have hskip : ∀ d : Cursor, (d.moved n ss cs).skipSpace = d.skipSpace.moved n ss cs :=
    fun d => skipWhile_moved _ d
  induction h with
  | done hrest =>
    rw [← hskip]
    exact .done (by rw [hskip]; exact hrest)
  | @statement c d hrest hlines ih =>
    rw [← statement_moved, ← hskip] at ih
    exact .statement (by rw [hskip]; exact hrest) ih

end Cursor

end MakeBlueprint.Makefile
