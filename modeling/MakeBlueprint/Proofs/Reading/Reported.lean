import MakeBlueprint.Proofs.Reading.Lines

/-!
# Reading behind earlier faults

Faults that were noted before do not change what is read, as long as all of them together stay below
the limit (`Room`). A cursor with them (`reported`) differs in its faults only.

* `report_reported`: the one step that looks at the faults.
* `ReadsBody.reported`, `ReadsPrerequisites.reported`, `ReadsRecipe.reported`: one rule of the
  grammar after the other.
* `statement_reported`, `ReadsLines.reported`: statements, and all of them.
-/

namespace MakeBlueprint.Makefile.Cursor

/-- The cursor with faults that were noted before. -/
def reported (fs : List Fault) (c : Cursor) : Cursor := { c with faults := fs ++ c.faults }

/-- **There is room for the faults of a cursor behind others**: both together stay below the limit,
or there are no others. -/
def Room (fs : List Fault) (c : Cursor) : Prop :=
  fs = [] ∨ fs.length + c.faults.length < Fault.limit

variable {fs : List Fault} {c d : Cursor} {place : Place} {depth : Nat} {body : Phrase.Body}

theorem Ahead.room (h : Ahead c d) (hd : Room fs d) : Room fs c :=
  hd.imp_right (Nat.lt_of_le_of_lt (Nat.add_le_add_left h.faults.length_le _))

/-! ## Steps -/

/-- **With room for it, a fault is noted behind the others.** -/
theorem report_reported {offset : Nat} {cause : Cause} (h : Room fs (c.report offset cause)) :
    (c.reported fs).report offset cause = (c.report offset cause).reported fs := by
  rcases h with rfl | h
  · rfl
  have hroom : fs.length + c.faults.length + 1 < Fault.limit := by
    unfold report at h
    split at h
    · next hfull => omega
    · split at h <;> simpa [Nat.add_assoc] using h
  unfold report reported
  dsimp only
  rw [List.length_append, if_neg (by omega), if_neg (by omega), if_neg (by omega),
    if_neg (by omega), List.append_assoc]

theorem bareName_reported {dollar : Nat} (h : Room fs (c.bareName dollar).2.2) :
    (c.reported fs).bareName dollar =
      ((c.bareName dollar).1, (c.bareName dollar).2.1, (c.bareName dollar).2.2.reported fs) := by
  have hrest : (c.reported fs).rest = c.rest := rfl
  unfold bareName at h ⊢
  rw [hrest]
  split
  · next hnil =>
    rw [hnil] at h
    exact congrArg (fun d => ([], dollar, d)) (report_reported h)
  · next t ts hcons =>
    rw [hcons] at h
    dsimp only at h
    split
    · next hkind =>
      rw [hkind] at h
      exact congrArg (fun d => ([], dollar, d)) (report_reported h)
    · rfl
    · split <;> rfl
    · rfl

theorem closeReference_reported {b : Bracket} {name : Phrase.Body}
    (h : Room fs (c.closeReference b name)) :
    (c.reported fs).closeReference b name = (c.closeReference b name).reported fs := by
  have hkind : (c.reported fs).kindAt 0 = c.kindAt 0 := rfl
  unfold closeReference at h ⊢
  rw [hkind]
  split at h
  · next hclose =>
    rw [if_pos hclose, if_pos hclose]
    rfl
  · next hopen =>
    rw [if_neg hopen, if_neg hopen]
    exact report_reported h

/-! ## Phrases -/

/-- **A phrase behind earlier faults.** -/
theorem ReadsBody.reported (h : ReadsBody place depth c body d) (hd : Room fs d) :
    ReadsBody place depth (c.reported fs) body (d.reported fs) := by
  induction h with
  | finish hstop => exact .finish hstop
  | literal hnext htake hrest ih => exact .literal hnext htake (ih hd)
  | @backslash place depth c hnext =>
    have hreport : (c.reported fs).reportHere .nothingToEscape =
        (c.reportHere .nothingToEscape).reported fs :=
      report_reported ((ahead_advance (c.reportHere .nothingToEscape) 1).room hd)
    have hread := @ReadsBody.backslash place depth (c.reported fs) hnext
    rw [hreport] at hread
    exact hread
  | comment hnext hends => exact .comment hnext hends
  | @bracketed place depth c atClose d b name body hnext hopen hname hrest ihname ih =>
    have hclosed := hrest.ahead.room hd
    have hread := ih hd
    rw [← closeReference_reported hclosed] at hread
    exact @ReadsBody.bracketed place depth (c.reported fs) (atClose.reported fs) _ b name body hnext
      hopen (ihname ((ahead_closeReference b name atClose).room hclosed)) hread
  | @bare place depth c d body hnext hopen hrest ih =>
    have hbare : ((c.reported fs).advance 1).bareName (c.reported fs).offset = _ :=
      bareName_reported (hrest.ahead.room hd)
    have hread := @ReadsBody.bare place depth (c.reported fs) (d.reported fs) body hnext hopen
      (by rw [hbare]; exact ih hd)
    rw [hbare] at hread
    exact hread

theorem phrase_reported {place : Place} (h : Room fs (c.phrase place).2) :
    (c.reported fs).phrase place = ((c.phrase place).1, (c.phrase place).2.reported fs) :=
  ((reads_phrase place c).reported h).phrase_eq

/-- Prerequisites behind earlier faults. -/
theorem ReadsPrerequisites.reported (h : ReadsPrerequisites c body d) (hd : Room fs d) :
    ReadsPrerequisites (c.reported fs) body (d.reported fs) := by
  induction h with
  | last hbody hstop => exact .last (hbody.reported hd) hstop
  | more hfirst hcolon hrest ih =>
    exact .more (hfirst.reported (((ahead_advance _ 1).trans hrest.ahead).room hd)) hcolon (ih hd)

/-! ## Directives and assignments -/

theorem defineArguments_reported (h : Room fs c.defineArguments.2) :
    (c.reported fs).defineArguments = (c.defineArguments.1, c.defineArguments.2.reported fs) := by
  have hskip : (c.reported fs).skipBlanks = c.skipBlanks.reported fs := rfl
  have hrest : (c.skipBlanks.reported fs).rest = c.skipBlanks.rest := rfl
  unfold defineArguments at h ⊢
  dsimp only at h ⊢
  rw [hskip, hrest]
  split
  · rfl
  · next hnone =>
    rw [hnone] at h
    have hreport : (c.skipBlanks.reported fs).reportHere .endlessDefine =
        (c.skipBlanks.reportHere .endlessDefine).reported fs :=
      report_reported ((ahead_advance (c.skipBlanks.reportHere .endlessDefine) _).room h)
    rw [hreport]
    rfl

theorem directiveArguments_reported {keyword : Keyword}
    (h : Room fs (c.directiveArguments keyword).2) :
    (c.reported fs).directiveArguments keyword =
      ((c.directiveArguments keyword).1, (c.directiveArguments keyword).2.reported fs) := by
  have hphrase : Room fs (c.skipBlanks.phrase .line).2 →
      (c.reported fs).skipBlanks.phrase .line = _ := @phrase_reported fs c.skipBlanks .line
  unfold directiveArguments at h ⊢
  cases keyword with
  | elseBranch | endIf | endDefine => rfl
  | define => exact defineArguments_reported h
  | _ =>
    dsimp only at h ⊢
    rw [hphrase h]

theorem directive_reported {keyword : Keyword} (h : Room fs (c.directive keyword)) :
    (c.reported fs).directive keyword = (c.directive keyword).reported fs := by
  have harguments : ((c.reported fs).advance 1).directiveArguments keyword = _ :=
    @directiveArguments_reported fs (c.advance 1) keyword h
  unfold directive
  rw [harguments]
  rfl

theorem assignment_reported {op : AssignOp} {target : Option Phrase} {name : Phrase}
    (h : Room fs (c.assignment op target name)) :
    (c.reported fs).assignment op target name = (c.assignment op target name).reported fs := by
  have hvalue : ((c.reported fs).advance 1).phrase .line = _ :=
    @phrase_reported fs (c.advance 1) .line ((ahead_assignment_value op target name c).room h)
  unfold assignment at h ⊢
  rw [hvalue]
  dsimp only at h ⊢
  split at h
  · next hname =>
    rw [if_pos hname, if_pos hname]
    exact report_reported h
  · next hname =>
    rw [if_neg hname, if_neg hname]
    rfl

/-! ## Rules -/

theorem skipBreak_reported (c : Cursor) :
    (c.reported fs).skipBreak = c.skipBreak.reported fs := by
  have hkind : (c.reported fs).kindAt 0 = c.kindAt 0 := rfl
  unfold skipBreak
  rw [hkind]
  split <;> rfl

/-- A recipe behind earlier faults. -/
theorem ReadsRecipe.reported {lines : Text} (h : ReadsRecipe c lines d) (hd : Room fs d) :
    ReadsRecipe (c.reported fs) lines (d.reported fs) := by
  induction h with
  | @line c d lines htab hrest ih =>
    exact @ReadsRecipe.line (c.reported fs) (d.reported fs) lines htab (ih hd)
  | @directive c d lines keyword htab hkeyword hrest ih =>
    have hdirective := ((ahead_skipBreak _).trans hrest.ahead).room hd
    have hread := ih hd
    rw [← skipBreak_reported, ← directive_reported hdirective] at hread
    exact .directive htab hkeyword hread
  | stop htab hkeyword => exact .stop htab hkeyword

theorem recipe_reported {target prerequisites : Phrase} {firstLine : Bool}
    (h : Room fs (c.recipe target prerequisites firstLine)) :
    (c.reported fs).recipe target prerequisites firstLine =
      (c.recipe target prerequisites firstLine).reported fs := by
  have hstart : recipeStart firstLine (c.reported fs) =
      ((recipeStart firstLine c).1, (recipeStart firstLine c).2.reported fs) := by
    unfold recipeStart
    split <;> rfl
  obtain ⟨lines, d, hlines, heq⟩ := exists_recipe target prerequisites firstLine c
  rw [heq] at h ⊢
  have hread : ReadsRecipe { (recipeStart firstLine (c.reported fs)).2 with statements := [] }
      lines (d.reported fs) := by
    rw [hstart]
    exact hlines.reported h
  rw [hread.recipe_eq, hstart]
  rfl

theorem OpensRecipe.reported {firstLine : Bool} (h : OpensRecipe c firstLine d)
    (hd : Room fs d) : OpensRecipe (c.reported fs) firstLine (d.reported fs) := by
  cases h with
  | semicolon hnext => exact .semicolon hnext
  | newline hnext => exact .newline hnext
  | comment hnext => exact .comment hnext
  | nothing hnext => exact .nothing hnext
  | unexpected kind hnext hne =>
    have hread := @OpensRecipe.unexpected (c.reported fs) kind hnext hne
    rw [show (c.reported fs).reportHere (.unexpectedInRule kind) = _ from report_reported hd]
      at hread
    exact hread

theorem rule_reported {target : Phrase} (h : Room fs (c.rule target)) :
    (c.reported fs).rule target = (c.rule target).reported fs := by
  have hrule := readsRule_rule target c
  generalize c.rule target = d at hrule h
  refine ReadsRule.eq_rule ?_
  cases hrule with
  | @assignment mid body hbody hnext =>
    have hmid := ((ahead_advance mid 1).trans (ahead_assignment _ _ _ _)).room h
    rw [← assignment_reported h]
    exact .assignment (hbody.reported hmid) hnext
  | @simple mid body hbody hnext =>
    have hmid := (((ahead_advance mid 1).trans (ahead_advance _ 1)).trans
      (ahead_assignment _ _ _ _)).room h
    rw [← assignment_reported h]
    exact @ReadsRule.simple target (c.reported fs) (mid.reported fs) body (hbody.reported hmid) hnext
  | recipe hbody hopens =>
    have hnext := (ahead_recipe _ _ _ _).room h
    rw [← recipe_reported h]
    exact .recipe (hbody.reported (hopens.ahead.room hnext)) (hopens.reported hnext)

/-! ## Lines -/

theorem loneLine_reported {phrase : Phrase} (h : Room fs (c.loneLine phrase)) :
    (c.reported fs).loneLine phrase = (c.loneLine phrase).reported fs := by
  have hnoted : (c.reported fs).noted phrase = (c.noted phrase).reported fs := by
    rw [loneLine_eq] at h
    replace h := (ahead_endLine _).room h
    unfold noted at h ⊢
    cases hsole : phrase.soleReference? with
    | some r => rfl
    | none =>
      rw [hsole] at h
      dsimp only at h ⊢
      split at h
      · next hempty => rw [if_pos hempty, if_pos hempty]
      · next hempty =>
        rw [if_neg hempty, if_neg hempty]
        exact report_reported h
  have hkind : ((c.noted phrase).reported fs).kindAt 0 = (c.noted phrase).kindAt 0 := rfl
  rw [loneLine_eq, loneLine_eq, hnoted]
  unfold endLine
  rw [hkind]
  split <;> rfl

/-- A line that is reported and left. -/
theorem skipLine_reported {cause : Cause} (h : Room fs ((c.reportHere cause).skipLine.advance 1)) :
    ((c.reported fs).reportHere cause).skipLine.advance 1 =
      ((c.reportHere cause).skipLine.advance 1).reported fs := by
  have hreport : (c.reported fs).reportHere cause = (c.reportHere cause).reported fs :=
    report_reported (((ahead_skipLine _).trans (ahead_advance _ 1)).room h)
  rw [hreport]
  rfl

/-- **A statement behind earlier faults.** -/
theorem statement_reported (h : Room fs c.statement) :
    (c.reported fs).statement = c.statement.reported fs := by
  have hstatement := readsStatement_statement c
  generalize c.statement = d at hstatement h
  refine ReadsStatement.eq_statement ?_
  cases hstatement with
  | directive hkeyword =>
    rw [← directive_reported h]
    exact .directive hkeyword
  | assignment hkeyword hhead hop =>
    have hmid := ((hop.ahead.trans (ahead_advance _ 1)).trans (ahead_assignment _ _ _ _)).room h
    rw [← assignment_reported h]
    refine .assignment hkeyword (hhead.reported hmid) ?_
    cases hop with
    | recursive hequals => exact .recursive hequals
    | conditional hquestion hequals => exact .conditional hquestion hequals
    | simple hcolon hequals => exact .simple hcolon hequals
    | double hcolon hcolon' hequals => exact .double hcolon hcolon' hequals
  | rule hkeyword hhead hcolons =>
    have hmid := (hcolons.ahead.trans (ahead_rule _ _)).room h
    rw [← rule_reported h]
    refine .rule hkeyword (hhead.reported hmid) ?_
    cases hcolons with
    | single hcolon hequals hcolon' => exact .single hcolon hequals hcolon'
    | double hcolon hcolon' hequals => exact .double hcolon hcolon' hequals
  | lone hkeyword hhead hnext =>
    rw [← loneLine_reported h]
    exact .lone hkeyword (hhead.reported ((ahead_loneLine _ _).room h)) hnext
  | @expectedEquals mid head hkeyword hhead hquestion hequals =>
    have hreported := ((ahead_skipLine _).trans (ahead_advance _ 1)).room h
    have hmid := ((ahead_advance mid 1).trans (ahead_reportHere _ _)).room hreported
    rw [← skipLine_reported h]
    exact @ReadsStatement.expectedEquals (c.reported fs) (mid.reported fs) head hkeyword
      (hhead.reported hmid) hquestion hequals
  | unexpected hkeyword hhead hnext hkind =>
    have hreported := ((ahead_skipLine _).trans (ahead_advance _ 1)).room h
    rw [← skipLine_reported h]
    exact .unexpected hkeyword (hhead.reported ((ahead_reportHere _ _).room hreported)) hnext hkind

/-- **All statements behind earlier faults.** -/
theorem ReadsLines.reported (h : ReadsLines c d) (hd : Room fs d) :
    ReadsLines (c.reported fs) (d.reported fs) := by
  induction h with
  | @done c hrest => exact @ReadsLines.done (c.reported fs) hrest
  | @statement c d hrest hlines ih =>
    have hread := ih hd
    rw [← statement_reported (hlines.ahead.room hd)] at hread
    exact @ReadsLines.statement (c.reported fs) _ hrest hread

end MakeBlueprint.Makefile.Cursor
