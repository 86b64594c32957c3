import MakeBlueprint.Proofs.Conversion.Recast

/-!
# The conversion looks at the lines of quotes only

A problem is reported with the lines of the statement that it quotes. A module keeps the statement
that began it until it is given up, so two conversions whose quotes have the same lines differ in
this one text (`State.reopened`). No statement looks at it:

* `perform_reopened`: a statement that begins no module does the same in both states.
* `Echoes.perform`: any statement leads to states that differ in this text only, whose lines are
  the same.
* `finish_of_echoes`: such states have the same file at the end.
-/

namespace MakeBlueprint.Conversion

open Makefile (Assignment Content)

namespace State

variable {s t : State} {quoted quoted' : Text} {options : Options}

/-- The state as if its module had been begun by another statement. -/
def reopened (quoted : Text) (s : State) : State :=
  { s with draft := s.draft.map fun d => { d with openedBy := quoted } }

/-- **Two states that differ in the text with which their module was begun**, whose lines are the
same. -/
def Echoes (s t : State) : Prop :=
  ∃ (u : State) (opener opener' : Text),
    Text.lines opener' = Text.lines opener ∧ s = u.reopened opener ∧ t = u.reopened opener'

/-! ## Quotes with the same lines -/

theorem diagnose_congr (h : Text.lines quoted' = Text.lines quoted) (s : State)
    (problem : Problem) : s.diagnose quoted' problem = s.diagnose quoted problem := by
  unfold diagnose Problem.report
  rw [h]

theorem assignment_congr (h : Text.lines quoted' = Text.lines quoted) (s : State) (a : Assignment) :
    s.assignment quoted' a = s.assignment quoted a := by
  simp only [assignment, assignLocated, assignOrReport, diagnose_congr h]

theorem closeModule_congr (h : Text.lines quoted' = Text.lines quoted) (s : State)
    (moduleType : Text) : s.closeModule quoted' moduleType = s.closeModule quoted moduleType := by
  have hdisable : disable quoted' = disable quoted := by
    funext s path
    simp only [disable, diagnose_congr h]
  simp only [closeModule, hdisable, diagnose_congr h]

/-! ## Statements -/

theorem isNone_draft_reopened (opener : Text) (s : State) :
    (s.reopened opener).draft.isNone = s.draft.isNone := Option.isNone_map

/-- **A statement that begins no module** does the same whatever statement began the open one. -/
theorem perform_reopened {content : Content} (opener quoted : Text) (s : State)
    (h : ModuleEvent.of? s.scope content ≠ some .opens) :
    (s.reopened opener).perform options quoted content =
      (s.perform options quoted content).reopened opener :=
  perform_recast [] (fun _ => opener) s quoted h

/-- A statement that begins no module does the same when it is quoted with the same lines. -/
theorem perform_congr {content : Content} (h : Text.lines quoted' = Text.lines quoted) (s : State)
    (hopens : ModuleEvent.of? s.scope content ≠ some .opens) :
    s.perform options quoted' content = s.perform options quoted content := by
  cases content with
  | comment => rfl
  | rule | reference => exact diagnose_congr h s _
  | assignment a => exact assignment_congr h s a
  | directive d =>
    have hinclude : Text.trim (d.arguments.value s.scope) ≠ clearMark →
        s.includeFile options quoted' d.arguments = s.includeFile options quoted d.arguments := by
      intro hclear
      unfold includeFile
      simp only [if_neg hclear, closeModule_congr h, diagnose_congr h]
    have hbegin : ∀ (holds : Bool) (condition : Text),
        s.beginConditional quoted' holds condition = s.beginConditional quoted holds condition := by
      intro holds condition
      simp only [beginConditional, diagnose_congr h]
    obtain ⟨keyword, arguments⟩ := d
    cases keyword with
    | includeFile | includeOptional | includeSilent =>
      exact hinclude fun hclear => hopens (if_pos hclear)
    | ifEq | ifNotEq | ifDefined | ifNotDefined => exact hbegin _ _
    | elseBranch =>
      change s.otherBranch quoted' = s.otherBranch quoted
      simp only [otherBranch, diagnose_congr h]
    | endIf =>
      change s.endConditional quoted' = s.endConditional quoted
      simp only [endConditional, diagnose_congr h]
    | define | endDefine => exact diagnose_congr h s _

/-! ## Modules begin and end -/

/-- A module that is given up is reported with the lines of the statement that began it. -/
theorem dropModule_reopened (h : Text.lines quoted' = Text.lines quoted) (options : Options)
    (s : State) :
    (s.reopened quoted').dropModule options = (s.reopened quoted).dropModule options := by
  unfold dropModule reopened
  cases s.draft with
  | none => rfl
  | some d => simp only [Option.map_some, diagnose_congr h]

theorem Echoes.moveTo (h : Echoes s t) (lines : Span) :
    Echoes (s.moveTo lines) (t.moveTo lines) := by
  obtain ⟨u, opener, opener', hlines, rfl, rfl⟩ := h
  exact ⟨u.moveTo lines, opener, opener', hlines, rfl, rfl⟩

/-- **A statement keeps states the same up to the text with which their module was begun.** -/
theorem Echoes.perform (h : Echoes s t) (hquoted : Text.lines quoted' = Text.lines quoted)
    (options : Options) (content : Content) :
    Echoes (s.perform options quoted content) (t.perform options quoted' content) := by
  obtain ⟨u, opener, opener', hlines, rfl, rfl⟩ := h
  by_cases hopens : ModuleEvent.of? u.scope content = some .opens
  · have hopened : ∀ opener : Text,
        ModuleEvent.of? (u.reopened opener).scope content = some .opens := fun _ => hopens
    rw [perform_of_opens quoted (hopened opener), perform_of_opens quoted' (hopened opener')]
    refine ⟨(u.reopened opener).openModule options quoted, quoted, quoted', hquoted, rfl, ?_⟩
    unfold openModule
    rw [dropModule_reopened hlines]
    rfl
  · rw [perform_reopened opener quoted u hopens, perform_reopened opener' quoted' u hopens]
    exact ⟨u.perform options quoted content, opener, opener', hlines, rfl,
      congrArg (reopened opener') (perform_congr hquoted u hopens)⟩

/-- **Such states have the same file at the end.** -/
theorem finish_of_echoes (h : Echoes s t) (options : Options) :
    t.finish options = s.finish options := by
  obtain ⟨u, opener, opener', hlines, rfl, rfl⟩ := h
  unfold finish
  rw [isNone_draft_reopened, isNone_draft_reopened]
  split
  · rfl
  · exact congrArg State.file (dropModule_reopened hlines options { u with line := u.line + 1 })

end State

end MakeBlueprint.Conversion
