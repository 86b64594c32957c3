import MakeBlueprint.Proofs.Conversion.Modules
import MakeBlueprint.Proofs.Conversion.Positions

/-!
# What a conversion does not look at

No statement looks at the comments that are in the file already, and only one that begins a module
looks at the statement that began the module before. `State.recast` changes both: it puts comments in
front of those of the file and changes the text with which the open module was begun.

* `setProperty_recast`, `setGlobal_recast`, `assign_recast`: values are written as before.
* `assignment_recast`, `closeModule_recast`, `beginConditional_recast`: so are statements.
* `perform_recast`: **a statement that begins no module does the same** in both states.
* `perform_of_opens`: one that begins a module does nothing else.
-/

namespace MakeBlueprint.Conversion

open Blueprint (Comment Path Value)
open Makefile (Assignment Content Directive Phrase)

namespace State

variable {s t : State} {quoted : Text} {options options' : Options}

/-- The state with comments in front of those of its file, as if its module had been begun by another
statement. -/
def recast (earlier : List Comment) (opener : Text → Text) (s : State) : State :=
  { s with
    file := { s.file with comments := earlier ++ s.file.comments }
    draft := s.draft.map fun d => { d with openedBy := opener d.openedBy } }

/-! ## Comments -/

section

variable (earlier : List Comment) (opener : Text → Text) (s : State)

@[simp] theorem scope_recast : (s.recast earlier opener).scope = s.scope := rfl

@[simp] theorem conditionals_recast :
    (s.recast earlier opener).conditionals = s.conditionals := rfl

@[simp] theorem conditional?_recast :
    (s.recast earlier opener).conditional? = s.conditional? := rfl

@[simp] theorem isNone_draft_recast :
    (s.recast earlier opener).draft.isNone = s.draft.isNone := Option.isNone_map

theorem comment_recast (lines : List Text) :
    (s.recast earlier opener).comment lines = (s.comment lines).recast earlier opener := by
  unfold comment recast
  simp only [List.append_assoc]

theorem diagnose_recast (quoted : Text) (problem : Problem) :
    (s.recast earlier opener).diagnose quoted problem =
      (s.diagnose quoted problem).recast earlier opener :=
  comment_recast earlier opener s _

/-! ## Writing properties and variables -/

variable {path : Path} {name : Text} {value : Value} {append : Bool} {body : Phrase.Body}

theorem setProperty_recast :
    (s.recast earlier opener).setProperty path name value append =
      (s.setProperty path name value append).map (recast earlier opener) := by
  unfold setProperty recast
  cases s.draft with
  | none => rfl
  | some d =>
    simp only [Option.map_some]
    generalize Blueprint.Property.update _ _ name _ path d.properties = updated
    cases updated <;> rfl

theorem writes_recast (ws : List Write) :
    ws.foldlM State.write (s.recast earlier opener) =
      (ws.foldlM State.write s).map (recast earlier opener) := by
  induction ws generalizing s with
  | nil => rfl
  | cons w ws ih =>
    rw [List.foldlM_cons, List.foldlM_cons]
    unfold write
    rw [setProperty_recast]
    cases s.setProperty w.path w.name w.value w.append with
    | error cause => rfl
    | ok t => exact ih t

theorem setGlobal_recast :
    (s.recast earlier opener).setGlobal name value append =
      (s.setGlobal name value append).map (recast earlier opener) := by
  unfold setGlobal
  simp only [recast]
  generalize changed true value _ = total
  cases total <;> rfl

theorem assignGlobal_recast :
    (s.recast earlier opener).assignGlobal name body append =
      (s.assignGlobal name body append).map (recast earlier opener) := by
  unfold assignGlobal
  rw [scope_recast]
  cases coerceList s.scope body with
  | error cause => rfl
  | ok list =>
    change ((s.recast earlier opener).setGlobal name list append >>= _) =
      (s.setGlobal name list append >>= _).map (recast earlier opener)
    rw [setGlobal_recast]
    cases s.setGlobal name list append <;> rfl

/-- **A value is written** whatever the comments are and whatever statement began the module. -/
theorem assign_recast :
    (s.recast earlier opener).assign name path body append =
      (s.assign name path body append).map (recast earlier opener) := by
  by_cases hglobal : Meaning.ofName name = .global
  · rw [assign_of_global hglobal, assign_of_global hglobal, assignGlobal_recast]
  · rw [assign_eq_writes hglobal, assign_eq_writes hglobal, scope_recast]
    cases writes s.scope name path body append with
    | error cause => rfl
    | ok ws => exact writes_recast earlier opener s ws

/-! ## Statements -/

theorem assignOrReport_recast (quoted : Text) (place : Option Path) (a : Assignment) :
    (s.recast earlier opener).assignOrReport quoted name place a =
      (s.assignOrReport quoted name place a).recast earlier opener := by
  unfold assignOrReport
  rw [assign_recast]
  cases s.assign name (place.getD []) a.value.body (a.op == .append) with
  | error cause => exact diagnose_recast earlier opener s quoted _
  | ok t => rfl

theorem assignLocated_recast (quoted : Text) (suffix : Option Path) (a : Assignment) :
    (s.recast earlier opener).assignLocated quoted name suffix a =
      (s.assignLocated quoted name suffix a).recast earlier opener := by
  unfold assignLocated
  rw [conditional?_recast, diagnose_recast]
  split
  · exact assignOrReport_recast earlier opener s quoted _ a
  · exact assignOrReport_recast earlier opener _ quoted _ a
  · split
    · exact assignOrReport_recast earlier opener s quoted _ a
    · exact diagnose_recast earlier opener s quoted _

theorem assignment_recast (quoted : Text) (a : Assignment) :
    (s.recast earlier opener).assignment quoted a =
      (s.assignment quoted a).recast earlier opener := by
  unfold assignment
  split
  · exact diagnose_recast earlier opener s quoted _
  · split
    · exact diagnose_recast earlier opener s quoted _
    · split
      · exact diagnose_recast earlier opener s quoted _
      · split
        · exact assignLocated_recast earlier opener s quoted _ a
        · exact assignLocated_recast earlier opener s quoted none a

theorem disable_recast (quoted : Text) (path : Path) :
    (s.recast earlier opener).disable quoted path =
      (s.disable quoted path).recast earlier opener := by
  unfold disable
  rw [setProperty_recast]
  cases s.setProperty path enabledName (.bool false) false with
  | error cause => exact diagnose_recast earlier opener s quoted _
  | ok t => rfl

theorem disabled_recast (quoted : Text) :
    (s.recast earlier opener).disabled quoted = (s.disabled quoted).recast earlier opener := by
  change s.otherPaths.foldl (disable quoted) (s.recast earlier opener) = _
  unfold disabled
  generalize s.otherPaths = paths
  induction paths generalizing s with
  | nil => rfl
  | cons path paths ih => rw [List.foldl_cons, List.foldl_cons, disable_recast, ih]

theorem closeModule_recast (quoted moduleType : Text) :
    (s.recast earlier opener).closeModule quoted moduleType =
      (s.closeModule quoted moduleType).recast earlier opener := by
  have hdisabled := disabled_recast earlier opener s quoted
  unfold disabled at hdisabled
  unfold closeModule
  rw [isNone_draft_recast, hdisabled]
  split
  · exact diagnose_recast earlier opener s quoted _
  · generalize s.otherPaths.foldl (disable quoted) s = u
    obtain ⟨file, globals, scope, draft, line, lastLine, conditionals, assigning⟩ := u
    cases draft <;> rfl

theorem beginConditional_recast (quoted : Text) (holds : Bool) (condition : Text) :
    (s.recast earlier opener).beginConditional quoted holds condition =
      (s.beginConditional quoted holds condition).recast earlier opener := by
  unfold beginConditional
  rw [isNone_draft_recast, diagnose_recast]
  split
  · rfl
  · next branches hbranches =>
    simp only
    split
    · rfl
    · change (if s.assigning.isSome then _ else _) = _
      split
      · exact diagnose_recast earlier opener
          { s with conditionals := s.conditionals ++ [some ⟨branches, holds⟩] } quoted _
      · rfl

theorem otherBranch_recast (quoted : Text) :
    (s.recast earlier opener).otherBranch quoted =
      (s.otherBranch quoted).recast earlier opener := by
  unfold otherBranch
  rw [conditionals_recast, diagnose_recast]
  split <;> rfl

theorem endConditional_recast (quoted : Text) :
    (s.recast earlier opener).endConditional quoted =
      (s.endConditional quoted).recast earlier opener := by
  unfold endConditional
  rw [conditionals_recast, diagnose_recast]
  split <;> rfl

theorem includeFile_recast (quoted : Text) {file : Phrase}
    (h : Text.trim (file.value s.scope) ≠ clearMark) :
    (s.recast earlier opener).includeFile options quoted file =
      (s.includeFile options' quoted file).recast earlier opener := by
  unfold includeFile
  rw [scope_recast, diagnose_recast]
  simp only [if_neg h]
  split
  · exact closeModule_recast earlier opener s quoted _
  · rfl

/-- **A statement that begins no module** does the same whatever the comments and the options are and
whatever statement began the open module. -/
theorem perform_recast (quoted : Text) {content : Content}
    (h : ModuleEvent.of? s.scope content ≠ some .opens) :
    (s.recast earlier opener).perform options quoted content =
      (s.perform options' quoted content).recast earlier opener := by
  cases content with
  | comment text => exact comment_recast earlier opener s _
  | rule | reference => exact diagnose_recast earlier opener s quoted _
  | assignment a => exact assignment_recast earlier opener s quoted a
  | directive d =>
    obtain ⟨keyword, arguments⟩ := d
    cases keyword with
    | includeFile | includeOptional | includeSilent =>
      exact includeFile_recast earlier opener s quoted fun hclear => h (if_pos hclear)
    | ifEq | ifNotEq | ifDefined | ifNotDefined =>
      exact beginConditional_recast earlier opener s quoted _ _
    | elseBranch => exact otherBranch_recast earlier opener s quoted
    | endIf => exact endConditional_recast earlier opener s quoted
    | define | endDefine => exact diagnose_recast earlier opener s quoted _

end

/-! ## Modules begin -/

theorem perform_of_opens {content : Content} (quoted : Text)
    (h : ModuleEvent.of? s.scope content = some .opens) :
    s.perform options quoted content = s.openModule options quoted := by
  cases content with
  | comment | rule | reference | assignment => cases h
  | directive d =>
    have hinclude : ModuleEvent.ofTarget? (Text.trim (d.arguments.value s.scope)) = some .opens →
        s.includeFile options quoted d.arguments = s.openModule options quoted := by
      intro htarget
      refine if_pos ?_
      unfold ModuleEvent.ofTarget? at htarget
      split at htarget
      · assumption
      · split at htarget <;> cases htarget
    obtain ⟨keyword, arguments⟩ := d
    cases keyword with
    | includeFile | includeOptional | includeSilent => exact hinclude h
    | _ => cases h

end State

end MakeBlueprint.Conversion
