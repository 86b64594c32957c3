import MakeBlueprint.Makefile.Expansion
import MakeBlueprint.Conversion.State

/-!
# Converting directives

Includes begin and build modules. Conditionals are kept on a pile until their `endif`; the first
one inside a module that can be expressed decides where the properties of the module are put.
-/

namespace MakeBlueprint.Conversion.State

open Makefile (Directive Phrase)

/-- Begins a conditional, of which the branch that is taken when the condition holds is read first
or last. -/
def beginConditional (s : State) (quoted : Text) (holds : Bool) (condition : Text) : State :=
  match Branches.ofCondition? condition with
  | none =>
    let s := s.diagnose quoted .unsupportedConditional
    { s with conditionals := s.conditionals ++ [none] }
  | some branches =>
    let t := { s with conditionals := s.conditionals ++ [some ⟨branches, holds⟩] }
    if s.draft.isNone then t
    else if s.assigning.isSome then t.diagnose quoted .nestedConditional
    else { t with assigning := some s.conditionals.length }

/-- Goes to the other branch of the innermost conditional. -/
def otherBranch (s : State) (quoted : Text) : State :=
  match s.conditionals.getLast? with
  | none => s.diagnose quoted .strayElse
  | some none => s
  | some (some c) => { s with conditionals := s.conditionals.dropLast ++ [some c.flip] }

/-- Ends the innermost conditional. -/
def endConditional (s : State) (quoted : Text) : State :=
  match s.conditionals.getLast? with
  | none => s.diagnose quoted .strayEnd
  | some none => { s with conditionals := s.conditionals.dropLast }
  | some (some _) =>
    let conditionals := s.conditionals.dropLast
    { s with
      conditionals
      assigning := if s.assigning = some conditionals.length then none else s.assigning }

/-- Converts an include. -/
def includeFile (s : State) (options : Options) (quoted : Text) (file : Phrase) : State :=
  let target := Text.trim (file.value s.scope)
  if target = clearMark then s.openModule options quoted
  else if isModuleType target then s.closeModule quoted target
  else s.diagnose quoted .unsupportedInclude

/-- Converts a directive. -/
def directive (s : State) (options : Options) (quoted : Text) (d : Directive) : State :=
  match d.keyword with
  | .includeFile | .includeOptional | .includeSilent => s.includeFile options quoted d.arguments
  | .ifEq | .ifDefined => s.beginConditional quoted true d.arguments.dump
  | .ifNotEq | .ifNotDefined => s.beginConditional quoted false d.arguments.dump
  | .elseBranch => s.otherBranch quoted
  | .endIf => s.endConditional quoted
  | .define | .endDefine => s.diagnose quoted .unsupportedDirective

end MakeBlueprint.Conversion.State
