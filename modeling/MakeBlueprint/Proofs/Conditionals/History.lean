import Mathlib.Logic.Function.Iterate
import MakeBlueprint.Proofs.Conversion.Conditionals

/-!
# The conditionals that a makefile leaves standing

The statements of a makefile tell which conditionals are not ended yet, and that needs neither the
vocabulary of conditions nor the state of a conversion: a conditional is the directive that began
it, its condition, and the number of `else` since (`Standing`). `standing` reads them off a list of
statements.

* `conditionals_step`, `conditionals_run`: the pile of a conversion is what `standing` tells, with
  the branches that the vocabulary gives to each condition.
* `otherPaths_run`: so the branches that are not being read are those that the history tells.
-/

namespace MakeBlueprint.Conversion

open Blueprint (Path)
open Makefile (Content Directive Keyword Phrase Statement)

/-- Whether a keyword begins a conditional. -/
def beginsConditional (k : Keyword) : Bool :=
  k == .ifEq || k == .ifNotEq || k == .ifDefined || k == .ifNotDefined

/-- **A conditional that is not ended yet**, as the makefile tells it. -/
structure Standing where
  /-- The keyword that began it. -/
  keyword : Keyword
  condition : Text
  /-- How many `else` it has had. -/
  turns : Nat
  deriving DecidableEq, Repr

namespace Standing

/-- Whether the branch being read is the one that is taken when the condition holds: the first one
is for `ifeq` and `ifdef`, and every `else` changes to the other. -/
def holds (f : Standing) : Bool := not^[f.turns] (f.keyword == .ifEq || f.keyword == .ifDefined)

/-- The path of the branch that is not being read. -/
def untaken (f : Standing) : Option Path :=
  (Branches.ofCondition? f.condition).bind fun b => if f.holds then b.whenFalse else b.whenTrue

/-- The conditional after another `else`. -/
def turn (f : Standing) : Standing := { f with turns := f.turns + 1 }

/-- The place of a conditional on the pile. -/
def frame (f : Standing) : Option Conditional :=
  (Branches.ofCondition? f.condition).map fun b => ⟨b, f.holds⟩

theorem holds_turn (f : Standing) : f.turn.holds = !f.holds :=
  Function.iterate_succ_apply' not f.turns _

theorem frame_turn (f : Standing) : f.turn.frame = f.frame.map Conditional.flip := by
  unfold frame
  rw [Option.map_map, holds_turn]
  rfl

theorem bind_frame (f : Standing) : f.frame.bind Conditional.otherPath = f.untaken := by
  unfold frame
  rw [Option.bind_map]
  rfl

end Standing

/-- The conditionals that stand after a statement, the innermost first. -/
def nest (fs : List Standing) : Content → List Standing
  | .directive d =>
    if beginsConditional d.keyword then ⟨d.keyword, d.arguments.dump, 0⟩ :: fs
    else if d.keyword = .elseBranch then (fs.head?.map Standing.turn).toList ++ fs.tail
    else if d.keyword = .endIf then fs.tail
    else fs
  | _ => fs

theorem nest_of_begins {d : Directive} (fs : List Standing)
    (h : beginsConditional d.keyword = true) :
    nest fs (.directive d) = ⟨d.keyword, d.arguments.dump, 0⟩ :: fs :=
  if_pos h

/-- The conditionals that stand after some statements, of which some stood before. -/
def nestAll (fs : List Standing) (sts : List Statement) : List Standing :=
  sts.foldl (fun fs st => nest fs st.content) fs

@[simp] theorem nestAll_nil (fs : List Standing) : nestAll fs [] = fs := rfl

@[simp] theorem nestAll_cons (fs : List Standing) (st : Statement) (sts : List Statement) :
    nestAll fs (st :: sts) = nestAll (nest fs st.content) sts := rfl

theorem nestAll_append (fs : List Standing) (sts rest : List Statement) :
    nestAll fs (sts ++ rest) = nestAll (nestAll fs sts) rest :=
  List.foldl_append

/-- **The conditionals that stand after a makefile**, the innermost first. -/
def standing (sts : List Statement) : List Standing := nestAll [] sts

/-- The pile that standing conditionals make. -/
def pile (fs : List Standing) : List (Option Conditional) := (fs.map Standing.frame).reverse

theorem pile_cons (f : Standing) (fs : List Standing) : pile (f :: fs) = pile fs ++ [f.frame] :=
  List.reverse_cons

namespace State

variable {s : State} {options : Options} {source quoted : Text} {fs : List Standing}
  {st : Statement}

/-! ## Directives -/

theorem conditionals_includeFile (s : State) (file : Phrase) :
    (s.includeFile options quoted file).conditionals = s.conditionals := by
  unfold includeFile
  simp only
  split
  · unfold openModule
    rw [dropModule_eq]
  · split
    · exact (closed_closeModule s quoted _).conditionals
    · rfl

theorem conditionals_beginConditional (s : State) (holds : Bool) (condition : Text) :
    (s.beginConditional quoted holds condition).conditionals =
      s.conditionals ++ [(Branches.ofCondition? condition).map fun b => ⟨b, holds⟩] := by
  unfold beginConditional
  split
  · next hnone =>
    rw [hnone]
    rfl
  · next b hsome =>
    rw [hsome]
    simp only
    split
    · rfl
    · split <;> rfl

theorem conditionals_otherBranch (s : State) :
    (s.otherBranch quoted).conditionals =
      s.conditionals.dropLast ++
        (s.conditionals.getLast?.map (Option.map Conditional.flip)).toList := by
  unfold otherBranch
  split
  · next hnone =>
    rw [List.getLast?_eq_none_iff.mp hnone]
    exact List.getLast?_eq_none_iff.mp hnone
  · next hlast =>
    rw [hlast]
    exact conditionals_eq_of_getLast? hlast
  · next c hlast =>
    rw [hlast]
    rfl

theorem conditionals_endConditional (s : State) :
    (s.endConditional quoted).conditionals = s.conditionals.dropLast := by
  unfold endConditional
  split
  · next hnone =>
    have hnil := List.getLast?_eq_none_iff.mp hnone
    rw [hnil]
    exact hnil
  · rfl
  · rfl

theorem conditionals_directive (hs : s.conditionals = pile fs) (d : Directive) :
    (s.directive options quoted d).conditionals = pile (nest fs (.directive d)) := by
  obtain ⟨keyword, arguments⟩ := d
  cases keyword with
  | includeFile | includeOptional | includeSilent =>
    exact (conditionals_includeFile s arguments).trans hs
  | define | endDefine => exact hs
  | ifEq | ifNotEq | ifDefined | ifNotDefined =>
    rw [nest_of_begins fs rfl, pile_cons, ← hs]
    exact conditionals_beginConditional s _ _
  | elseBranch =>
    refine (conditionals_otherBranch s).trans ?_
    rw [hs]
    cases fs with
    | nil => rfl
    | cons f fs =>
      rw [pile_cons, List.dropLast_concat, List.getLast?_concat]
      refine Eq.trans ?_ (pile_cons f.turn fs).symm
      rw [f.frame_turn]
      rfl
  | endIf =>
    refine (conditionals_endConditional s).trans ?_
    rw [hs]
    cases fs with
    | nil => rfl
    | cons f fs =>
      rw [pile_cons, List.dropLast_concat]
      rfl

/-! ## Steps and runs -/

/-- **A step changes the pile as the statement tells.** -/
theorem conditionals_step (hs : s.conditionals = pile fs) (st : Statement) :
    (s.step options source st).conditionals = pile (nest fs st.content) := by
  have hm : (s.moveTo st.lines).conditionals = pile fs := hs
  unfold step
  simp only
  split
  · next text h =>
    rw [h]
    exact hm
  · next a h =>
    rw [h]
    exact (assignmentCase (s.moveTo st.lines) (st.quote source) a).kept.conditionals.trans hm
  · next d h =>
    rw [h]
    exact conditionals_directive hm d
  · next h =>
    rw [h]
    exact hm
  · next h =>
    rw [h]
    exact hm

theorem conditionals_run_of_pile (hs : s.conditionals = pile fs) (sts : List Statement) :
    (s.run options source sts).conditionals = pile (nestAll fs sts) := by
  induction sts generalizing s fs with
  | nil => exact hs
  | cons st sts ih => exact ih (conditionals_step hs st)

/-- **The pile of a run** is what its statements leave standing. -/
theorem conditionals_run (options : Options) (source : Text) (sts : List Statement) :
    (start.run options source sts).conditionals = pile (standing sts) :=
  conditionals_run_of_pile (show start.conditionals = pile [] from rfl) sts

/-- **The branches that are not being read** are those that the history tells. -/
theorem otherPaths_run (options : Options) (source : Text) (sts : List Statement) :
    (start.run options source sts).otherPaths =
      ((standing sts).filterMap Standing.untaken).reverse := by
  unfold otherPaths
  rw [conditionals_run, pile, List.filterMap_reverse, List.filterMap_map]
  congr 2
  funext f
  exact f.bind_frame

end State

end MakeBlueprint.Conversion
