import MakeBlueprint.Proofs.Conversion.Step

/-!
# What assignments and reports keep

Reports, writes and variables of the file leave most of a state as it is: the conditionals, the
lines, the place where the open module was begun, the modules that are finished, and the number of
modules that are reported as never closed. `Kept` says so once for all of them.

* `AssignmentCase.kept`, `kept_disable`: what assignments do, and switching a module off.
* `closeModule_of_isSome`: a module that is built is switched off where it has to be, and emitted.
* `closed_closeModule`: what building keeps.
-/

namespace MakeBlueprint.Conversion

open Blueprint (Comment Path Property Value)
open Makefile (Assignment)

/-- Whether a comment reads like a report of a problem. -/
def reports (problem : Problem) (c : Comment) : Bool :=
  c.lines.head? == some (problemMark ++ problem.message)

theorem head?_message_refusal (cause : Refusal) : cause.message.head? ≠ some 'm' := by
  intro h
  cases cause <;> cases h

/-- Only one problem has the message of a module that is never closed. -/
theorem message_ne_neverClosed {problem : Problem} (h : problem ≠ .neverClosed) :
    problem.message ≠ Problem.neverClosed.message := by
  cases problem with
  | neverClosed => exact absurd rfl h
  | refused cause => exact fun hm => head?_message_refusal cause (congrArg List.head? hm)
  | _ => decide

theorem reports_report (problem other : Problem) (quoted : Text) (line : Nat) :
    reports problem ⟨other.report quoted, line⟩ = decide (other.message = problem.message) := by
  unfold reports Problem.report
  rw [List.head?_cons, Bool.eq_iff_iff]
  simp only [beq_iff_eq, Option.some.injEq, List.append_cancel_left_eq, decide_eq_true_eq]

namespace State

variable {s t u : State} {quoted : Text} {problem : Problem}

/-- The number of comments that read like the report of a module that is never closed. -/
def unclosedCount (s : State) : Nat := s.file.comments.countP (reports .neverClosed)

/-- **What assignments and reports leave as it is.** -/
structure Kept (s t : State) : Prop where
  conditionals : t.conditionals = s.conditionals
  assigning : t.assigning = s.assigning
  line : t.line = s.line
  lastLine : t.lastLine = s.lastLine
  header : t.header = s.header
  modules : t.file.modules = s.file.modules
  unclosed : t.unclosedCount = s.unclosedCount

theorem Kept.refl (s : State) : Kept s s := ⟨rfl, rfl, rfl, rfl, rfl, rfl, rfl⟩

theorem Kept.trans (h : Kept s t) (h' : Kept t u) : Kept s u where
  conditionals := h'.conditionals.trans h.conditionals
  assigning := h'.assigning.trans h.assigning
  line := h'.line.trans h.line
  lastLine := h'.lastLine.trans h.lastLine
  header := h'.header.trans h.header
  modules := h'.modules.trans h.modules
  unclosed := h'.unclosed.trans h.unclosed

theorem unclosedCount_comment (s : State) (lines : List Text) :
    (s.comment lines).unclosedCount =
      s.unclosedCount + if reports .neverClosed ⟨lines, s.line⟩ then 1 else 0 := by
  unfold unclosedCount comment
  rw [List.countP_append, List.countP_singleton]

theorem kept_diagnose (s : State) (quoted : Text) (h : problem ≠ .neverClosed) :
    Kept s (s.diagnose quoted problem) := by
  refine ⟨rfl, rfl, rfl, rfl, rfl, rfl, ?_⟩
  have hr : reports .neverClosed ⟨problem.report quoted, s.line⟩ = false := by
    rw [reports_report, decide_eq_false (message_ne_neverClosed h)]
  unfold diagnose
  rw [unclosedCount_comment, hr]
  rfl

theorem SameButProperties.kept (h : SameButProperties s t) : Kept s t := by
  obtain ⟨hrest, hheader⟩ := h
  rw [hrest] at hheader ⊢
  exact ⟨rfl, rfl, rfl, rfl, hheader, rfl, rfl⟩

theorem modules_define_assignment (s : State) (a : Blueprint.Assignment) :
    (s.define (.assignment a)).file.modules = s.file.modules := by
  unfold define Blueprint.File.modules
  rw [List.filterMap_append]
  exact List.append_nil _

theorem modules_define_module (s : State) (m : Blueprint.Module) :
    (s.define (.module m)).file.modules = s.file.modules ++ [m] := by
  unfold define Blueprint.File.modules
  rw [List.filterMap_append]
  rfl

theorem kept_setGlobal {name : Text} {value : Value} {append : Bool} (scope : Makefile.Scope)
    (h : s.setGlobal name value append = .ok t) : Kept s { t with scope } := by
  obtain ⟨total, -, rfl⟩ := setGlobal_eq_ok h
  exact ⟨rfl, rfl, rfl, rfl, rfl, modules_define_assignment _ _, rfl⟩

/-- **An assignment keeps what reports keep.** -/
theorem AssignmentCase.kept {a : Assignment} (h : AssignmentCase s quoted a t) : Kept s t := by
  have hbefore : ∀ {before}, before = s ∨ before = s.diagnose quoted .suffixInConditional →
      Kept s before := by
    rintro before (rfl | rfl)
    · exact .refl _
    · exact kept_diagnose _ _ (by decide)
  cases h with
  | skipped problem hproblem =>
    apply kept_diagnose
    rintro rfl
    simp at hproblem
  | written before t name path ws hb hpath hws hwrite =>
    exact (hbefore hb).trans (sameButProperties_of_writes hwrite).kept
  | global before t name evaluated list hb hlist hset =>
    exact (hbefore hb).trans (kept_setGlobal _ hset)
  | refused before name path cause hb hpath hcause =>
    exact (hbefore hb).trans (kept_diagnose _ _ (by simp))

/-! ## Building modules -/

theorem kept_disable (quoted : Text) (s : State) (path : Path) :
    Kept s (s.disable quoted path) := by
  unfold disable
  split
  · next t h => exact (sameButProperties_of_setProperty h).kept
  · exact kept_diagnose _ _ (by simp)

/-- The open module after it is switched off in the branches that are not being read. -/
def disabled (s : State) (quoted : Text) : State := s.otherPaths.foldl (disable quoted) s

/-- What is kept when the module is switched off in one branch, is kept in all of them. -/
theorem disabled_keeps {P : State → Prop} {quoted : Text} (h : P s)
    (hstep : ∀ t, P t → ∀ path ∈ s.otherPaths, P (t.disable quoted path)) :
    P (s.disabled quoted) :=
  List.foldlRecOn s.otherPaths (disable quoted) h hstep

theorem kept_disabled (quoted : Text) (s : State) : Kept s (s.disabled quoted) :=
  disabled_keeps (.refl s) fun t h path _ => h.trans (kept_disable quoted t path)

/-- **Building a module** that is open: it is switched off where it has to be, and emitted. -/
theorem closeModule_of_isSome (quoted moduleType : Text) (h : s.draft.isSome) :
    ∃ d, (s.disabled quoted).draft = some d ∧
      s.closeModule quoted moduleType = { s.disabled quoted with draft := none }.define
        (.module ⟨moduleType, d.properties, d.line, (s.disabled quoted).line⟩) := by
  have hkept := kept_disabled quoted s
  have hsome := isSome_draft_of_header hkept.header
  rw [h] at hsome
  obtain ⟨d, hd⟩ := Option.isSome_iff_exists.mp hsome
  refine ⟨d, hd, ?_⟩
  have hnone : s.draft.isNone = false := by
    rw [← Option.not_isSome, h]
    rfl
  have hfold : (s.otherPaths.foldl (disable quoted) s).draft = some d := hd
  unfold closeModule
  rw [hnone, if_neg Bool.false_ne_true]
  simp only
  rw [hfold]
  rfl

/-- Building without an open module is only reported. -/
theorem closeModule_of_none (quoted moduleType : Text) (h : s.draft = none) :
    s.closeModule quoted moduleType = s.diagnose quoted .neverOpened := by
  unfold closeModule
  rw [h]
  rfl

/-- **What building leaves as it is**, whether a module is open or not. -/
structure Closed (s t : State) : Prop where
  draft : t.draft = none
  conditionals : t.conditionals = s.conditionals
  assigning : t.assigning = s.assigning
  line : t.line = s.line
  unclosed : t.unclosedCount = s.unclosedCount

theorem closed_closeModule (s : State) (quoted moduleType : Text) :
    Closed s (s.closeModule quoted moduleType) := by
  cases hd : s.draft with
  | none =>
    have hkept : Kept s (s.diagnose quoted .neverOpened) := kept_diagnose s quoted (by decide)
    rw [closeModule_of_none quoted moduleType hd]
    exact ⟨hd, hkept.conditionals, hkept.assigning, hkept.line, hkept.unclosed⟩
  | some d =>
    have hkept : Kept s (s.disabled quoted) := kept_disabled quoted s
    obtain ⟨e, -, hclose⟩ := closeModule_of_isSome quoted moduleType (by rw [hd]; rfl)
    rw [hclose]
    exact ⟨rfl, hkept.conditionals, hkept.assigning, hkept.line, hkept.unclosed⟩

end State

end MakeBlueprint.Conversion
