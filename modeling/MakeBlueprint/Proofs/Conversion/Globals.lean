import MakeBlueprint.Proofs.Conversion.Conditionals

/-!
# What one statement does to the variables of the file

A variable of the file is kept in three places: its text in the scope, its kind in `globals`, and
its definitions in the file. A statement writes all three, for one variable, or none of them.

* `Defines`: what an assignment that defines a variable writes.
* `globalCase`: the two cases of a statement.
-/

namespace MakeBlueprint.Conversion

open Blueprint (Path Value)
open Makefile (Assignment Scope Statement)

namespace State

variable {s t u : State} {quoted : Text} {options : Options} {source : Text}

/-! ## Statements that leave variables alone -/

/-- **The variables of the file are left as they are**, in all three places. -/
structure SameGlobals (s t : State) : Prop where
  scope : t.scope = s.scope
  globals : t.globals = s.globals
  assignments : t.file.assignments = s.file.assignments

theorem SameGlobals.refl (s : State) : SameGlobals s s := ⟨rfl, rfl, rfl⟩

theorem SameGlobals.trans (h : SameGlobals s t) (h' : SameGlobals t u) : SameGlobals s u where
  scope := h'.scope.trans h.scope
  globals := h'.globals.trans h.globals
  assignments := h'.assignments.trans h.assignments

theorem sameGlobals_diagnose (s : State) (quoted : Text) (problem : Problem) :
    SameGlobals s (s.diagnose quoted problem) := ⟨rfl, rfl, rfl⟩

theorem SameButProperties.sameGlobals (h : SameButProperties s t) : SameGlobals s t := by
  rw [h.rest]
  exact ⟨rfl, rfl, rfl⟩

theorem SameButPile.sameGlobals (h : SameButPile quoted s t) : SameGlobals s t := by
  obtain ⟨u, hu, he⟩ := h
  have hs : SameGlobals s u := by
    rcases hu with rfl | ⟨problem, -, rfl⟩
    · exact .refl _
    · exact sameGlobals_diagnose s quoted problem
  rw [he]
  exact hs.trans ⟨rfl, rfl, rfl⟩

theorem sameGlobals_dropModule (s : State) : SameGlobals s (s.dropModule options) := by
  rw [dropModule_eq]
  exact ⟨rfl, rfl, rfl⟩

theorem sameGlobals_disable (s : State) (path : Path) : SameGlobals s (s.disable quoted path) := by
  unfold disable
  split
  · next t h => exact (sameButProperties_of_setProperty h).sameGlobals
  · exact sameGlobals_diagnose s quoted _

theorem sameGlobals_disabled (s : State) : SameGlobals s (s.disabled quoted) :=
  disabled_keeps (.refl s) fun t h path _ => h.trans (sameGlobals_disable t path)

theorem assignments_define_module (s : State) (m : Blueprint.Module) :
    (s.define (.module m)).file.assignments = s.file.assignments := by
  unfold define Blueprint.File.assignments
  rw [List.filterMap_append]
  exact List.append_nil _

theorem assignments_define_assignment (s : State) (a : Blueprint.Assignment) :
    (s.define (.assignment a)).file.assignments = s.file.assignments ++ [a] := by
  unfold define Blueprint.File.assignments
  rw [List.filterMap_append]
  rfl

theorem sameGlobals_closeModule (s : State) (moduleType : Text) :
    SameGlobals s (s.closeModule quoted moduleType) := by
  cases hd : s.draft with
  | none =>
    rw [closeModule_of_none quoted moduleType hd]
    exact sameGlobals_diagnose s quoted _
  | some d =>
    obtain ⟨e, -, hclose⟩ := closeModule_of_isSome quoted moduleType (by rw [hd]; rfl)
    rw [hclose]
    exact (sameGlobals_disabled s).trans ⟨rfl, rfl, assignments_define_module _ _⟩

/-! ## Assignments that define a variable -/

/-- Whether a variable is recorded as one of the file. -/
def records (s : State) (name : Text) : Bool := (s.globals.lookup name).isSome

/-- Whether an assignment adds to a variable of the file. -/
def extends? (s : State) (name : Text) (a : Assignment) : Bool :=
  a.op == .append && s.records name

/-- The text that a variable of the file stands for after an assignment to it. -/
def textAfter (s : State) (name : Text) (a : Assignment) : Text :=
  if s.extends? name a then s.scope.get name ++ [' '] ++ a.value.body.value s.scope
  else a.value.body.value s.scope

/-- The definition that an assignment to a variable of the file makes. -/
def definition (s : State) (name : Text) (a : Assignment) (list : Value) :
    Blueprint.Assignment :=
  ⟨name, list, if s.extends? name a then .append else .set, s.line⟩

theorem isSome_knownKind (s : State) (name : Text) (a : Assignment) :
    (s.knownKind name (a.op == .append)).isSome = s.extends? name a := by
  unfold knownKind extends? records
  cases a.op == .append <;> rfl

variable {a : Assignment} {name : Text}

/-- A variable of the file is written in all three places. -/
theorem assignGlobal_eq_ok
    (h : s.assignGlobal name a.value.body (a.op == .append) = .ok t) :
    ∃ list kind, coerceList s.scope a.value.body = .ok list ∧
      t = { s.define (.assignment (s.definition name a list)) with
        globals := (name, kind) :: s.globals
        scope := s.scope.set name (s.textAfter name a) } := by
  obtain ⟨list, hlist, h⟩ := bind_eq_ok h
  obtain ⟨u, hset, h⟩ := bind_eq_ok h
  obtain ⟨total, -, rfl⟩ := setGlobal_eq_ok hset
  cases h
  refine ⟨list, total.kind, hlist, ?_⟩
  simp only [isSome_knownKind, definition, textAfter, extends?, records, Bool.and_eq_true]
  rfl

/-- **What an assignment that defines a variable writes.** -/
structure Defines (s : State) (quoted : Text) (a : Assignment) (name : Text) (list : Value)
    (t : State) : Prop where
  target : a.target = none
  written : ∃ written, a.name.constant? = some written ∧ name = baseName written ∧
    written.any Text.isWhite = false
  meaning : Meaning.ofName name = .global
  coerced : coerceList s.scope a.value.body = .ok list
  assignments : t.file.assignments = s.file.assignments ++ [s.definition name a list]
  globals : ∃ kind, t.globals = (name, kind) :: s.globals
  scope : t.scope = s.scope.set name (s.textAfter name a)
  comments : t.file.comments = s.file.comments ∨
    t.file.comments = (s.diagnose quoted .suffixInConditional).file.comments

/-- An assignment defines one variable of the file, or leaves all of them alone. -/
theorem globalCase_assignment (s : State) (quoted : Text) (a : Assignment) :
    SameGlobals s (s.assignment quoted a) ∨
      ∃ name list, Defines s quoted a name list (s.assignment quoted a) := by
  have hroute := assignmentRoute s quoted a
  generalize s.assignment quoted a = t at hroute
  cases hroute with
  | skipped problem hproblem => exact .inl (sameGlobals_diagnose s quoted problem)
  | handed before written place hbefore htarget hwritten hspace hplace =>
    have hs : SameGlobals s before := by
      rcases hbefore with rfl | rfl
      · exact .refl _
      · exact sameGlobals_diagnose s quoted _
    unfold assignOrReport
    cases h : before.assign (baseName written) (place.getD []) a.value.body (a.op == .append) with
    | error cause => exact .inl (hs.trans (sameGlobals_diagnose before quoted _))
    | ok t =>
      by_cases hmeaning : Meaning.ofName (baseName written) = .global
      · rw [assign_of_global hmeaning] at h
        obtain ⟨list, kind, hlist, rfl⟩ := assignGlobal_eq_ok h
        have hw : ∃ w, a.name.constant? = some w ∧ baseName written = baseName w ∧
            w.any Text.isWhite = false := ⟨written, hwritten, rfl, hspace⟩
        have hfile := assignments_define_assignment before
          (before.definition (baseName written) a list)
        refine .inr ⟨baseName written, list, ?_⟩
        rcases hbefore with rfl | rfl
        · exact ⟨htarget, hw, hmeaning, hlist, hfile, ⟨kind, rfl⟩, rfl, .inl rfl⟩
        · exact ⟨htarget, hw, hmeaning, hlist, hfile, ⟨kind, rfl⟩, rfl, .inr rfl⟩
      · rw [assign_eq_writes hmeaning] at h
        obtain ⟨ws, -, hw⟩ := bind_eq_ok h
        exact .inl (hs.trans (sameButProperties_of_writes hw).sameGlobals)

/-- **A statement defines one variable of the file, or leaves all of them alone.** -/
theorem globalCase (options : Options) (source : Text) (s : State) (st : Statement) :
    SameGlobals s (s.step options source st) ∨
      ∃ a name list, st.content = .assignment a ∧
        Defines (s.moveTo st.lines) (st.quote source) a name list (s.step options source st) := by
  have hmove : SameGlobals s (s.moveTo st.lines) := ⟨rfl, rfl, rfl⟩
  have hcase := stepCase options source s st
  by_cases hassign : ∃ a, st.content = .assignment a
  · obtain ⟨a, ha⟩ := hassign
    rw [step_of_assignment ha]
    rcases globalCase_assignment (s.moveTo st.lines) (st.quote source) a with
      h | ⟨name, list, h⟩
    · exact .inl (hmove.trans h)
    · exact .inr ⟨a, name, list, ha, h⟩
  · refine .inl (hmove.trans ?_)
    generalize s.step options source st = t at hcase
    cases hcase with
    | copies text h => exact ⟨rfl, rfl, rfl⟩
    | assigns a t h ht => exact absurd ⟨a, h⟩ hassign
    | opens h => exact (sameGlobals_dropModule _).trans ⟨rfl, rfl, rfl⟩
    | builds moduleType h => exact sameGlobals_closeModule _ moduleType
    | begins holds condition h => exact (sameButPile_beginConditional _ _).sameGlobals
    | turns h => exact sameButPile_otherBranch.sameGlobals
    | ends h => exact sameButPile_endConditional.sameGlobals
    | unsupported problem h hproblem => exact sameGlobals_diagnose _ _ problem

end State

end MakeBlueprint.Conversion
