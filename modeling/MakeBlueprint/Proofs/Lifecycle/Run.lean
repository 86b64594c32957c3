import Mathlib.Data.List.Forall2
import Mathlib.Data.List.Induction
import MakeBlueprint.Proofs.Conversion.Modules
import MakeBlueprint.Proofs.Lifecycle.Matching
import MakeBlueprint.Proofs.Property.Update

/-!
# The life of a module

The modules of a file are the matched beginnings and ends of the events of its makefile, in order.
The invariants of a run are stated for the state before each of its statements (`before`):

* `collected_before`: the open module is the one whose beginning is the last event, and each of its
  properties was set by an assignment since then.
* `modules_before`: the finished modules are the matched ones.
* `unclosedCount_run`: the reports of modules that are never closed are the abandoned ones.

Together they make up `toBlueprint_lifecycle`.
-/

namespace MakeBlueprint.Conversion

open Blueprint (Module Path Property)
open Blueprint.Property (find? find?_nil)
open Makefile (Statement)

namespace State

variable {options : Options} {source : Text} {sts : List Statement} {st : Statement}
  {i n : Nat} {moduleType : Text}

/-! ## The states of a run -/

/-- The state before the statement at a place of a run. -/
def before (options : Options) (source : Text) (sts : List Statement) (n : Nat) : State :=
  start.run options source (sts.take n)

theorem before_length (options : Options) (source : Text) (sts : List Statement) :
    before options source sts sts.length = start.run options source sts := by
  unfold before
  rw [List.take_length]

/-- The statement at a place leads from the state before it to the next one. -/
theorem before_succ (hst : sts[n]? = some st) :
    before options source sts (n + 1) = (before options source sts n).step options source st := by
  unfold before
  rw [List.take_add_one, hst, run_append]
  rfl

/-- The event at a place is told by the state before it. -/
theorem event_at (hst : sts[n]? = some st) :
    (events options source start sts)[n]? =
      some (ModuleEvent.of? (before options source sts n).scope st.content) := by
  rw [getElem?_events, hst]
  rfl

/-- **What the statement at a place does** to modules, with the event that says so. -/
inductive PlaceCase (options : Options) (source : Text) (sts : List Statement) (n : Nat) : Prop
  | idle (st : Statement) (hst : sts[n]? = some st)
      (hevent : (events options source start sts)[n]? = some none)
      (hidle : Idle st (before options source sts n) (before options source sts (n + 1)))
  | opens (st : Statement)
      (hevent : (events options source start sts)[n]? = some (some .opens))
      (hstep : before options source sts (n + 1) =
        ((before options source sts n).moveTo st.lines).openModule options (st.quote source))
  | builds (st : Statement) (moduleType : Text) (hst : sts[n]? = some st)
      (hevent : (events options source start sts)[n]? = some (some (.builds moduleType)))
      (hstep : before options source sts (n + 1) =
        ((before options source sts n).moveTo st.lines).closeModule (st.quote source) moduleType)

theorem placeCase (options : Options) (source : Text) (hn : n < sts.length) :
    PlaceCase options source sts n := by
  obtain ⟨st, hst⟩ : ∃ st, sts[n]? = some st := ⟨_, List.getElem?_eq_getElem hn⟩
  have hstep : before options source sts (n + 1) =
      (before options source sts n).step options source st := before_succ hst
  have hevent : (events options source start sts)[n]? =
      some (ModuleEvent.of? (before options source sts n).scope st.content) := event_at hst
  cases he : ModuleEvent.of? (before options source sts n).scope st.content with
  | none =>
    rw [he] at hevent
    refine .idle st hst hevent ?_
    rw [hstep]
    exact idle_step he
  | some e =>
    rw [he] at hevent
    rcases step_of_event he with ⟨rfl, hopen⟩ | ⟨moduleType, rfl, hclose⟩
    · exact .opens st hevent (hstep.trans hopen)
    · exact .builds st moduleType hst hevent (hstep.trans hclose)

/-! ## Properties are set by assignments -/

/-- The properties of the open module. -/
def openProperties (s : State) : List Property := (s.draft.map Draft.properties).getD []

theorem openProperties_of_draft {s : State} {d : Draft} (hd : s.draft = some d) :
    s.openProperties = d.properties := by
  unfold openProperties
  rw [hd]
  rfl

/-- The assignment at a place gives the open module a property that it did not have. -/
structure SetBy (options : Options) (source : Text) (sts : List Statement) (k : Nat) (q : Path)
    (p : Property) : Prop where
  assignment : ∃ st a, sts[k]? = some st ∧ st.content = .assignment a
  new : find? q (before options source sts k).openProperties ≠ some p
  set : find? q (before options source sts (k + 1)).openProperties = some p

/-- A module that is open before the place `n` was begun at `i`, and everything in it was set
since. -/
structure Collected (options : Options) (source : Text) (sts : List Statement) (i n : Nat)
    (d : Draft) : Prop where
  pending : Pending (events options source start sts) i n
  line : d.line = (before options source sts (i + 1)).line
  set : ∀ q p, find? q d.properties = some p →
    ∃ k, i < k ∧ k < n ∧ SetBy options source sts k q p

theorem draft_of_header {s t : State} {d : Draft} (h : t.header = s.header)
    (hd : t.draft = some d) : ∃ e, s.draft = some e ∧ e.line = d.line := by
  unfold header at h
  rw [hd, Option.map_some] at h
  obtain ⟨e, he, hline⟩ := Option.map_eq_some_iff.mp h.symm
  exact ⟨e, he, congrArg Prod.fst hline⟩

/-- A statement that is no event keeps what is known of the open module. -/
theorem Collected.of_idle {d e : Draft} (hst : sts[n]? = some st)
    (he : (before options source sts n).draft = some e)
    (hd : (before options source sts (n + 1)).draft = some d) (hline : e.line = d.line)
    (hnone : (events options source start sts)[n]? = some none)
    (hidle : Idle st (before options source sts n) (before options source sts (n + 1)))
    (h : Collected options source sts i n e) : Collected options source sts i (n + 1) d := by
  refine ⟨(pending_succ_of_none hnone).mpr h.pending, hline.symm.trans h.line, ?_⟩
  intro q p hp
  by_cases hold : find? q e.properties = some p
  · obtain ⟨k, hik, hkn, hset⟩ := h.set q p hold
    exact ⟨k, hik, by omega, hset⟩
  · have hassignment : ∃ a, st.content = .assignment a := by
      rcases hidle.draft with hsame | ha
      · rw [hd, he] at hsame
        cases hsame
        exact absurd hp hold
      · exact ha
    obtain ⟨a, ha⟩ := hassignment
    refine ⟨n, h.pending.before, Nat.lt_succ_self n, ⟨st, a, hst, ha⟩, ?_, ?_⟩
    · rw [openProperties_of_draft he]
      exact hold
    · rw [openProperties_of_draft hd]
      exact hp

/-- **The open module is the one whose beginning is the last event.** -/
theorem collected_before (options : Options) (source : Text) (hn : n ≤ sts.length) :
    (∀ d, (before options source sts n).draft = some d →
        ∃ i, Collected options source sts i n d) ∧
      ((before options source sts n).draft = none →
        ∀ i, ¬ Pending (events options source start sts) i n) := by
  induction n with
  | zero =>
    refine ⟨fun d hd => ?_, fun _ i => not_pending_zero⟩
    cases hd
  | succ n ih =>
    obtain ⟨hopen, hclosed⟩ := ih (by omega)
    cases placeCase options source (Nat.lt_of_succ_le hn) with
    | idle st hst hevent hidle =>
      constructor
      · intro d hd
        obtain ⟨e, he, hline⟩ := draft_of_header hidle.header hd
        obtain ⟨i, hi⟩ := hopen e he
        exact ⟨i, hi.of_idle hst he hd hline hevent hidle⟩
      · intro hd i hi
        have hsome := isSome_draft_of_header hidle.header
        rw [hd, Option.isSome_none] at hsome
        have hnone : (before options source sts n).draft = none :=
          Option.isNone_iff_eq_none.mp (Option.isSome_eq_false_iff.mp hsome.symm)
        exact hclosed hnone i ((pending_succ_of_none hevent).mp hi)
    | opens st hevent hstep =>
      constructor
      · intro d hd
        rw [hstep, draft_openModule] at hd
        cases hd
        refine ⟨n, pending_succ_of_opens hevent, ?_, ?_⟩
        · rw [hstep]
          unfold openModule
          rw [dropModule_eq]
        · intro q p hp
          rw [find?_nil] at hp
          cases hp
      · intro hd
        rw [hstep, draft_openModule] at hd
        cases hd
    | builds st moduleType hst hevent hstep =>
      constructor
      · intro d hd
        rw [hstep, (closed_closeModule _ _ _).draft] at hd
        cases hd
      · intro _ i
        exact not_pending_succ_of_builds hevent

/-! ## Finished modules -/

/-- **A module of the file is a matched one**: it has its type and its lines, and each of its
properties was set by an assignment inside it or is new in the step that builds it. -/
structure Emitted (options : Options) (source : Text) (sts : List Statement) (x : Extent)
    (m : Module) : Prop where
  moduleType : m.moduleType = x.moduleType
  line : m.line = (before options source sts (x.first + 1)).line
  endLine : m.endLine = (before options source sts (x.last + 1)).line
  set : ∀ q p, find? q m.properties = some p →
    (∃ k, x.first < k ∧ k < x.last ∧ SetBy options source sts k q p) ∨
      find? q (before options source sts x.last).openProperties ≠ some p

/-- The module that is built is the one whose beginning is the last event. -/
theorem Collected.emitted {d : Draft} (hd : (before options source sts n).draft = some d)
    (hstep : before options source sts (n + 1) =
      ((before options source sts n).moveTo st.lines).closeModule (st.quote source) moduleType)
    (h : Collected options source sts i n d) :
    ∃ m, (before options source sts (n + 1)).file.modules =
        (before options source sts n).file.modules ++ [m] ∧
      Emitted options source sts ⟨i, n, moduleType⟩ m := by
  have hmoved : ((before options source sts n).moveTo st.lines).draft = some d := hd
  obtain ⟨properties, -, hmodules⟩ := modules_closeModule hmoved
  refine ⟨_, by rw [hstep]; exact hmodules, rfl, h.line, ?_, ?_⟩
  · rw [hstep, (closed_closeModule _ _ _).line]
  · intro q p hp
    by_cases hold : find? q d.properties = some p
    · exact Or.inl (h.set q p hold)
    · right
      rw [openProperties_of_draft hd]
      exact hold

/-- **The finished modules are the matched ones, in order.** -/
theorem modules_before (options : Options) (source : Text) (hn : n ≤ sts.length) :
    ∃ extents, MatchedBefore (events options source start sts) n extents ∧
      List.Forall₂ (Emitted options source sts) extents
        (before options source sts n).file.modules := by
  induction n with
  | zero => exact ⟨[], matchedBefore_zero _, List.Forall₂.nil⟩
  | succ n ih =>
    obtain ⟨extents, hmatched, hmodules⟩ := ih (by omega)
    cases placeCase options source (Nat.lt_of_succ_le hn) with
    | idle st hst hevent hidle =>
      refine ⟨extents, hmatched.succ_of_not_builds (by simp [hevent]), ?_⟩
      rw [hidle.modules]
      exact hmodules
    | opens st hevent hstep =>
      refine ⟨extents, hmatched.succ_of_not_builds (by simp [hevent]), ?_⟩
      have hsame : (before options source sts (n + 1)).file.modules =
          (before options source sts n).file.modules := by
        rw [hstep]
        exact modules_dropModule _ _
      rw [hsame]
      exact hmodules
    | builds st moduleType hst hevent hstep =>
      obtain ⟨hopen, hclosed⟩ := collected_before options source (Nat.le_of_succ_le hn)
      cases hd : (before options source sts n).draft with
      | none =>
        refine ⟨extents, hmatched.succ_of_not_pending (hclosed hd), ?_⟩
        have hmoved : ((before options source sts n).moveTo st.lines).draft = none := hd
        rw [hstep, closeModule_of_none _ _ hmoved]
        exact hmodules
      | some d =>
        obtain ⟨i, hi⟩ := hopen d hd
        obtain ⟨m, hm, hemitted⟩ := hi.emitted hd hstep
        refine ⟨extents ++ [⟨i, n, moduleType⟩], hmatched.succ_of_builds hi.pending hevent, ?_⟩
        rw [hm]
        exact List.rel_append hmodules (List.Forall₂.cons hemitted List.Forall₂.nil)

/-- Building without an open module reports a problem and does nothing else. -/
theorem file_of_unmatched (hst : sts[n]? = some st)
    (hb : (events options source start sts)[n]? = some (some (.builds moduleType)))
    (hn : ∀ i, ¬ Pending (events options source start sts) i n) :
    (before options source sts (n + 1)).file =
      { (before options source sts n).file with
        comments := (before options source sts n).file.comments ++
          [⟨Problem.neverOpened.report (st.quote source),
            (before options source sts (n + 1)).line⟩] } := by
  have hlen : n < sts.length := (List.getElem?_eq_some_iff.mp hst).1
  have hd : (before options source sts n).draft = none := by
    obtain ⟨hopen, -⟩ := collected_before options source (Nat.le_of_lt hlen)
    by_contra hsome
    obtain ⟨d, hd⟩ := Option.ne_none_iff_exists'.mp hsome
    obtain ⟨i, hi⟩ := hopen d hd
    exact hn i hi.pending
  cases placeCase options source hlen with
  | idle _ _ hevent =>
    rw [hevent] at hb
    cases hb
  | opens _ hevent =>
    rw [hevent] at hb
    cases hb
  | builds st' moduleType hst' hevent hstep =>
    rw [hst'] at hst
    cases hst
    have hmoved : ((before options source sts n).moveTo st.lines).draft = none := hd
    rw [hstep, closeModule_of_none _ _ hmoved]
    rfl

/-! ## Reports of modules that are never closed -/

/-- **The modules that are reported as never closed are the abandoned ones**, up to the open one
and to copied comments that read like such a report. -/
theorem unclosedCount_run (source : Text) (hreport : options.reportUnclosed = true)
    (sts : List Statement) :
    (start.run options source sts).draft.isSome = lastOpens (events options source start sts) ∧
      (start.run options source sts).unclosedCount +
          (if (start.run options source sts).draft.isSome then 1 else 0) =
        abandoned (events options source start sts) +
          sts.countP fun st => mimics st.content := by
  induction sts using List.reverseRecOn with
  | nil => exact ⟨rfl, rfl⟩
  | append_singleton sts st ih =>
    obtain ⟨hopen, hcount⟩ := ih
    rw [run_append, run_cons, run_nil, events_append, List.countP_append, List.countP_singleton]
    generalize start.run options source sts = s at hopen hcount ⊢
    change (s.step options source st).draft.isSome =
        lastOpens (_ ++ [ModuleEvent.of? s.scope st.content]) ∧
      _ = abandoned (_ ++ [ModuleEvent.of? s.scope st.content]) + _
    generalize events options source start sts = es at hopen hcount ⊢
    cases he : ModuleEvent.of? s.scope st.content with
    | none =>
      obtain ⟨habandoned, hlast⟩ := abandoned_append_none es
      have hidle : Idle st s (s.step options source st) := idle_step he
      rw [isSome_draft_of_header hidle.header, hidle.unclosed, hlast, habandoned]
      exact ⟨hopen, by omega⟩
    | some e =>
      have hmimics : mimics st.content = false := by
        apply mimics_eq_false
        intro text hc
        rw [hc] at he
        cases he
      rw [hmimics]
      cases e with
      | opens =>
        obtain ⟨habandoned, hlast⟩ := abandoned_append_opens es
        rw [step_of_opens he, draft_openModule, hlast, habandoned, unclosedCount_openModule,
          hreport, Bool.and_true]
        refine ⟨rfl, ?_⟩
        have hmoved : (s.moveTo st.lines).unclosedCount +
            (if (s.moveTo st.lines).draft.isSome then 1 else 0) =
              abandoned es + sts.countP fun st => mimics st.content := hcount
        rw [hmoved]
        simp only [Option.isSome_some, if_true, Bool.false_eq_true, if_false]
        omega
      | builds moduleType =>
        obtain ⟨habandoned, hlast⟩ := abandoned_append_builds es moduleType
        have hclosed := closed_closeModule (s.moveTo st.lines) (st.quote source) moduleType
        rw [step_of_builds he, hclosed.draft, hclosed.unclosed, hlast]
        refine ⟨rfl, ?_⟩
        have hmoved : (s.moveTo st.lines).unclosedCount = s.unclosedCount := rfl
        rw [hmoved]
        rw [hopen] at hcount
        simp only [Option.isSome_none, Bool.false_eq_true, if_false]
        omega

/-! ## The whole file -/

theorem modules_finish (s : State) (options : Options) :
    (s.finish options).modules = s.file.modules := by
  unfold finish
  split
  · rfl
  · exact modules_dropModule _ options

theorem countP_comments_finish (s : State) (options : Options) :
    (s.finish options).comments.countP (reports .neverClosed) =
      s.unclosedCount + if s.draft.isSome && options.reportUnclosed then 1 else 0 := by
  unfold finish
  split
  · next h =>
    rw [← Option.not_isNone, h]
    rfl
  · exact unclosedCount_dropModule { s with line := s.line + 1 } options

end State

open State

/-- **The life of modules.** The modules of a file are the matched beginnings and ends of the events
of its makefile, in order, and everything in them was set inside them. Any other statement that
builds a module only reports that there is none. The modules that are reported as never closed are
the abandoned ones; comments of the makefile that read like such a report are copied besides. -/
theorem toBlueprint_lifecycle (options : Options) (source : Text) (sts : List Statement) :
    (∃ extents : List Extent, extents.Pairwise (fun x y => x.last < y.last) ∧
        (∀ x, x ∈ extents ↔ x.Matched (events options source start sts)) ∧
        List.Forall₂ (Emitted options source sts) extents
          (toBlueprint options source sts).modules) ∧
      (∀ n st moduleType, sts[n]? = some st →
        (events options source start sts)[n]? = some (some (.builds moduleType)) →
        (∀ x : Extent, x.Matched (events options source start sts) → x.last ≠ n) →
          (before options source sts (n + 1)).file =
            { (before options source sts n).file with
              comments := (before options source sts n).file.comments ++
                [⟨Problem.neverOpened.report (st.quote source),
                  (before options source sts (n + 1)).line⟩] }) ∧
      (options.reportUnclosed = true →
        (toBlueprint options source sts).comments.countP (reports .neverClosed) =
          abandoned (events options source start sts) +
            sts.countP fun st => mimics st.content) := by
  refine ⟨?_, ?_, ?_⟩
  · obtain ⟨extents, hmatched, hmodules⟩ := modules_before options source (Nat.le_refl sts.length)
    refine ⟨extents, hmatched.sorted, fun x => ?_, ?_⟩
    · rw [hmatched.mem]
      constructor
      · rintro ⟨hx, -⟩
        exact hx
      · intro hx
        have hlast := (List.getElem?_eq_some_iff.mp hx.builds).1
        rw [length_events] at hlast
        exact ⟨hx, hlast⟩
    · unfold toBlueprint
      rw [modules_finish, ← before_length]
      exact hmodules
  · intro n st moduleType hst hb hn
    apply file_of_unmatched hst hb
    intro i hi
    exact hn ⟨i, n, moduleType⟩ ⟨hi, hb⟩ rfl
  · intro hreport
    obtain ⟨-, hcount⟩ := unclosedCount_run source hreport sts
    unfold toBlueprint
    rw [countP_comments_finish, hreport, Bool.and_true]
    exact hcount

end MakeBlueprint.Conversion
