import MakeBlueprint.Proofs.Conversion.Conditionals

/-!
# What statements do to modules

Statements that begin and build modules are events of a run (`events`). A step begins a module, or
builds one, or leaves the modules alone:

* `step_of_opens`, `step_of_builds`: what the two events do.
* `modules_closeModule`: building adds the open module to the file.
* `idle_step`: any other statement keeps the open module and the finished ones, and only an
  assignment writes properties.
* `getElem?_events`: the event of a statement is told by the scope in which the statement is read.
-/

namespace MakeBlueprint.Conversion

open Makefile (Content Phrase Statement)

/-! ## Single statements -/

/-- A statement on no lines. -/
def aside (content : Content) : Statement := ⟨content, ⟨0, 0⟩, ⟨0, 0⟩⟩

/-- Begins a module. -/
def beginning : Statement := aside (.directive ⟨.includeFile, .ofText 0 clearMark⟩)

/-- Ends a conditional. -/
def ending : Statement := aside (.directive ⟨.endIf, .ofText 0 []⟩)

/-- The assignment of a text. -/
def setting (name value : Text) : Makefile.Assignment :=
  ⟨.ofText 0 name, .simple, .ofText 0 value, none⟩

/-- The assignment of the name of a module. -/
def naming : Makefile.Assignment := setting State.moduleName ['x']

/-- Builds a module. -/
def building : Statement := aside (.directive ⟨.includeFile, .ofText 0 "cc_binary"⟩)

/-- A condition that is known: the host system is Linux. -/
def hostIsLinux : Phrase :=
  ⟨0, .char '(' (.ref (.ofText "HOST_OS") 0 0 .paren (.ofText ",linux)"))⟩

/-- Begins a conditional. -/
def branching : Statement := aside (.directive ⟨.ifEq, hostIsLinux⟩)

/-- Whether a statement is a comment that reads, once it is copied, like the report of a module
that is never closed. -/
def mimics : Content → Bool
  | .comment text => reports .neverClosed ⟨copied text, 0⟩
  | _ => false

namespace State

variable {s t : State} {quoted moduleType : Text} {options : Options} {source : Text}
  {st : Statement} {sts : List Statement}

/-! ## Events -/

/-- **The events of a run**, one for each statement. -/
def events (options : Options) (source : Text) :
    State → List Statement → List (Option ModuleEvent)
  | _, [] => []
  | s, st :: sts =>
    ModuleEvent.of? s.scope st.content :: events options source (s.step options source st) sts

theorem length_events (s : State) (sts : List Statement) :
    (events options source s sts).length = sts.length := by
  induction sts generalizing s with
  | nil => rfl
  | cons st sts ih => rw [events, List.length_cons, List.length_cons, ih]

theorem events_append (s : State) (sts rest : List Statement) :
    events options source s (sts ++ rest) =
      events options source s sts ++ events options source (s.run options source sts) rest := by
  induction sts generalizing s with
  | nil => rfl
  | cons st sts ih => rw [List.cons_append, events, events, ih, run_cons, List.cons_append]

theorem getElem?_events (s : State) (sts : List Statement) (i : Nat) :
    (events options source s sts)[i]? =
      sts[i]?.map fun st =>
        ModuleEvent.of? (s.run options source (sts.take i)).scope st.content := by
  induction sts generalizing s i with
  | nil => rfl
  | cons st sts ih =>
    cases i with
    | zero => rfl
    | succ i => exact ih (s.step options source st) i

/-! ## Modules begin and end -/

/-- An event begins or builds a module, and nothing else. -/
theorem step_of_event {e : ModuleEvent} (h : ModuleEvent.of? s.scope st.content = some e) :
    (e = .opens ∧
        s.step options source st = (s.moveTo st.lines).openModule options (st.quote source)) ∨
      ∃ moduleType, e = .builds moduleType ∧
        s.step options source st =
          (s.moveTo st.lines).closeModule (st.quote source) moduleType := by
  have hcase := stepCase options source s st
  generalize s.step options source st = t at hcase
  cases hcase with
  | opens ho =>
    rw [ho] at h
    cases h
    exact Or.inl ⟨rfl, rfl⟩
  | builds moduleType hb =>
    rw [hb] at h
    cases h
    exact Or.inr ⟨moduleType, rfl, rfl⟩
  | copies text hc =>
    rw [hc] at h
    cases h
  | assigns a t hc =>
    rw [hc] at h
    cases h
  | begins holds condition hn | turns hn | ends hn | unsupported problem hn =>
    rw [hn] at h
    cases h

/-- A module is begun, and the one before is given up. -/
theorem step_of_opens (h : ModuleEvent.of? s.scope st.content = some .opens) :
    s.step options source st = (s.moveTo st.lines).openModule options (st.quote source) := by
  rcases step_of_event h with ⟨-, hstep⟩ | ⟨moduleType, he, -⟩
  · exact hstep
  · cases he

/-- The open module is built. -/
theorem step_of_builds (h : ModuleEvent.of? s.scope st.content = some (.builds moduleType)) :
    s.step options source st = (s.moveTo st.lines).closeModule (st.quote source) moduleType := by
  rcases step_of_event h with ⟨he, -⟩ | ⟨other, he, hstep⟩
  · cases he
  · cases he
    exact hstep

theorem modules_dropModule (s : State) (options : Options) :
    (s.dropModule options).file.modules = s.file.modules := by
  rw [dropModule_eq]
  rfl

/-- A module that is given up is reported once, if at all. -/
theorem unclosedCount_dropModule (s : State) (options : Options) :
    (s.dropModule options).unclosedCount =
      s.unclosedCount + if s.draft.isSome && options.reportUnclosed then 1 else 0 := by
  unfold dropModule
  cases hd : s.draft with
  | none => rfl
  | some d =>
    cases hr : options.reportUnclosed with
    | false => rfl
    | true =>
      simp only [if_true]
      unfold diagnose
      rw [unclosedCount_comment, reports_report, decide_eq_true rfl]
      rfl

theorem unclosedCount_openModule (s : State) (options : Options) (quoted : Text) :
    (s.openModule options quoted).unclosedCount =
      s.unclosedCount + if s.draft.isSome && options.reportUnclosed then 1 else 0 :=
  unclosedCount_dropModule s options

theorem draft_openModule : (s.openModule options quoted).draft = some ⟨[], s.line, quoted⟩ := by
  unfold openModule
  rw [dropModule_eq]

/-- **Building adds the open module** with its properties after it is switched off in the branches
that are not being read. -/
theorem modules_closeModule {d : Draft} (hd : s.draft = some d) :
    ∃ properties, (s.disabled quoted).draft = some { d with properties } ∧
      (s.closeModule quoted moduleType).file.modules =
        s.file.modules ++ [⟨moduleType, properties, d.line, s.line⟩] := by
  obtain ⟨e, he, hclose⟩ := closeModule_of_isSome quoted moduleType (by rw [hd]; rfl)
  have hkept : Kept s (s.disabled quoted) := kept_disabled quoted s
  have hheader := hkept.header
  unfold header at hheader
  rw [he, hd, Option.map_some, Option.map_some, Option.some.injEq, Prod.mk.injEq] at hheader
  obtain ⟨hline, hopened⟩ := hheader
  refine ⟨e.properties, ?_, ?_⟩
  · rw [he, ← hline, ← hopened]
  · rw [hclose, modules_define_module, hkept.line, hline]
    exact congrArg (· ++ _) hkept.modules

/-! ## Other statements -/

/-- **What a statement that is no event does.** -/
structure Idle (st : Statement) (s t : State) : Prop where
  header : t.header = s.header
  modules : t.file.modules = s.file.modules
  unclosed : t.unclosedCount = s.unclosedCount + if mimics st.content then 1 else 0
  draft : t.draft = s.draft ∨ ∃ a, st.content = .assignment a

theorem Kept.idle (h : Kept s t) (hm : mimics st.content = false)
    (hd : t.draft = s.draft ∨ ∃ a, st.content = .assignment a) : Idle st s t := by
  refine ⟨h.header, h.modules, ?_, hd⟩
  rw [h.unclosed, hm]
  rfl

theorem SameButPile.kept (h : SameButPile quoted s t) : t.draft = s.draft ∧
    t.file.modules = s.file.modules ∧ t.unclosedCount = s.unclosedCount := by
  obtain ⟨u, hu, he⟩ := h
  rw [he]
  rcases hu with rfl | ⟨problem, hproblem, rfl⟩
  · exact ⟨rfl, rfl, rfl⟩
  · have hne : problem ≠ .neverClosed := by
      rintro rfl
      simp at hproblem
    exact ⟨rfl, rfl, (kept_diagnose s quoted hne).unclosed⟩

theorem SameButPile.idle (h : SameButPile quoted s t) (hm : mimics st.content = false) :
    Idle st s t := by
  obtain ⟨hdraft, hmodules, hunclosed⟩ := h.kept
  refine ⟨congrArg (Option.map _) hdraft, hmodules, ?_, Or.inl hdraft⟩
  rw [hunclosed, hm]
  rfl

theorem Idle.of_moveTo {lines : Span} (h : Idle st (s.moveTo lines) t) : Idle st s t :=
  ⟨h.header, h.modules, h.unclosed, h.draft⟩

theorem mimics_eq_false (h : ∀ text, st.content ≠ .comment text) : mimics st.content = false := by
  unfold mimics
  split
  · next text hc => exact absurd hc (h text)
  · rfl

/-- **A statement that is no event is idle.** -/
theorem idle_step (h : ModuleEvent.of? s.scope st.content = none) :
    Idle st s (s.step options source st) := by
  by_cases hcomment : ∃ text, st.content = .comment text
  · obtain ⟨text, hc⟩ := hcomment
    have hstep : s.step options source st = (s.moveTo st.lines).comment (copied text) := by
      unfold step
      rw [hc]
      rfl
    rw [hstep]
    refine ⟨rfl, rfl, ?_, Or.inl rfl⟩
    rw [unclosedCount_comment, hc]
    rfl
  · have hm : mimics st.content = false := mimics_eq_false fun text hc => hcomment ⟨text, hc⟩
    have hcase := stepCase options source s st
    generalize s.step options source st = t at hcase
    apply Idle.of_moveTo
    cases hcase with
    | copies text hc => exact absurd ⟨text, hc⟩ hcomment
    | assigns a t hc ht => exact Kept.idle ht.kept hm (Or.inr ⟨a, hc⟩)
    | opens ho =>
      rw [ho] at h
      cases h
    | builds moduleType hb =>
      rw [hb] at h
      cases h
    | begins holds condition => exact (sameButPile_beginConditional holds condition).idle hm
    | turns => exact sameButPile_otherBranch.idle hm
    | ends => exact sameButPile_endConditional.idle hm
    | unsupported problem hn hproblem =>
      refine (kept_diagnose (s.moveTo st.lines) (st.quote source) ?_).idle hm (Or.inl rfl)
      rintro rfl
      simp at hproblem

end State

end MakeBlueprint.Conversion
