import MakeBlueprint.Conversion.Run
import MakeBlueprint.Proofs.Conversion.Writes

/-!
# What one statement can do

Every theorem about runs rests on what one step does. It is said here case by case, with what the
step depends on, so that no later file has to open `State.step` again.

* `ModuleEvent.of?`: the includes that begin and build modules, told by what their argument
  evaluates to.
* `assignmentRoute`: the way of an assignment to the place where its value is written.
* `assignmentCase`: an assignment is skipped, refused, a sequence of property writes, or a variable
  of the file.
* `stepCase`: the cases of all statements.
* `run_keeps`: what every step keeps, a run keeps.
-/

namespace MakeBlueprint.Conversion

open Blueprint (Kind Path Property Value)
open Makefile (Assignment Content Keyword Phrase Scope Statement)

/-! ## Module events -/

/-- What an include does to modules. -/
inductive ModuleEvent where
  /-- A module is begun. -/
  | opens
  /-- The module that is being collected is built. -/
  | builds (moduleType : Text)
  deriving DecidableEq, Repr

/-- Whether a keyword is one of the three includes. -/
def isInclude (k : Keyword) : Bool :=
  k == .includeFile || k == .includeOptional || k == .includeSilent

namespace ModuleEvent

/-- The event of an include, told by the file that it names. -/
def ofTarget? (target : Text) : Option ModuleEvent :=
  if target = clearMark then some .opens
  else if isModuleType target then some (.builds target)
  else none

/-- **The event of a statement in a scope.** -/
def of? (scope : Scope) : Content → Option ModuleEvent
  | .directive d =>
    if isInclude d.keyword then ofTarget? (Text.trim (d.arguments.value scope)) else none
  | _ => none

end ModuleEvent

/-- The lines of a comment that is copied from a makefile. -/
def copied (text : Text) : List Text :=
  (Text.split (· == '\n') text).map fun line => ['/', '/'] ++ line

namespace State

variable {s t : State} {name : Text} {path : Path} {body : Phrase.Body} {append : Bool}
  {value : Value}

/-! ## Writes -/

/-- A property is written into the module that is being collected, and nothing else changes. -/
theorem setProperty_eq_ok (h : s.setProperty path name value append = .ok t) :
    ∃ d properties, s.draft = some d ∧
      Property.update s.line .notAMap name (changed append value) path d.properties =
        .ok properties ∧
      t = { s with draft := some { d with properties } } := by
  unfold setProperty at h
  split at h
  · cases h
  · next d hd =>
    obtain ⟨properties, hp, rfl⟩ := Property.map_eq_ok h
    exact ⟨d, properties, hd, hp, rfl⟩

/-- The line and the text with which the open module was begun. -/
def header (s : State) : Option (Nat × Text) := s.draft.map fun d => (d.line, d.openedBy)

theorem isSome_draft_of_header (h : t.header = s.header) : t.draft.isSome = s.draft.isSome := by
  have hm := congrArg Option.isSome h
  unfold header at hm
  rwa [Option.isSome_map, Option.isSome_map] at hm

/-- `t` is `s` up to the properties of the open module. -/
structure SameButProperties (s t : State) : Prop where
  rest : t = { s with draft := t.draft }
  header : t.header = s.header

theorem SameButProperties.refl (s : State) : SameButProperties s s := ⟨rfl, rfl⟩

theorem SameButProperties.trans {u : State} (h : SameButProperties s t)
    (h' : SameButProperties t u) : SameButProperties s u := by
  refine ⟨?_, h'.header.trans h.header⟩
  rw [h'.rest, h.rest]

theorem sameButProperties_of_setProperty (h : s.setProperty path name value append = .ok t) :
    SameButProperties s t := by
  obtain ⟨d, properties, hd, -, rfl⟩ := setProperty_eq_ok h
  refine ⟨rfl, ?_⟩
  unfold State.header
  rw [hd]
  rfl

theorem sameButProperties_of_writes {ws : List Write} (h : ws.foldlM State.write s = .ok t) :
    SameButProperties s t :=
  foldlM_keeps (P := SameButProperties s)
    (fun _ _ _ _ hb hw => hb.trans (sameButProperties_of_setProperty hw)) (.refl s) h

/-- The kind that a variable of the file is added to, if it is known and is added to. -/
def knownKind (s : State) (name : Text) (append : Bool) : Option Kind :=
  if append then s.globals.lookup name else none

/-- A variable of the file is recorded and defined, and nothing else changes. -/
theorem setGlobal_eq_ok (h : s.setGlobal name value append = .ok t) :
    ∃ total, changed true value ((s.knownKind name append).map fun k => Value.var name k) =
        .ok total ∧
      t = { s with globals := (name, total.kind) :: s.globals }.define
        (.assignment ⟨name, value, if (s.knownKind name append).isSome then .append else .set,
          s.line⟩) := by
  obtain ⟨total, ht, rfl⟩ := Property.map_eq_ok h
  refine ⟨total, ht, ?_⟩
  rw [Option.isSome_map]
  rfl

/-! ## Assignments -/

/-- The paths that an assignment can be put under: none, that of a suffix, or that of the branch of
the conditional. -/
def places (s : State) : List Path :=
  [] :: suffixes.map Prod.snd ++ (s.conditional?.bind Conditional.path).toList

/-- **What an assignment can do.** -/
inductive AssignmentCase (s : State) (quoted : Text) (a : Assignment) : State → Prop
  /-- The variable cannot be assigned, and nothing is written. -/
  | skipped (problem : Problem)
      (hproblem : problem ∈ [.targetAssignment, .computedVariable, .spacedVariable,
        .unsupportedBranch]) :
      AssignmentCase s quoted a (s.diagnose quoted problem)
  /-- Properties of the open module are written. -/
  | written (before t : State) (name : Text) (path : Path) (ws : List Write)
      (hbefore : before = s ∨ before = s.diagnose quoted .suffixInConditional)
      (hpath : path ∈ s.places)
      (hws : writes s.scope name path a.value.body (a.op == .append) = .ok ws)
      (hwrite : ws.foldlM State.write before = .ok t) : AssignmentCase s quoted a t
  /-- A variable of the file is written. -/
  | global (before t : State) (name evaluated : Text) (list : Value)
      (hbefore : before = s ∨ before = s.diagnose quoted .suffixInConditional)
      (hlist : coerceList s.scope a.value.body = .ok list)
      (hset : before.setGlobal name list (a.op == .append) = .ok t) :
      AssignmentCase s quoted a { t with scope := t.scope.set name evaluated }
  /-- The value is refused, and nothing is written. -/
  | refused (before : State) (name : Text) (path : Path) (cause : Refusal)
      (hbefore : before = s ∨ before = s.diagnose quoted .suffixInConditional)
      (hpath : path ∈ s.places)
      (hcause : before.assign name path a.value.body (a.op == .append) = .error cause) :
      AssignmentCase s quoted a (before.diagnose quoted (.refused cause))

theorem assign_of_global (h : Meaning.ofName name = .global) :
    s.assign name path body append = s.assignGlobal name body append := by
  unfold assign
  rw [h]

variable {quoted : Text} {a : Assignment}

theorem assignmentCase_assignOrReport {before : State} {place : Option Path}
    (hbefore : before = s ∨ before = s.diagnose quoted .suffixInConditional)
    (hpath : place.getD [] ∈ s.places) :
    AssignmentCase s quoted a (before.assignOrReport quoted name place a) := by
  have hscope : before.scope = s.scope := by
    rcases hbefore with rfl | rfl <;> rfl
  unfold assignOrReport
  cases h : before.assign name (place.getD []) a.value.body (a.op == .append) with
  | error cause => exact .refused before name _ cause hbefore hpath h
  | ok t =>
    by_cases hg : Meaning.ofName name = .global
    · rw [assign_of_global hg] at h
      obtain ⟨list, hlist, h⟩ := bind_eq_ok h
      obtain ⟨u, hu, h⟩ := bind_eq_ok h
      cases h
      rw [hscope] at hlist
      exact .global before u name _ list hbefore hlist hu
    · rw [assign_eq_writes hg, hscope] at h
      obtain ⟨ws, hws, hw⟩ := bind_eq_ok h
      exact .written before t name _ ws hbefore hpath hws hw

theorem mem_suffixes_of_splitSuffix (h : (splitSuffix name).2 = some path) :
    path ∈ suffixes.map Prod.snd := by
  have hsplit : splitSuffix name = ((splitSuffix name).1, some path) := by
    rw [← h]
  obtain ⟨t, ht, -⟩ := append_of_splitSuffix hsplit
  exact List.mem_map.mpr ⟨(t, path), ht, rfl⟩

theorem splitSuffix_of_none (h : (splitSuffix name).2 = none) :
    splitSuffix name = (name, none) := by
  unfold splitSuffix at h ⊢
  split
  · next base path hfound =>
    rw [hfound] at h
    cases h
  · rfl

/-- The name under which a variable is handed on: that of a module variable loses its suffix. -/
def baseName (written : Text) : Text :=
  if isLocalName written then (splitSuffix written).1 else written

theorem baseName_prefix (written : Text) : baseName written <+: written := by
  unfold baseName
  split
  · cases hsuffix : (splitSuffix written).2 with
    | none =>
      have hsame : (splitSuffix written).1 = written :=
        congrArg Prod.fst (splitSuffix_of_none hsuffix)
      exact ⟨[], by rw [List.append_nil, hsame]⟩
    | some path =>
      have hsplit : splitSuffix written = ((splitSuffix written).1, some path) := by
        rw [← hsuffix]
      obtain ⟨ending, -, happend⟩ := append_of_splitSuffix hsplit
      exact ⟨_, happend⟩
  · exact List.prefix_refl written

/-- **The way of an assignment** to the place where its value is written. -/
inductive AssignmentRoute (s : State) (quoted : Text) (a : Assignment) : State → Prop
  /-- The variable cannot be assigned. -/
  | skipped (problem : Problem)
      (hproblem : problem ∈ [.targetAssignment, .computedVariable, .spacedVariable,
        .unsupportedBranch]) :
      AssignmentRoute s quoted a (s.diagnose quoted problem)
  /-- The value is handed on under a literal name without white characters in it. -/
  | handed (before : State) (written : Text) (place : Option Path)
      (hbefore : before = s ∨ before = s.diagnose quoted .suffixInConditional)
      (htarget : a.target = none) (hwritten : a.name.constant? = some written)
      (hspace : written.any Text.isWhite = false) (hplace : place.getD [] ∈ s.places) :
      AssignmentRoute s quoted a (before.assignOrReport quoted (baseName written) place a)

theorem assignmentRoute_assignLocated {written : Text} {suffix : Option Path}
    (hname : name = baseName written) (htarget : a.target = none)
    (hwritten : a.name.constant? = some written) (hspace : written.any Text.isWhite = false)
    (hsuffix : ∀ p, suffix = some p → p ∈ suffixes.map Prod.snd) :
    AssignmentRoute s quoted a (s.assignLocated quoted name suffix a) := by
  subst hname
  have hplace : suffix.getD [] ∈ s.places := by
    cases suffix with
    | none => exact List.mem_cons_self
    | some p => exact List.mem_cons_of_mem _ (List.mem_append_left _ (hsuffix p rfl))
  unfold assignLocated
  split
  · exact .handed _ written _ (.inl rfl) htarget hwritten hspace hplace
  · exact .handed _ written _ (.inr rfl) htarget hwritten hspace hplace
  · next c hc =>
    have hc : s.conditional? = some c := by
      split at hc
      · exact hc
      · cases hc
    split
    · next p hp =>
      refine .handed _ written _ (.inl rfl) htarget hwritten hspace ?_
      apply List.mem_cons_of_mem
      apply List.mem_append_right
      rw [hc, Option.bind_some, hp]
      exact List.mem_singleton_self p
    · exact .skipped _ (by simp)

/-- **The ways of an assignment.** -/
theorem assignmentRoute (s : State) (quoted : Text) (a : Assignment) :
    AssignmentRoute s quoted a (s.assignment quoted a) := by
  unfold assignment
  split
  · exact .skipped _ (by simp)
  · next ht =>
    have htarget : a.target = none := Option.not_isSome_iff_eq_none.mp ht
    split
    · exact .skipped _ (by simp)
    · next written hwritten =>
      split
      · exact .skipped _ (by simp)
      · next hs =>
        have hspace : written.any Text.isWhite = false := Bool.eq_false_iff.mpr hs
        split
        · next hl =>
          exact assignmentRoute_assignLocated (if_pos hl).symm htarget hwritten hspace
            fun p hp => mem_suffixes_of_splitSuffix hp
        · next hl =>
          exact assignmentRoute_assignLocated (if_neg hl).symm htarget hwritten hspace
            fun p hp => by cases hp

/-- A name with white characters in it is reported. -/
theorem assignment_of_white {written : Text} (htarget : a.target = none)
    (hwritten : a.name.constant? = some written) (hwhite : written.any Text.isWhite = true) :
    s.assignment quoted a = s.diagnose quoted .spacedVariable := by
  have hall : ¬ a.target.isSome = true := by simp [htarget]
  unfold assignment
  rw [if_neg hall, hwritten]
  exact if_pos hwhite

/-- The name of a module variable loses its suffix, which is handed on beside it. -/
theorem assignment_of_isLocalName {written : Text} (htarget : a.target = none)
    (hwritten : a.name.constant? = some written) (hspace : written.any Text.isWhite = false)
    (hlocal : isLocalName written = true) :
    s.assignment quoted a =
      s.assignLocated quoted (baseName written) (splitSuffix written).2 a := by
  have hall : ¬ a.target.isSome = true := by simp [htarget]
  have hliteral : ¬ written.any Text.isWhite = true := by simp [hspace]
  unfold assignment baseName
  rw [if_neg hall, hwritten, if_pos hlocal]
  simp only
  rw [if_neg hliteral, if_pos hlocal]

/-- **The cases of an assignment.** -/
theorem assignmentCase (s : State) (quoted : Text) (a : Assignment) :
    AssignmentCase s quoted a (s.assignment quoted a) := by
  have hroute := assignmentRoute s quoted a
  generalize s.assignment quoted a = t at hroute
  cases hroute with
  | skipped problem hproblem => exact .skipped problem hproblem
  | handed before written place hbefore htarget hwritten hspace hplace =>
    exact assignmentCase_assignOrReport hbefore hplace

/-! ## Statements -/

variable {options : Options} {source : Text} {st : Statement}

/-- **What a statement can do** to the state that has moved to its lines. -/
inductive StepCase (options : Options) (source : Text) (s : State) (st : Statement) :
    State → Prop
  | copies (text : Text) (h : st.content = .comment text) :
      StepCase options source s st ((s.moveTo st.lines).comment (copied text))
  | assigns (a : Assignment) (t : State) (h : st.content = .assignment a)
      (ht : AssignmentCase (s.moveTo st.lines) (st.quote source) a t) :
      StepCase options source s st t
  | opens (h : ModuleEvent.of? s.scope st.content = some .opens) :
      StepCase options source s st ((s.moveTo st.lines).openModule options (st.quote source))
  | builds (moduleType : Text)
      (h : ModuleEvent.of? s.scope st.content = some (.builds moduleType)) :
      StepCase options source s st ((s.moveTo st.lines).closeModule (st.quote source) moduleType)
  | begins (holds : Bool) (condition : Text) (h : ModuleEvent.of? s.scope st.content = none) :
      StepCase options source s st
        ((s.moveTo st.lines).beginConditional (st.quote source) holds condition)
  | turns (h : ModuleEvent.of? s.scope st.content = none) :
      StepCase options source s st ((s.moveTo st.lines).otherBranch (st.quote source))
  | ends (h : ModuleEvent.of? s.scope st.content = none) :
      StepCase options source s st ((s.moveTo st.lines).endConditional (st.quote source))
  | unsupported (problem : Problem) (h : ModuleEvent.of? s.scope st.content = none)
      (hproblem : problem ∈ [.unsupportedLine, .unsupportedDirective, .unsupportedInclude]) :
      StepCase options source s st ((s.moveTo st.lines).diagnose (st.quote source) problem)

theorem stepCase_include {d : Makefile.Directive} (h : st.content = .directive d)
    (hd : isInclude d.keyword = true) :
    StepCase options source s st
      ((s.moveTo st.lines).includeFile options (st.quote source) d.arguments) := by
  have hof : ModuleEvent.of? s.scope st.content =
      ModuleEvent.ofTarget? (Text.trim (d.arguments.value s.scope)) := by
    rw [h]
    exact if_pos hd
  have hscope : (s.moveTo st.lines).scope = s.scope := rfl
  unfold ModuleEvent.ofTarget? at hof
  unfold includeFile
  simp only [hscope]
  split
  · next ht => exact .opens (by rw [hof, if_pos ht])
  · next ht =>
    split
    · next hm => exact .builds _ (by rw [hof, if_neg ht, if_pos hm])
    · next hm => exact .unsupported _ (by rw [hof, if_neg ht, if_neg hm]) (by simp)

/-- **The cases of a statement.** -/
theorem stepCase (options : Options) (source : Text) (s : State) (st : Statement) :
    StepCase options source s st (s.step options source st) := by
  unfold step
  simp only
  split
  · next text h => exact .copies text h
  · next a h => exact .assigns a _ h (assignmentCase _ _ a)
  · next d h =>
    have hnone : isInclude d.keyword = false → ModuleEvent.of? s.scope st.content = none := by
      intro hk
      rw [h, ModuleEvent.of?, if_neg (by rw [hk]; exact Bool.false_ne_true)]
    unfold directive
    split
    · next hk => exact stepCase_include h (by rw [hk]; rfl)
    · next hk => exact stepCase_include h (by rw [hk]; rfl)
    · next hk => exact stepCase_include h (by rw [hk]; rfl)
    · next hk => exact .begins _ _ (hnone (by rw [hk]; rfl))
    · next hk => exact .begins _ _ (hnone (by rw [hk]; rfl))
    · next hk => exact .begins _ _ (hnone (by rw [hk]; rfl))
    · next hk => exact .begins _ _ (hnone (by rw [hk]; rfl))
    · next hk => exact .turns (hnone (by rw [hk]; rfl))
    · next hk => exact .ends (hnone (by rw [hk]; rfl))
    · next hk => exact .unsupported _ (hnone (by rw [hk]; rfl)) (by simp)
    · next hk => exact .unsupported _ (hnone (by rw [hk]; rfl)) (by simp)
  · next h => exact .unsupported _ (by rw [h]; rfl) (by simp)
  · next h => exact .unsupported _ (by rw [h]; rfl) (by simp)

theorem step_of_assignment (h : st.content = .assignment a) :
    s.step options source st = (s.moveTo st.lines).assignment (st.quote source) a := by
  unfold step
  rw [h]

/-! ## Runs -/

@[simp] theorem run_nil : s.run options source [] = s := rfl

@[simp] theorem run_cons (sts : List Statement) :
    s.run options source (st :: sts) = (s.step options source st).run options source sts := rfl

theorem run_append (sts rest : List Statement) :
    s.run options source (sts ++ rest) =
      (s.run options source sts).run options source rest :=
  List.foldl_append

/-- **What every step keeps, a run keeps.** -/
theorem run_keeps {P : State → Prop} {sts : List Statement}
    (hstep : ∀ s, ∀ st ∈ sts, P s → P (s.step options source st)) (hs : P s) :
    P (s.run options source sts) := by
  induction sts generalizing s with
  | nil => exact hs
  | cons st sts ih =>
    rw [run_cons]
    exact ih (fun u v hv => hstep u v (List.mem_cons_of_mem st hv))
      (hstep s st List.mem_cons_self hs)

/-- A state that a makefile can lead to. -/
def Reachable (options : Options) (source : Text) (s : State) : Prop :=
  ∃ sts, s = start.run options source sts

theorem Reachable.keeps {P : State → Prop} (h : Reachable options source s)
    (hstep : ∀ s st, P s → P (s.step options source st)) (hstart : P start) : P s := by
  obtain ⟨sts, rfl⟩ := h
  exact run_keeps (fun s st _ => hstep s st) hstart

end State

end MakeBlueprint.Conversion
