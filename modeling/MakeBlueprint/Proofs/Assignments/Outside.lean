import MakeBlueprint.Proofs.Coercion.Directories
import MakeBlueprint.Proofs.Conversion.Modules

/-!
# Assignments outside of modules

Where no module is open, an assignment to a module variable can only be reported. It is, unless it
writes no property at all: an empty list of include directories is none, and host systems are only
written where a module is not switched on and off as it is anyway. Such assignments are silent
outside of modules as they are inside.

* `AsksNothing`, `writes_eq_nil_iff`: the assignments that write nothing.
* `HasPlace`: an assignment that conditionals have nothing against.
* `reportAll`: several reports on one statement.
* `assignOrReport_outside`, `assignment_outside`: what an assignment does where no module is open.
* `reported_outside`: it reports at least one problem, unless it writes nothing and has its place.
-/

namespace MakeBlueprint.Conversion

open Blueprint (Path Value)
open Makefile (Assignment Phrase Scope Statement)

/-! ## Assignments that write nothing -/

section Writes

variable {scope : Scope} {name : Text} {path : Path} {body : Phrase.Body}
  {append : Bool} {value own others : Value}

/-- The variables for include directories. -/
def directoryVariables : List Text := ["LOCAL_C_INCLUDES", "LOCAL_EXPORT_C_INCLUDE_DIRS"]

/-- **An assignment asks for no property**: it gives no include directory, or the host systems that
a module is for without it. -/
inductive AsksNothing (scope : Scope) (name : Text) (body : Phrase.Body) : Prop
  | directories (hname : name ∈ directoryVariables) (hwords : words body = [])
  | hostSystems (items : List Value) (hname : name = hostOsName)
      (hitems : coerceList scope body = .ok (.list items))
      (hwindows : State.lists items "windows" = false) (hlinux : State.lists items "linux" = true)
      (hdarwin : State.lists items "darwin" = true)

/-- The variables for include directories are the two that are taken apart. -/
theorem mem_directoryVariables_iff :
    name ∈ directoryVariables ↔ Meaning.ofName name = .special .localIncludeDirs ∨
      Meaning.ofName name = .special .exportIncludeDirs := by
  constructor
  · have hrows : ∀ name ∈ directoryVariables, (name, Special.localIncludeDirs) ∈ specialVariables ∨
        (name, Special.exportIncludeDirs) ∈ specialVariables := by decide
    intro hname
    exact (hrows name hname).imp (ofName_of_mem_specialVariables _)
      (ofName_of_mem_specialVariables _)
  · have hrows : ∀ row ∈ specialVariables,
        row.2 = .localIncludeDirs ∨ row.2 = .exportIncludeDirs → row.1 ∈ directoryVariables := by
      decide
    rintro (h | h)
    · exact hrows _ (mem_of_ofName_special h) (.inl rfl)
    · exact hrows _ (mem_of_ofName_special h) (.inr rfl)

theorem listWrites_eq_nil_iff :
    listWrites path name value append = [] ↔ isEmptyList value = true := by
  unfold listWrites
  split
  · next h => exact ⟨fun _ => h, fun _ => rfl⟩
  · next h => exact ⟨nofun, fun he => absurd he h⟩

/-- What comes apart into nothing is nothing. -/
theorem Parts.content_eq_nil (h : Parts value own others) (hown : own.content = [])
    (hothers : others.content = []) : value.content = [] := by
  obtain ⟨paths, hapart, hpaths⟩ := exists_comesApart value.content
  rw [← h.ownContent, hown] at hpaths
  rw [← h.othersContent, hothers, List.map_eq_nil_iff.mp hpaths.symm] at hapart
  generalize value.content = pieces at hapart
  cases hapart
  rfl

theorem words_eq_nil_of_content (h : coerceList scope body = .ok value)
    (hcontent : value.content = []) : words body = [] := by
  obtain ⟨fields, hfields, hsum⟩ := bind_eq_ok h
  rw [content_of_fields hfields hsum] at hcontent
  have hunits : fields.map (fun _ => ()) = (words body).map (fun _ => ()) :=
    map_of_mapM_eq_ok hfields fun _ _ _ _ => rfl
  rw [List.map_eq_nil_iff.mp hcontent] at hunits
  exact List.map_eq_nil_iff.mp hunits.symm

theorem coerceList_of_words_eq_nil (h : words body = []) :
    coerceList scope body = .ok (.list []) := by
  unfold coerceList
  rw [h]
  rfl

/-- **Both parts of the directories are empty** exactly if there are no words. -/
theorem isEmptyList_parts_iff (h : coerceList scope body = .ok value)
    (hparts : partition value = .ok (own, others)) :
    isEmptyList own = true ∧ isEmptyList others = true ↔ words body = [] := by
  constructor
  · rintro ⟨hown, hothers⟩
    exact words_eq_nil_of_content h ((parts_of_partition (has_coerceList h) hparts).content_eq_nil
      (content_of_isEmptyList hown) (content_of_isEmptyList hothers))
  · intro hwords
    have hempty := h.symm.trans (coerceList_of_words_eq_nil hwords)
    cases hempty
    cases hparts
    exact ⟨rfl, rfl⟩

theorem hostWrites_eq_nil_iff {items : List Value} :
    hostWrites items = [] ↔ State.lists items "windows" = false ∧
      State.lists items "linux" = true ∧ State.lists items "darwin" = true := by
  unfold hostWrites
  cases State.lists items "windows" <;> cases State.lists items "linux" <;>
    cases State.lists items "darwin" <;> simp

theorem directoryWrites_eq_nil_iff {ownName othersName : Text} {append' : Bool} :
    directoryWrites path ownName othersName own others append append' = [] ↔
      isEmptyList own = true ∧ isEmptyList others = true :=
  List.append_eq_nil_iff.trans (and_congr listWrites_eq_nil_iff listWrites_eq_nil_iff)

/-- **An assignment writes nothing** exactly if it asks for no property. -/
theorem writes_eq_nil_iff (hkept : Meaning.ofName name ≠ .dropped) :
    writes scope name path body append = .ok [] ↔ AsksNothing scope name body := by
  constructor
  · intro h
    generalize hnil : ([] : List Write) = ws at h
    cases writesCase_of_writes h with
    | dropped hm => exact absurd hm hkept
    | armMode | property | stem => cases hnil
    | localIncludeDirs value own others hm hvalue hparts =>
      exact .directories (mem_directoryVariables_iff.mpr (.inl hm))
        ((isEmptyList_parts_iff hvalue hparts).mp (directoryWrites_eq_nil_iff.mp hnil.symm))
    | exportIncludeDirs value own others hm hvalue hparts =>
      exact .directories (mem_directoryVariables_iff.mpr (.inr hm))
        ((isEmptyList_parts_iff hvalue hparts).mp (directoryWrites_eq_nil_iff.mp hnil.symm))
    | hostOs items hm hvalue =>
      obtain ⟨hwindows, hlinux, hdarwin⟩ := hostWrites_eq_nil_iff.mp hnil.symm
      exact .hostSystems items (eq_of_ofName_hostOs hm) hvalue hwindows hlinux hdarwin
  · rintro (⟨hname, hwords⟩ | ⟨items, hname, hitems, hwindows, hlinux, hdarwin⟩)
    · have hvalue : coerceList scope body = .ok (.list []) := coerceList_of_words_eq_nil hwords
      rcases mem_directoryVariables_iff.mp hname with hm | hm
      · exact writes_eq_ok_iff.mpr (.localIncludeDirs _ (.list []) (.list []) hm hvalue rfl)
      · exact writes_eq_ok_iff.mpr (.exportIncludeDirs _ (.list []) (.list []) hm hvalue rfl)
    · have hm : Meaning.ofName name = .special .hostOs := by rw [hname, ofName_hostOsName]
      rw [← hostWrites_eq_nil_iff.mpr ⟨hwindows, hlinux, hdarwin⟩]
      exact writes_eq_ok_iff.mpr (.hostOs items hm hitems)

/-- What asks for nothing has a name of the vocabulary, without white characters. -/
theorem AsksNothing.white_eq_false (h : AsksNothing scope name body) :
    name.any Text.isWhite = false := by
  cases h with
  | directories hname =>
    have hnames : ∀ name ∈ directoryVariables, name.any Text.isWhite = false := by decide
    exact hnames name hname
  | hostSystems items hname =>
    rw [hname]
    decide

end Writes

namespace State

variable {s : State} {quoted name written : Text} {options : Options} {source : Text}
  {a : Assignment} {st : Statement} {place : Option Path}

/-! ## Reports -/

/-- Reports several problems with one statement. -/
def reportAll (quoted : Text) (s : State) (problems : List Problem) : State :=
  problems.foldl (fun s problem => s.diagnose quoted problem) s

theorem comments_reportAll (quoted : Text) (s : State) (problems : List Problem) :
    (s.reportAll quoted problems).file.comments =
      s.file.comments ++ problems.map fun problem => ⟨problem.report quoted, s.line⟩ := by
  unfold reportAll
  induction problems generalizing s with
  | nil => exact (List.append_nil _).symm
  | cons problem problems ih =>
    rw [List.foldl_cons, ih, List.map_cons]
    exact List.append_assoc _ [_] _

theorem line_reportAll (quoted : Text) (s : State) (problems : List Problem) :
    (s.reportAll quoted problems).line = s.line := by
  unfold reportAll
  induction problems generalizing s with
  | nil => rfl
  | cons problem problems ih => exact ih (s.diagnose quoted problem)

/-! ## Assignments where no module is open -/

/-- **Conditionals have nothing against an assignment**: properties are put under none, or the
assignment has no suffix and the branch can be expressed. -/
def HasPlace (s : State) (written : Text) : Prop :=
  ∀ c, s.conditional? = some c → (splitSuffix written).2 = none ∧ c.path.isSome = true

theorem assignOrReport_of_error {cause : Refusal}
    (h : s.assign name (place.getD []) a.value.body (a.op == .append) = .error cause) :
    s.assignOrReport quoted name place a = s.reportAll quoted [.refused cause] := by
  rw [assignOrReport, h]
  rfl

/-- A value that is handed on is reported, unless it asks for nothing. -/
theorem assignOrReport_outside (quoted : Text) (place : Option Path) (a : Assignment)
    (hd : s.draft = none) (hlocal : isLocalName name = true)
    (hkept : Meaning.ofName name ≠ .dropped) :
    ∃ problems, s.assignOrReport quoted name place a = s.reportAll quoted problems ∧
      (problems = [] ↔ AsksNothing s.scope name a.value.body) := by
  have hassign : s.assign name (place.getD []) a.value.body (a.op == .append) = _ :=
    assign_eq_writes (ofName_ne_global hlocal)
  have hiff : writes s.scope name (place.getD []) a.value.body (a.op == .append) = .ok [] ↔
      AsksNothing s.scope name a.value.body := writes_eq_nil_iff hkept
  rw [← hiff]
  cases hws : writes s.scope name (place.getD []) a.value.body (a.op == .append) with
  | error cause =>
    rw [hws] at hassign
    refine ⟨[.refused cause], assignOrReport_of_error hassign, ?_⟩
    exact iff_of_false (List.cons_ne_nil _ _) (fun h => by cases h)
  | ok ws =>
    rw [hws] at hassign
    cases ws with
    | nil =>
      refine ⟨[], ?_, iff_of_true rfl rfl⟩
      rw [assignOrReport, hassign]
      rfl
    | cons w ws =>
      have hrefused : (w :: ws).foldlM State.write s =
          .error (.outsideModule (Path.dotted (w.path ++ [w.name]))) := by
        rw [List.foldlM_cons, write, setProperty, hd]
        rfl
      refine ⟨[.refused _], assignOrReport_of_error (hassign.trans hrefused), ?_⟩
      exact iff_of_false (List.cons_ne_nil _ _) (fun h => by cases h)

theorem isLocalName_of_baseName (h : isLocalName (baseName written) = true) :
    isLocalName written = true := by
  have hfront : baseName written <+: written := baseName_prefix written
  exact List.isPrefixOf_iff_prefix.mpr ((List.isPrefixOf_iff_prefix.mp h).trans hfront)

/-- Suffixes have no white characters. -/
theorem any_isWhite_baseName (written : Text) :
    (baseName written).any Text.isWhite = written.any Text.isWhite := by
  have hsuffixes : ∀ row ∈ suffixes, ('_' :: row.1).any Text.isWhite = false := by decide
  unfold baseName
  split
  · cases hsuffix : (splitSuffix written).2 with
    | none => rw [splitSuffix_of_none hsuffix]
    | some path =>
      have hsplit : splitSuffix written = ((splitSuffix written).1, some path) := by rw [← hsuffix]
      obtain ⟨ending, hmem, happend⟩ := append_of_splitSuffix hsplit
      conv_rhs => rw [← happend, List.any_append, hsuffixes _ hmem, Bool.or_false]
  · rfl

/-- **Where no module is open, an assignment to a module variable only reports**, and that at least
once, unless it asks for nothing and has its place. -/
theorem assignment_outside (quoted : Text) (hd : s.draft = none) (htarget : a.target = none)
    (hwritten : a.name.constant? = some written) (hlocal : isLocalName (baseName written) = true)
    (hkept : Meaning.ofName (baseName written) ≠ .dropped) :
    ∃ problems, s.assignment quoted a = s.reportAll quoted problems ∧
      (problems = [] ↔
        AsksNothing s.scope (baseName written) a.value.body ∧ s.HasPlace written) := by
  cases hwhite : written.any Text.isWhite with
  | true =>
    rw [assignment_of_white htarget hwritten hwhite]
    refine ⟨[.spacedVariable], rfl, iff_of_false (List.cons_ne_nil _ _) ?_⟩
    rintro ⟨hasks, -⟩
    have hno := hasks.white_eq_false
    rw [any_isWhite_baseName, hwhite] at hno
    cases hno
  | false =>
    rw [assignment_of_isLocalName htarget hwritten hwhite (isLocalName_of_baseName hlocal)]
    unfold assignLocated
    rw [if_pos hlocal]
    cases hc : s.conditional? with
    | none =>
      obtain ⟨problems, hreports, hiff⟩ :=
        assignOrReport_outside quoted (splitSuffix written).2 a hd hlocal hkept
      have hplace : s.HasPlace written := fun c hsome => by
        rw [hc] at hsome
        cases hsome
      exact ⟨problems, hreports, hiff.trans (and_iff_left hplace).symm⟩
    | some c =>
      cases hsuffix : (splitSuffix written).2 with
      | some path =>
        -- The suffix is reported in any case, so there is no need to know what comes behind it.
        obtain ⟨problems, hreports, -⟩ := assignOrReport_outside quoted (some path) a
          (s := s.diagnose quoted .suffixInConditional) hd hlocal hkept
        refine ⟨.suffixInConditional :: problems, hreports, iff_of_false (List.cons_ne_nil _ _) ?_⟩
        rintro ⟨-, hplace⟩
        have hnone := (hplace c hc).1
        rw [hsuffix] at hnone
        cases hnone
      | none =>
        cases hpath : c.path with
        | some path =>
          obtain ⟨problems, hreports, hiff⟩ :=
            assignOrReport_outside quoted (some path) a hd hlocal hkept
          have hplace : s.HasPlace written := by
            intro e he
            rw [hc] at he
            cases he
            exact ⟨hsuffix, by rw [hpath]; rfl⟩
          refine ⟨problems, ?_, hiff.trans (and_iff_left hplace).symm⟩
          rw [← hreports]
          simp only [hpath]
        | none =>
          refine ⟨[.unsupportedBranch], ?_, iff_of_false (List.cons_ne_nil _ _) ?_⟩
          · simp only [hpath]
            rfl
          · rintro ⟨-, hplace⟩
            have hsome := (hplace c hc).2
            rw [hpath] at hsome
            cases hsome

/-- **Nothing but what asks for nothing is silent outside of modules.** Where no module is open, an
assignment to a module variable that is not left out only reports problems, which all quote it. It
reports none exactly if it asks for no property and conditionals have nothing against it. -/
theorem reported_outside (options : Options) (source : Text) (hd : s.draft = none)
    (ha : st.content = .assignment a) (htarget : a.target = none)
    (hwritten : a.name.constant? = some written) (hlocal : isLocalName (baseName written) = true)
    (hkept : baseName written ∉ ignoredVariables ++ deletedVariables) :
    ∃ problems : List Problem,
      s.step options source st = (s.moveTo st.lines).reportAll (st.quote source) problems ∧
      (s.step options source st).file.comments = s.file.comments ++ problems.map (fun problem =>
        ⟨problem.report (st.quote source), (s.step options source st).line⟩) ∧
      (problems = [] ↔
        AsksNothing s.scope (baseName written) a.value.body ∧ s.HasPlace written) := by
  have hmoved : (s.moveTo st.lines).draft = none := hd
  obtain ⟨problems, hreports, hiff⟩ :=
    assignment_outside (st.quote source) hmoved htarget hwritten hlocal (ofName_ne_dropped hkept)
  have hstep : s.step options source st =
      (s.moveTo st.lines).reportAll (st.quote source) problems :=
    (step_of_assignment ha).trans hreports
  refine ⟨problems, hstep, ?_, hiff⟩
  rw [hstep, comments_reportAll, line_reportAll]
  rfl

/-- The name of a module asks for a property, so it is reported. -/
theorem reported_outside_naming :
    start.draft = none ∧ ∃ problems : List Problem, problems ≠ [] ∧
      (start.step {} [] (aside (.assignment naming))).file.comments =
        problems.map fun problem => ⟨problem.report [], 1⟩ := by
  have hd : start.draft = none := rfl
  have ha : (aside (.assignment naming)).content = .assignment naming := rfl
  have hwritten : naming.name.constant? = some moduleName := rfl
  obtain ⟨problems, -, hcomments, hiff⟩ :=
    reported_outside {} [] hd ha rfl hwritten (by decide) (by decide)
  refine ⟨hd, problems, fun hnil => ?_, hcomments⟩
  obtain ⟨hname, -⟩ | ⟨items, hname, -, -, -⟩ := (hiff.mp hnil).1
  · exact absurd hname (by decide)
  · exact absurd hname (by decide)

/-- Assignments that ask for nothing. -/
def askingNothing : List (Text × Text) :=
  [("LOCAL_C_INCLUDES", []), ("LOCAL_EXPORT_C_INCLUDE_DIRS", []), (hostOsName, "linux darwin")]

/-- **What asks for nothing is silent outside of modules**, although it assigns to a module variable
that is not left out. -/
theorem not_reported_outside :
    start.draft = none ∧ ∀ row ∈ askingNothing, isLocalName (baseName row.1) = true ∧
      baseName row.1 ∉ ignoredVariables ++ deletedVariables ∧
      (start.step {} [] (aside (.assignment (setting row.1 row.2)))).file.comments = [] :=
  ⟨rfl, by decide +kernel⟩

end State

end MakeBlueprint.Conversion
