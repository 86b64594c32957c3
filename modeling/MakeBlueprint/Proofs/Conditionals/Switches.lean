import MakeBlueprint.Proofs.Conditionals.History
import MakeBlueprint.Proofs.Conversion.Trees
import MakeBlueprint.Proofs.Lifecycle.Run
import MakeBlueprint.Proofs.Typing.Conversion

/-!
# Where modules are switched off

A module that is built under conditionals is switched off in the branches that are not being read.
`switch path ps` is what the property that switches a module on and off says under a path.

* `find?_write_of_ne`: a typed write changes one property and no other. This is where trees have to
  be well typed: a path does not lead through a property.
* `switch_disabled`: switching a module off writes `false` under the paths of the branches that are
  not being read, whatever stood there, and changes no other switch.
* `Unswitched`: a module has no switch as long as no host system is named in it.
* `switch_of_builds`: so a module that is built is switched off under the paths that the history of
  directives tells (`Standing.untaken`), and nowhere else if no host system was named in it. The
  pile stays as it is.
-/

namespace MakeBlueprint.Conversion

open Blueprint (Kind Path Property Value)
open Blueprint.Property (find? find?_cons_cons find?_nil find?_update_of_disjoint
  find?_update_self)
open Makefile (Assignment Content Phrase Scope Statement)

/-! ## Lookups in typed trees -/

variable {path q r : Path} {name : Text} {kind : Kind} {ps qs : List Property}

/-- A map stands under a name that is no property, and its level is well typed. -/
theorem TypedAt.level_of_map {p : Property} {inner : List Property} (h : TypedAt q p)
    (hvalue : p.value = .map inner) :
    propertyKind? p.name = none ∧ TypedLevel (q ++ [p.name]) inner := by
  cases h with
  | leaf path name value line hpath hkind hv =>
    subst hvalue
    exact absurd rfl (kind_ne_map_of_propertyKind? hkind)
  | level path name inner line hpath hne hnodup hinner =>
    cases hvalue
    obtain ⟨place, hplace, hprefix⟩ := hpath
    refine ⟨?_, hnodup, hinner⟩
    apply propertyKind?_of_mem_path place hplace name
    exact hprefix.subset (List.mem_append_right _ (List.mem_singleton_self name))

/-- **No path leads through a property.** -/
theorem find?_behind_property (hps : TypedLevel q ps) (hmem : name ∈ r)
    (hkind : propertyKind? name = some kind) (last : Text) : find? (r ++ [last]) ps = none := by
  induction r generalizing q ps with
  | nil => exact absurd hmem List.not_mem_nil
  | cons level r ih =>
    obtain ⟨n, rest, hrest⟩ : ∃ n rest, r ++ [last] = n :: rest :=
      List.exists_cons_of_ne_nil (by simp)
    rw [List.cons_append, hrest, find?_cons_cons]
    split
    · next inner hinner =>
      obtain ⟨p, hp, hvalue⟩ := Option.map_eq_some_iff.mp hinner
      have hname : p.name = level := by simpa using List.find?_some hp
      obtain ⟨hnone, hlevel⟩ := (hps.typed p (List.mem_of_find?_eq_some hp)).level_of_map hvalue
      have htail : name ∈ r := by
        rcases List.mem_cons.mp hmem with rfl | htail
        · rw [hname, hkind] at hnone
          cases hnone
        · exact htail
      rw [← hrest]
      exact ih hlevel htail
    · rfl

namespace State

variable {s t : State} {w : Write} {sts : List Statement} {quoted : Text} {value : Value}
  {options : Options} {source : Text}

/-- What switches the open module on and off under a path. -/
def switch (path : Path) (ps : List Property) : Option Value :=
  (find? (path ++ [enabledName]) ps).map Property.value

theorem Sound.openProperties (h : Sound sts s) : TypedLevel [] s.openProperties := by
  unfold State.openProperties
  cases hd : s.draft with
  | none => exact typedLevel_nil []
  | some d => exact h.draft d hd

/-- **A typed write changes one property**, and no other. -/
theorem find?_write_of_ne (hs : Sound sts s) (hw : w.Typed) (ht : s.write w = .ok t)
    (hkind : propertyKind? name = some kind) (hne : path ++ [name] ≠ w.path ++ [w.name]) :
    find? (path ++ [name]) t.openProperties = find? (path ++ [name]) s.openProperties := by
  have htyped := (hs.write hw ht).openProperties
  obtain ⟨d, properties, hd, hupdate, rfl⟩ := setProperty_eq_ok ht
  have hold : s.openProperties = d.properties := openProperties_of_draft hd
  by_cases hbehind : w.path ++ [w.name] <+: path ++ [name]
  · -- The written property has no levels, before the write and after it.
    have hmem : w.name ∈ path := by
      rcases List.prefix_concat_iff.mp hbehind with he | hprefix
      · exact absurd he.symm hne
      · exact hprefix.subset (List.mem_append_right _ (List.mem_singleton_self _))
    rw [find?_behind_property htyped hmem hw.kind,
      find?_behind_property hs.openProperties hmem hw.kind]
  · have hbefore : ¬ path ++ [name] <+: w.path ++ [w.name] := by
      intro hprefix
      rcases List.prefix_concat_iff.mp hprefix with he | hprefix
      · exact hne he
      · have hmem := hprefix.subset (List.mem_append_right _ (List.mem_singleton_self name))
        rw [propertyKind?_of_mem_path w.path hw.place name hmem] at hkind
        cases hkind
    rw [hold]
    exact find?_update_of_disjoint hupdate hbefore hbehind

/-! ## Switching a module off -/

/-- Switching the open module off is never refused. -/
theorem exists_write_disabling (hs : Sound sts s) (hopen : s.draft.isSome = true)
    (hpath : path ∈ branchPaths) : ∃ t, s.write (disabling path) = .ok t := by
  have htyped : (disabling path).Typed := typed_disable hpath
  obtain ⟨d, hd⟩ := Option.isSome_iff_exists.mp hopen
  unfold State.write setProperty
  rw [hd]
  simp only
  cases hu : Property.update s.line .notAMap (disabling path).name
      (changed (disabling path).append (disabling path).value) (disabling path).path
      d.properties with
  | ok properties => exact ⟨_, rfl⟩
  | error cause =>
    rcases change_of_update_error (hs.draft d hd) htyped.place htyped.kind hu with
      ⟨old, -, hchange⟩ | hchange
    · cases hchange
    · cases hchange

/-- **Switching the open module off under a path** changes no other switch. -/
theorem switch_disable (hs : Sound sts s) (hopen : s.draft.isSome = true)
    (hpath : path ∈ branchPaths) (q : Path) :
    switch q (s.disable quoted path).openProperties =
      if q = path then some (.bool false) else switch q s.openProperties := by
  obtain ⟨t, ht⟩ := exists_write_disabling hs hopen hpath
  have hstep : s.disable quoted path = t := by
    have hset : s.setProperty path enabledName (.bool false) false = .ok t := ht
    unfold disable
    rw [hset]
  rw [hstep]
  by_cases hq : q = path
  · subst hq
    obtain ⟨d, properties, -, hupdate, rfl⟩ := setProperty_eq_ok ht
    obtain ⟨old, value, at', hvalue, hfind⟩ := find?_update_self hupdate
    have hfalse : value = .bool false := by
      cases old <;> cases hvalue <;> rfl
    rw [if_pos rfl, ← hfalse]
    exact congrArg (Option.map Property.value) hfind
  · rw [if_neg hq]
    refine congrArg (Option.map Property.value)
      (find?_write_of_ne hs (typed_disable hpath) ht propertyKind?_enabledName ?_)
    exact fun he => hq (List.append_cancel_right he)

/-- **Building a module** switches it off in the branches that are not being read. -/
theorem switch_disabled (hs : Sound sts s) (hopen : s.draft.isSome = true) (q : Path) :
    switch q (s.disabled quoted).openProperties =
      if q ∈ s.otherPaths then some (.bool false) else switch q s.openProperties := by
  have hpaths := hs.frames.mem_branchPaths_of_mem_otherPaths
  unfold disabled
  generalize s.otherPaths = paths at hpaths
  induction paths generalizing s with
  | nil => rw [List.foldl_nil, if_neg List.not_mem_nil]
  | cons path paths ih =>
    have hpath := hpaths path List.mem_cons_self
    have hopen' : (s.disable quoted path).draft.isSome = true := by
      rw [isSome_draft_of_header (kept_disable quoted s path).header, hopen]
    rw [List.foldl_cons,
      ih (hs.disable hpath) hopen' fun p hp => hpaths p (List.mem_cons_of_mem path hp),
      switch_disable hs hopen hpath]
    simp only [List.mem_cons]
    by_cases hq : q = path <;> by_cases hmem : q ∈ paths <;> simp [hq, hmem]

/-! ## Modules without a switch -/

/-- The open module is switched neither on nor off. -/
def Unswitched (s : State) : Prop := ∀ q, switch q s.openProperties = none

theorem Unswitched.of_openProperties (h : Unswitched s)
    (ht : t.openProperties = s.openProperties) : Unswitched t := by
  intro q
  rw [ht]
  exact h q

theorem unswitched_of_isNone (h : s.draft = none) : Unswitched s := by
  intro q
  unfold switch State.openProperties
  rw [h]
  exact congrArg (Option.map Property.value) (find?_nil _)

theorem unswitched_openModule : Unswitched (s.openModule options quoted) := by
  intro q
  unfold switch
  rw [openProperties_of_draft draft_openModule]
  exact congrArg (Option.map Property.value) (find?_nil _)

theorem name_stemProperty (value : Value) :
    (stemProperty value).1 = "stem".toList ∨ (stemProperty value).1 = "suffix".toList := by
  unfold stemProperty
  split
  · split
    · exact Or.inr rfl
    · exact Or.inl rfl
  · exact Or.inl rfl

/-- Only the host systems switch a module on and off. -/
theorem name_ne_enabledName {scope : Scope} {body : Phrase.Body} {append : Bool} {ws : List Write}
    (hname : name ≠ hostOsName) (h : writes scope name path body append = .ok ws) :
    ∀ w ∈ ws, w.name ≠ enabledName := by
  intro w hw
  cases writesCase_of_writes h with
  | dropped => exact absurd hw List.not_mem_nil
  | armMode =>
    rw [List.mem_singleton.mp hw]
    change armModeProperty ≠ enabledName
    decide
  | property property kind value hm =>
    have hrows : ∀ row ∈ standardProperties, row.2.1 ≠ enabledName := by decide +kernel
    rw [List.mem_singleton.mp hw]
    exact hrows _ (mem_of_ofName_property hm)
  | localIncludeDirs =>
    have hown : "local_include_dirs".toList ≠ enabledName := by decide
    have hothers : "include_dirs".toList ≠ enabledName := by decide
    rcases eq_of_mem_directoryWrites hw with rfl | rfl
    · exact hown
    · exact hothers
  | exportIncludeDirs =>
    have hexported : "export_include_dirs".toList ≠ enabledName := by decide
    rcases eq_of_mem_directoryWrites hw with rfl | rfl
    · exact hexported
    · exact hexported
  | stem value =>
    rw [List.mem_singleton.mp hw]
    rcases name_stemProperty value with hstem | hsuffix
    · exact fun he => absurd (hstem.symm.trans he) (by decide)
    · exact fun he => absurd (hsuffix.symm.trans he) (by decide)
  | hostOs items hm => exact absurd (eq_of_ofName_hostOs hm) hname

/-- Whether a statement names the host systems of a module, with a suffix or without. -/
def NamesHostOs (content : Content) : Prop :=
  ∃ a written, content = .assignment a ∧ a.target = none ∧ a.name.constant? = some written ∧
    baseName written = hostOsName

theorem Unswitched.writes {ws : List Write} (hs : Sound sts s) (h : Unswitched s)
    (htyped : ∀ w ∈ ws, w.Typed) (hnames : ∀ w ∈ ws, w.name ≠ enabledName)
    (ht : ws.foldlM State.write s = .ok t) : Unswitched t := by
  refine (foldlM_keeps (P := fun u => Sound sts u ∧ Unswitched u) ?_ ⟨hs, h⟩ ht).2
  rintro w hw u v ⟨hu, hnone⟩ hv
  refine ⟨hu.write (htyped w hw) hv, fun q => ?_⟩
  have hne : q ++ [enabledName] ≠ w.path ++ [w.name] := by
    intro he
    have hlast := congrArg List.getLast? he
    rw [List.getLast?_concat, List.getLast?_concat] at hlast
    exact hnames w hw (Option.some.inj hlast).symm
  unfold switch
  rw [find?_write_of_ne hu (htyped w hw) hv propertyKind?_enabledName hne]
  exact hnone q

theorem Unswitched.assignment {a : Assignment} (hs : Sound sts s) (h : Unswitched s)
    (hhost : ¬ NamesHostOs (.assignment a)) : Unswitched (s.assignment quoted a) := by
  have hroute := assignmentRoute s quoted a
  generalize s.assignment quoted a = t at hroute
  cases hroute with
  | skipped problem hproblem => exact h.of_openProperties rfl
  | handed before written place hbefore htarget hwritten hspace hplace =>
    have hbase : baseName written ≠ hostOsName :=
      fun he => hhost ⟨a, written, rfl, htarget, hwritten, he⟩
    have hsound : Sound sts before := by
      rcases hbefore with rfl | rfl
      · exact hs
      · exact hs.diagnose quoted trivial
    have hunswitched : Unswitched before := by
      rcases hbefore with rfl | rfl
      · exact h
      · exact h.of_openProperties rfl
    have hpath := mem_propertyPaths_of_mem_places hs.frames hplace
    unfold assignOrReport
    split
    · next t ht =>
      by_cases hglobal : Meaning.ofName (baseName written) = .global
      · rw [assign_of_global hglobal] at ht
        obtain ⟨list, -, ht⟩ := bind_eq_ok ht
        obtain ⟨u, hu, ht⟩ := bind_eq_ok ht
        cases ht
        obtain ⟨total, -, rfl⟩ := setGlobal_eq_ok hu
        exact hunswitched.of_openProperties rfl
      · rw [assign_eq_writes hglobal] at ht
        obtain ⟨ws, hws, hwrite⟩ := bind_eq_ok ht
        exact hunswitched.writes hsound (typed_of_writes hpath hws)
          (name_ne_enabledName hbase hws) hwrite
    · exact hunswitched.of_openProperties rfl

/-- **A step that names no host system** leaves the module without a switch. -/
theorem unswitched_step (hs : Sound sts s) (h : Unswitched s) {st : Statement}
    (hhost : ¬ NamesHostOs st.content) : Unswitched (s.step options source st) := by
  by_cases ha : ∃ a, st.content = .assignment a
  · obtain ⟨a, ha⟩ := ha
    rw [ha] at hhost
    rw [step_of_assignment ha]
    exact Unswitched.assignment (hs.moveTo st.lines) (h.of_openProperties rfl) hhost
  · cases he : ModuleEvent.of? s.scope st.content with
    | none =>
      refine h.of_openProperties ?_
      unfold State.openProperties
      rw [(idle_step he).draft.resolve_right ha]
    | some e =>
      rcases step_of_event he with ⟨-, hstep⟩ | ⟨moduleType, -, hstep⟩
      · rw [hstep]
        exact unswitched_openModule
      · rw [hstep]
        exact unswitched_of_isNone (closed_closeModule _ _ moduleType).draft

/-- **A run that names no host system** leaves the module without a switch. -/
theorem unswitched_run {before body : List Statement}
    (h : Unswitched (start.run options source before))
    (hhost : ∀ st ∈ body, ¬ NamesHostOs st.content) :
    Unswitched (start.run options source (before ++ body)) := by
  induction body using List.reverseRecOn with
  | nil =>
    rw [List.append_nil]
    exact h
  | append_singleton body st ih =>
    rw [← List.append_assoc, run_append]
    refine unswitched_step (sound_run (sound_start _))
      (ih fun other hother => hhost other (List.mem_append_left _ hother)) (hhost st ?_)
    exact List.mem_append_right _ (List.mem_singleton_self st)

/-- The module that is begun by a statement is unswitched until a host system is named. -/
theorem unswitched_of_opens {before body : List Statement} {opening : Statement}
    (hopens : ModuleEvent.of? (start.run options source before).scope opening.content =
      some .opens)
    (hhost : ∀ st ∈ body, ¬ NamesHostOs st.content) :
    Unswitched (start.run options source (before ++ opening :: body)) := by
  have hbegun : Unswitched (start.run options source (before ++ [opening])) := by
    rw [run_append, run_cons, run_nil, step_of_opens hopens]
    exact unswitched_openModule
  rw [List.append_cons]
  exact unswitched_run hbegun hhost

/-! ## Built modules -/

/-- **The switches of a module that is built** are those of the branches that the directives before
it leave unread, and those that it had. -/
theorem exists_built (options : Options) (source : Text) {sts : List Statement} {st : Statement}
    {moduleType : Text} (hopen : (start.run options source sts).draft.isSome = true)
    (hbuild : ModuleEvent.of? (start.run options source sts).scope st.content =
      some (.builds moduleType)) :
    ∃ m : Blueprint.Module,
      (start.run options source (sts ++ [st])).file.modules =
        (start.run options source sts).file.modules ++ [m] ∧
      m.moduleType = moduleType ∧
      ∀ path, switch path m.properties =
        if path ∈ (standing sts).filterMap Standing.untaken then some (.bool false)
        else switch path (start.run options source sts).openProperties := by
  set s := start.run options source sts with hs
  have hstep : start.run options source (sts ++ [st]) =
      (s.moveTo st.lines).closeModule (st.quote source) moduleType := by
    rw [run_append]
    exact step_of_builds hbuild
  have hsound : Sound sts (s.moveTo st.lines) := (sound_run (sound_start sts)).moveTo st.lines
  have hpaths : ∀ path, path ∈ (s.moveTo st.lines).otherPaths ↔
      path ∈ (standing sts).filterMap Standing.untaken := by
    intro path
    have hother : (s.moveTo st.lines).otherPaths = _ := otherPaths_run options source sts
    rw [hother, List.mem_reverse]
  obtain ⟨d, hd⟩ := Option.isSome_iff_exists.mp hopen
  have hd' : (s.moveTo st.lines).draft = some d := hd
  obtain ⟨properties, hproperties, hmodules⟩ :=
    @modules_closeModule _ (st.quote source) moduleType d hd'
  rw [hstep]
  refine ⟨_, hmodules, rfl, fun path => ?_⟩
  have hdisabled := @switch_disabled _ _ (st.quote source) hsound hopen path
  rw [openProperties_of_draft hproperties, if_congr (hpaths path) rfl rfl] at hdisabled
  exact hdisabled

/-- **A module that is built is switched off** under the path of every branch that the directives
before it leave unread, and its switches are in no other place if no host system was named since it
was begun, neither with a suffix nor without. The pile of conditionals stays as it is. -/
theorem switch_of_builds (options : Options) (source : Text) {sts : List Statement}
    {st : Statement} {moduleType : Text}
    (hopen : (start.run options source sts).draft.isSome = true)
    (hbuild : ModuleEvent.of? (start.run options source sts).scope st.content =
      some (.builds moduleType)) :
    ∃ m : Blueprint.Module,
      (start.run options source (sts ++ [st])).file.modules =
        (start.run options source sts).file.modules ++ [m] ∧
      m.moduleType = moduleType ∧
      (∀ path ∈ (standing sts).filterMap Standing.untaken,
        switch path m.properties = some (.bool false)) ∧
      (∀ before opening body, sts = before ++ opening :: body →
        ModuleEvent.of? (start.run options source before).scope opening.content = some .opens →
        (∀ st ∈ body, ¬ NamesHostOs st.content) →
        ∀ path, (switch path m.properties).isSome = true →
          path ∈ (standing sts).filterMap Standing.untaken) ∧
      (start.run options source sts).conditionals = pile (standing sts) ∧
      (start.run options source (sts ++ [st])).conditionals =
        (start.run options source sts).conditionals := by
  obtain ⟨m, hmodules, htype, hswitch⟩ := exists_built options source hopen hbuild
  refine ⟨m, hmodules, htype, ?_, ?_, conditionals_run options source sts, ?_⟩
  · intro path hpath
    rw [hswitch, if_pos hpath]
  · intro before opening body hsts hopens hhost path hsome
    by_contra hpath
    have hunswitched : Unswitched (start.run options source sts) := by
      rw [hsts]
      exact unswitched_of_opens hopens hhost
    rw [hswitch, if_neg hpath, hunswitched path] at hsome
    cases hsome
  · rw [run_append, run_cons, run_nil, step_of_builds hbuild]
    exact (closed_closeModule _ _ _).conditionals

/-- Goes to the other branch of a conditional. -/
def turning : Statement := aside (.directive ⟨.elseBranch, .ofText 0 []⟩)

/-- A module that is built after an `else` is switched off in the first branch, and only there. -/
theorem switch_of_builds_after_else :
    ∃ m : Blueprint.Module,
      (start.run {} [] [branching, beginning, turning, building]).file.modules = [m] ∧
      switch ["target", "linux"] m.properties = some (.bool false) ∧
      ∀ path, (switch path m.properties).isSome = true →
        path = ["target".toList, "linux".toList] := by
  have hopen : (start.run {} [] [branching, beginning, turning]).draft.isSome = true := rfl
  have hbuild : ModuleEvent.of? (start.run {} [] [branching, beginning, turning]).scope
      building.content = some (.builds "cc_binary") := by decide +kernel
  obtain ⟨m, hmodules, -, hoff, honly, -, -⟩ := switch_of_builds {} [] hopen hbuild
  have huntaken : (standing [branching, beginning, turning]).filterMap Standing.untaken =
      [["target".toList, "linux".toList]] := by decide +kernel
  rw [huntaken] at hoff honly
  refine ⟨m, hmodules, hoff _ (List.mem_singleton_self _), fun path hsome => ?_⟩
  refine List.mem_singleton.mp
    (honly [branching] beginning [turning] rfl (by decide +kernel) ?_ path hsome)
  rintro st hst ⟨a, written, ha, -⟩
  rw [List.mem_singleton.mp hst] at ha
  cases ha

/-- A variable with a suffix. -/
def suffixedHost : Text := "LOCAL_MODULE_HOST_OS_arm"

/-- **A suffix does not hide a host system**: without any conditional, the variable with a suffix
switches the module off. -/
theorem switch_of_suffixed_host :
    let sts := [beginning, aside (.assignment (setting suffixedHost "linux"))]
    standing sts = [] ∧ suffixedHost ≠ hostOsName ∧
      (start.run {} [] sts).draft.isSome = true ∧
      ∃ m : Blueprint.Module,
        (start.run {} [] (sts ++ [building])).file.modules = [m] ∧
          switch ["target", "darwin"] m.properties = some (.bool false) := by
  exact ⟨rfl, by decide, rfl, _, rfl, rfl⟩

end State

end MakeBlueprint.Conversion
