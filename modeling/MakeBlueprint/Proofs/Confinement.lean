import MakeBlueprint.Proofs.Assignments.Accepted

/-!
# Conditionals confine assignments

Inside a conditional, an assignment to a module variable without a suffix has to change the module
only under the path of the branch, or to report that it does not. Two variables do neither. The
instruction set, which only the ARM architecture has, and the switches for host systems have fixed
places of their own (`placesOf`), and are written there without a report.

* `exists_place_of_writes`: everything that such an assignment writes is in one of its places.
* `Write.Changes`, `sameOutside_intoAll`: writes only change what is in the places of those of them
  that change something.
* `AssignsInBranch`, `step_in_branch`: what the step of such an assignment does.
* `confined_iff`: it changes nothing outside the places of its variable, and it is confined to the
  branch unless it strays from it (`Strays`).
-/

namespace MakeBlueprint.Conversion

open Blueprint (Path Property Value)
open Blueprint.Property (SameOutside exists_of_leaf? leaf? leaf?_nil sameOutside_update
  update_of_find?)
open Makefile (Assignment Phrase Scope Statement)

/-- **The places that an assignment can change** inside a branch. -/
def placesOf (name : Text) (branch : Path) : List Path :=
  if name = armModeName then [["arch", "arm", "instruction_set"]]
  else if name = hostOsName then hostSystems.map fun system => ["target", system, "enabled"]
  else [branch]

variable {name : Text} {branch : Path} {scope : Scope} {body : Phrase.Body} {append : Bool}
  {w : Write} {ws : List Write} {line : Nat} {places : List Path} {ps qs : List Property}

/-! ## The places of writes -/

/-- Without a place of its own, an assignment is put under the branch. -/
theorem exists_place_of_path (harm : name ≠ armModeName) (hhost : name ≠ hostOsName) {w : Write}
    (hw : w.path = branch) : ∃ place ∈ placesOf name branch, place <+: w.path ++ [w.name] := by
  unfold placesOf
  rw [if_neg harm, if_neg hhost, hw]
  exact ⟨branch, List.mem_singleton_self branch, List.prefix_append branch [w.name]⟩

/-- **Everything that an assignment writes is in one of its places.** -/
theorem exists_place_of_writes (h : writes scope name branch body append = .ok ws) :
    ∀ w ∈ ws, ∃ place ∈ placesOf name branch, place <+: w.path ++ [w.name] := by
  -- Two names have places of their own, and each of them has its own meaning.
  have harm : Meaning.ofName name ≠ .armMode → name ≠ armModeName := by
    rintro hm rfl
    exact hm ofName_armModeName
  have hhost : Meaning.ofName name ≠ .special .hostOs → name ≠ hostOsName := by
    rintro hm rfl
    exact hm ofName_hostOsName
  intro w hw
  cases writesCase_of_writes h with
  | dropped => exact absurd hw List.not_mem_nil
  | armMode value hm =>
    rw [List.mem_singleton.mp hw, eq_of_ofName_armMode hm]
    exact ⟨_, List.mem_singleton_self _, List.prefix_rfl⟩
  | property property kind value hm | stem value hm =>
    rw [List.mem_singleton.mp hw]
    exact exists_place_of_path (harm (by rw [hm]; nofun)) (hhost (by rw [hm]; nofun)) rfl
  | localIncludeDirs value own others hm | exportIncludeDirs value own others hm =>
    rcases eq_of_mem_directoryWrites hw with rfl | rfl
    all_goals
      exact exists_place_of_path (harm (by rw [hm]; nofun)) (hhost (by rw [hm]; nofun)) rfl
  | hostOs items hm =>
    rw [eq_of_ofName_hostOs hm]
    obtain ⟨system, hsystem, on, rfl⟩ := exists_system_of_mem_hostWrites hw
    have hplace : ["target".toList, system, "enabled".toList] ∈ placesOf hostOsName branch :=
      List.mem_map.mpr ⟨system, hsystem, rfl⟩
    exact ⟨_, hplace, List.prefix_rfl⟩

/-! ## Writes that change something -/

/-- **A write changes a tree** if it makes another leaf of the one in its place. -/
def Write.Changes (w : Write) (ps : List Property) : Prop :=
  settle (leaf? w.target ps) w ≠ .ok (leaf? w.target ps)

theorem Write.into_of_not_changes (h : ¬ w.Changes ps) : w.into line ps = .ok ps := by
  obtain ⟨v, hv, hleaf⟩ := Property.map_eq_ok (not_ne_iff.mp h)
  obtain ⟨p, hp, rfl, -⟩ := exists_of_leaf? hleaf.symm
  rw [← hleaf] at hv
  exact update_of_find? hp hv

/-- **Writes only change what is in some places** if those that change something are in them. -/
theorem sameOutside_intoAll (h : intoAll line ws ps = .ok qs)
    (hws : ∀ w ∈ ws, w.Changes ps → ∃ place ∈ places, place <+: w.target) :
    SameOutside places ps qs := by
  refine foldlM_keeps (P := SameOutside places ps) (fun w hw rs us hrs hus => ?_) (.refl _ _) h
  by_cases hin : ∃ place ∈ places, place <+: w.target
  · obtain ⟨place, hplace, hprefix⟩ := hin
    exact hrs.trans (sameOutside_update hplace hprefix hus)
  · -- Outside the places the leaf is still that of the first tree.
    have hout : ∀ place ∈ places, ¬ place <+: w.target :=
      fun place hplace hprefix => hin ⟨place, hplace, hprefix⟩
    have hsame : ¬ w.Changes rs := by
      unfold Write.Changes
      rw [hrs.leaf?_eq hout]
      exact fun hchanges => hin (hws w hw hchanges)
    cases hus.symm.trans (Write.into_of_not_changes hsame)
    exact hrs

/-- Where trees are the same, a write that stands alone in its place changes nothing. -/
theorem not_changes_of_sameOutside (hps : TypedLevel [] ps) (hws : ∀ w ∈ ws, w.Typed)
    (h : intoAll line ws ps = .ok qs) (hsame : SameOutside places ps qs)
    (halone : writesAt w.target ws = [w]) (hout : ∀ place ∈ places, ¬ place <+: w.target) :
    ¬ w.Changes ps := by
  have hsettle := leaf?_intoAll hps hws h w.target
  rw [halone, hsame.leaf?_eq hout, List.foldlM_cons] at hsettle
  obtain ⟨leaf, hleaf, hrest⟩ := bind_eq_ok hsettle
  cases hrest
  exact not_ne_iff.mpr hleaf

theorem writesAt_eq_singleton (hnodup : (ws.map Write.target).Nodup) (hw : w ∈ ws) :
    writesAt w.target ws = [w] := by
  induction ws with
  | nil => cases hw
  | cons first ws ih =>
    obtain ⟨hfirst, hnodup⟩ := List.nodup_cons.mp hnodup
    unfold writesAt at ih ⊢
    rcases List.mem_cons.mp hw with rfl | hw
    · rw [List.filter_cons, if_pos (beq_self_eq_true w.target)]
      exact congrArg (w :: ·) (writesAt_eq_nil_iff.mpr hfirst)
    · have hne : first.target ≠ w.target :=
        fun he => hfirst (he ▸ List.mem_map_of_mem hw)
      rw [List.filter_cons_of_neg (by simpa using hne)]
      exact ih hnodup hw

theorem nodup_hostWrites (items : List Value) : ((hostWrites items).map Write.target).Nodup := by
  unfold hostWrites
  cases State.lists items "windows" <;> cases State.lists items "linux" <;>
    cases State.lists items "darwin" <;> decide

/-! ## Assignments in a branch -/

/-- **An assignment strays from a branch**: it changes the instruction set, which is in no branch,
or a switch for a host system that is not that of the branch. -/
inductive Strays (scope : Scope) (name : Text) (body : Phrase.Body) (append : Bool)
    (branch : Path) (ps : List Property) : Prop
  | armMode (value : Value) (hname : name = armModeName)
      (hvalue : coerceString scope body = .ok value)
      (hchanges : Write.Changes ⟨armPath, armModeProperty, value, append⟩ ps)
  | hostOs (items : List Value) (system : Text) (on : Bool) (hname : name = hostOsName)
      (hitems : coerceList scope body = .ok (.list items))
      (hwrites : enabledWrite system on ∈ hostWrites items)
      (hsystem : branch ≠ ["target".toList, system])
      (hchanges : (enabledWrite system on).Changes ps)

/-- What an assignment changes outside the branch strays from it. -/
theorem strays_of_writes (hws : writes scope name branch body append = .ok ws) (hw : w ∈ ws)
    (hchanges : w.Changes ps) (hout : ¬ branch <+: w.target) :
    Strays scope name body append branch ps := by
  cases writesCase_of_writes hws with
  | dropped => exact absurd hw List.not_mem_nil
  | armMode value hm hvalue =>
    rw [List.mem_singleton.mp hw] at hchanges
    exact .armMode value (eq_of_ofName_armMode hm) hvalue hchanges
  | property property kind value | stem value =>
    rw [List.mem_singleton.mp hw] at hout
    exact absurd (List.prefix_append branch _) hout
  | localIncludeDirs | exportIncludeDirs =>
    rcases eq_of_mem_directoryWrites hw with rfl | rfl
    all_goals exact absurd (List.prefix_append branch _) hout
  | hostOs items hm hvalue =>
    obtain ⟨system, -, on, rfl⟩ := exists_system_of_mem_hostWrites hw
    refine .hostOs items system on (eq_of_ofName_hostOs hm) hvalue hw ?_ hchanges
    rintro rfl
    exact hout (List.prefix_append _ [State.enabledName])

/-- **What strays from a branch is written outside of it**, with no other write in its place. -/
theorem Strays.exists_write (h : Strays scope name body append branch ps)
    (hbranch : branch ∈ branchPaths) :
    ∃ ws w, writes scope name branch body append = .ok ws ∧ (ws.map Write.target).Nodup ∧
      w ∈ ws ∧ w.Changes ps ∧ ¬ branch <+: w.target := by
  cases h with
  | armMode value hname hvalue hchanges =>
    have hout : ∀ branch ∈ branchPaths, ¬ branch <+: armPath ++ [armModeProperty] := by decide
    have hm : Meaning.ofName name = .armMode := by rw [hname, ofName_armModeName]
    exact ⟨_, _, writes_eq_ok_iff.mpr (.armMode value hm hvalue), List.nodup_singleton _,
      List.mem_singleton_self _, hchanges, hout branch hbranch⟩
  | hostOs items system on hname hitems hwrites hsystem hchanges =>
    have hlevels : ∀ branch ∈ branchPaths, branch.length = 2 := by decide
    have hm : Meaning.ofName name = .special .hostOs := by rw [hname, ofName_hostOsName]
    refine ⟨_, _, writes_eq_ok_iff.mpr (.hostOs items hm hitems), nodup_hostWrites items, hwrites,
      hchanges, fun hprefix => hsystem ?_⟩
    have htake := List.prefix_iff_eq_take.mp hprefix
    rwa [hlevels branch hbranch] at htake

/-- What strays has a name without white characters that is not that of a boolean. -/
theorem Strays.name_cases (h : Strays scope name body append branch ps) :
    name.any Text.isWhite = false ∧ ∀ property, Meaning.ofName name ≠ .property property .bool := by
  cases h with
  | armMode value hname =>
    subst hname
    refine ⟨by decide, ?_⟩
    rw [ofName_armModeName]
    nofun
  | hostOs items system on hname =>
    subst hname
    refine ⟨by decide, ?_⟩
    rw [ofName_hostOsName]
    nofun

namespace State

variable {s : State} {d : Draft} {a : Assignment} {st : Statement} {options : Options}
  {source : Text} {sts : List Statement}

/-- **A statement assigns a variable inside a branch**, while a module is open. The variable is one
of modules, has no suffix, and is not assigned for one target. -/
structure AssignsInBranch (s : State) (st : Statement) (d : Draft) (branch : Path) (a : Assignment)
    (name : Text) : Prop where
  draft : s.draft = some d
  within : ∃ c, s.conditional? = some c ∧ c.path = some branch
  content : st.content = .assignment a
  target : a.target = none
  named : a.name.constant? = some name
  isLocal : isLocalName name = true
  unsuffixed : (splitSuffix name).2 = none

/-- The open module is `d` up to properties in some places. -/
def SameDraft (places : List Path) (d : Draft) (s : State) : Prop :=
  ∃ properties, s.draft = some { d with properties } ∧
    SameOutside places d.properties properties

/-- **An assignment is confined to a branch**: it changes the open module only under the path of the
branch, or it reports that the conditional does not count for it. -/
def Confined (options : Options) (source : Text) (s : State) (st : Statement) (branch : Path) :
    Prop :=
  SameOutside [branch] s.openProperties (s.step options source st).openProperties ∨
    ∃ c, (s.step options source st).file.comments = s.file.comments ++ [c] ∧
      reports .suffixInConditional c = true

section Branch

variable (h : AssignsInBranch s st d branch a name)
include h

theorem AssignsInBranch.step_of_white (hwhite : name.any Text.isWhite = true) :
    s.step options source st =
      (s.moveTo st.lines).diagnose (st.quote source) .spacedVariable := by
  rw [step_of_assignment h.content]
  exact assignment_of_white h.target h.named hwhite

/-- **Inside a branch an assignment writes under its path**, or reports why it is refused. -/
theorem AssignsInBranch.step_in_branch (hwhite : name.any Text.isWhite = false) :
    s.step options source st =
      match (writes s.scope name branch a.value.body (a.op == .append)).bind
          fun ws => intoAll (s.moveTo st.lines).line ws d.properties with
      | .ok properties => { s.moveTo st.lines with draft := some { d with properties } }
      | .error cause => (s.moveTo st.lines).diagnose (st.quote source) (.refused cause) := by
  obtain ⟨c, hc, hpath⟩ := h.within
  have hconditional : (s.moveTo st.lines).conditional? = some c := hc
  have hdraft : (s.moveTo st.lines).draft = some d := h.draft
  have hscope : (s.moveTo st.lines).scope = s.scope := rfl
  have hbase : baseName name = name := by
    unfold baseName
    rw [if_pos h.isLocal, splitSuffix_of_none h.unsuffixed]
  rw [step_of_assignment h.content,
    assignment_of_isLocalName h.target h.named hwhite h.isLocal, hbase, h.unsuffixed]
  unfold assignLocated
  rw [if_pos h.isLocal, hconditional]
  simp only
  rw [hpath]
  simp only
  unfold assignOrReport
  rw [Option.getD_some, assign_eq_writes (ofName_ne_global h.isLocal), hscope]
  cases writes s.scope name branch a.value.body (a.op == .append) with
  | error cause => rfl
  | ok ws =>
    simp only [Except.bind]
    rw [foldlM_write hdraft]
    cases intoAll (s.moveTo st.lines).line ws d.properties <;> rfl

/-- Inside a branch an assignment is made, or it is reported. -/
theorem AssignsInBranch.makes_or_reports (options : Options) (source : Text) :
    (∃ ws properties, writes s.scope name branch a.value.body (a.op == .append) = .ok ws ∧
        Makes options source s st ws d properties) ∨
      ∃ problem, s.step options source st =
        (s.moveTo st.lines).diagnose (st.quote source) problem := by
  cases hwhite : name.any Text.isWhite with
  | true => exact .inr ⟨_, h.step_of_white hwhite⟩
  | false =>
    have hstep : s.step options source st = _ := h.step_in_branch hwhite
    cases hws : writes s.scope name branch a.value.body (a.op == .append) with
    | error cause =>
      rw [hws] at hstep
      exact .inr ⟨_, hstep⟩
    | ok ws =>
      rw [hws] at hstep
      cases hp : intoAll (s.moveTo st.lines).line ws d.properties with
      | error cause => exact .inr ⟨_, by rw [hstep, Except.bind, hp]⟩
      | ok properties => exact .inl ⟨ws, properties, rfl, hp, by rw [hstep, Except.bind, hp]⟩

/-- Inside a branch typed writes are made that add up no booleans. -/
theorem AssignsInBranch.exists_makes (options : Options) (source : Text)
    (hlevel : TypedLevel [] d.properties)
    (hwhite : name.any Text.isWhite = false)
    (hws : writes s.scope name branch a.value.body (a.op == .append) = .ok ws)
    (htyped : ∀ w ∈ ws, w.Typed) (hsum : ∀ w ∈ ws, w.append = true → w.value.kind ≠ .bool) :
    ∃ properties, Makes options source s st ws d properties := by
  obtain ⟨properties, hp⟩ := exists_intoAll (s.moveTo st.lines).line hlevel htyped hsum
  exact ⟨properties, hp, by rw [h.step_in_branch hwhite, hws, Except.bind, hp]⟩

/-- The module stays open, and nothing outside the places of the variable changes. -/
theorem AssignsInBranch.sameDraft :
    SameDraft (placesOf name branch) d (s.step options source st) := by
  rcases h.makes_or_reports options source with ⟨ws, properties, hws, hm⟩ | ⟨problem, hr⟩
  · exact ⟨properties, hm.draft,
      sameOutside_intoAll hm.writes fun w hw _ => exists_place_of_writes hws w hw⟩
  · rw [hr]
    exact ⟨d.properties, h.draft, .refl _ _⟩

/-- What does not stray from the branch stays under its path. -/
theorem AssignsInBranch.confined_of_not_strays
    (hstays : ¬ Strays s.scope name a.value.body (a.op == .append) branch d.properties) :
    Confined options source s st branch := by
  left
  rcases h.makes_or_reports options source with ⟨ws, properties, hws, hm⟩ | ⟨problem, hr⟩
  · rw [openProperties_of_draft h.draft, hm.openProperties]
    refine sameOutside_intoAll hm.writes fun w hw hchanges =>
      ⟨branch, List.mem_singleton_self branch, ?_⟩
    by_contra hout
    exact hstays (strays_of_writes hws hw hchanges hout)
  · rw [hr]
    exact .refl _ _

/-- What strays from the branch changes something outside of it, and nothing is reported. -/
theorem AssignsInBranch.not_confined_of_strays (hs : Sound sts s) (hbranch : branch ∈ branchPaths)
    (hstrays : Strays s.scope name a.value.body (a.op == .append) branch d.properties) :
    ¬ Confined options source s st branch := by
  have hlevel := hs.draft d h.draft
  have hpath : branch ∈ propertyPaths :=
    List.mem_append_left _ (List.mem_append_right _ hbranch)
  obtain ⟨hwhite, hbool⟩ := hstrays.name_cases
  obtain ⟨ws, w, hws, hnodup, hw, hchanges, hout⟩ := hstrays.exists_write hbranch
  have htyped := typed_of_writes hpath hws
  obtain ⟨properties, hm⟩ := h.exists_makes options source hlevel hwhite hws htyped
    (kind_ne_bool_of_writes hbool hws)
  rintro (hsame | ⟨c, hcomments, -⟩)
  · rw [openProperties_of_draft h.draft, hm.openProperties] at hsame
    exact not_changes_of_sameOutside hlevel htyped hm.writes hsame
      (writesAt_eq_singleton hnodup hw) (List.forall_mem_singleton.mpr hout) hchanges
  · have haccepts : (s.step options source st).file.comments = s.file.comments := hm.accepts
    rw [haccepts] at hcomments
    simp at hcomments

end Branch

/-- **Conditionals confine assignments**, but for two variables. Inside a branch, an assignment to a
module variable without a target and without a suffix keeps the module open and changes it only in
the places of the variable. It is confined to the branch exactly if it does not stray from it. -/
theorem confined_iff (hs : Reachable options source s)
    (h : AssignsInBranch s st d branch a name) :
    SameDraft (placesOf name branch) d (s.step options source st) ∧
      (Confined options source s st branch ↔
        ¬ Strays s.scope name a.value.body (a.op == .append) branch d.properties) := by
  obtain ⟨c, hc, hpath⟩ := h.within
  have hbranch := hs.wellFramed.mem_branchPaths hc hpath
  obtain ⟨sts, hrun⟩ := hs
  have hsound : Sound sts s := hrun ▸ sound_run (sound_start sts)
  exact ⟨h.sameDraft, fun hconfined hstrays =>
    h.not_confined_of_strays hsound hbranch hstrays hconfined, h.confined_of_not_strays⟩

/-- Inside a module and inside the branch for Linux. -/
def insideBranch : State := start.run {} [] [beginning, branching]

/-- The name of a module is confined to the branch. The instruction set is not, and neither are the
host systems if they switch off another one than Linux. -/
theorem confined_iff_insideBranch :
    Confined {} [] insideBranch (aside (.assignment naming)) ["target", "linux"] ∧
      ¬ Confined {} [] insideBranch (aside (.assignment (setting armModeName "arm")))
        ["target", "linux"] ∧
      ¬ Confined {} [] insideBranch (aside (.assignment (setting hostOsName "linux")))
        ["target", "linux"] := by
  have hs : Reachable {} [] insideBranch := ⟨_, rfl⟩
  have hin : ∀ name value, isLocalName name = true → (splitSuffix name).2 = none →
      AssignsInBranch insideBranch (aside (.assignment (setting name value)))
        ⟨[], 1, beginning.quote []⟩ ["target", "linux"] (setting name value) name :=
    fun name value hlocal hsuffix => ⟨rfl, ⟨_, rfl, rfl⟩, rfl, rfl,
      Phrase.Body.constant?_ofText name, hlocal, hsuffix⟩
  refine ⟨(confined_iff hs (hin moduleName ['x'] rfl rfl)).2.mpr ?_, fun hconfined => ?_,
    fun hconfined => ?_⟩
  · rintro (⟨value, hname, -, -⟩ | ⟨items, system, on, hname, -, -, -, -⟩)
    · exact absurd hname (by decide)
    · exact absurd hname (by decide)
  · refine (confined_iff hs (hin armModeName "arm" rfl rfl)).2.mp hconfined ?_
    exact .armMode (.string "arm") rfl rfl nofun
  · have hwrites : hostWrites [.string "linux"] = [enabledWrite "darwin" false] := rfl
    refine (confined_iff hs (hin hostOsName "linux" rfl rfl)).2.mp hconfined ?_
    exact .hostOs [.string "linux"] "darwin" false rfl rfl (hwrites ▸ List.mem_singleton_self _)
      (by decide) nofun

end State

end MakeBlueprint.Conversion
