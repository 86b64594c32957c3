import MakeBlueprint.Proofs.Isolation.Alike
import MakeBlueprint.Proofs.Property.Update

/-!
# When modules are isolated

A module that is begun and built after one state is compared with the module that the same
statements build after another. The two states have no open module and the same scope, variables
and conditionals. One thing is left that can tell them apart: the conditional that properties are
put under outlives the module inside which it was begun.

* `build_of_alike`: alike states build the same module.
* `isolated_iff`: modules are isolated from what came before exactly when both states put
  properties under the same conditional.
-/

namespace MakeBlueprint.Conversion

open Blueprint (Module Path Property Value)
open Makefile (Content Phrase Statement)

/-- **The events of one module**: the first begins a module and the last is the first that builds
one. -/
def BuildsOne (es : List (Option ModuleEvent)) (moduleType : Text) : Prop :=
  ∃ middle, es = (some .opens :: middle) ++ [some (.builds moduleType)] ∧
    ∀ other, some (.builds other) ∉ middle

/-- Two modules of one type whose properties have the same names and values. -/
def SameModule (m m' : Module) : Prop :=
  m.moduleType = m'.moduleType ∧
    Property.allLineless m.properties = Property.allLineless m'.properties

namespace State

variable {s t : State} {options options' : Options} {source source' : Text}
  {sts : List Statement} {st : Statement} {moduleType : Text}

/-! ## Alike states build the same module -/

/-- Until a module is built, it stays open and no module is finished. -/
theorem open_run (hd : s.draft.isSome)
    (hes : ∀ other, some (.builds other) ∉ events options source s sts) :
    (s.run options source sts).draft.isSome ∧
      (s.run options source sts).file.modules = s.file.modules := by
  induction sts generalizing s with
  | nil => exact ⟨hd, rfl⟩
  | cons st sts ih =>
    have hrest : ∀ other, some (.builds other) ∉
        events options source (s.step options source st) sts :=
      fun other hm => hes other (List.mem_cons_of_mem _ hm)
    have hstep : (s.step options source st).draft.isSome ∧
        (s.step options source st).file.modules = s.file.modules := by
      cases he : ModuleEvent.of? s.scope st.content with
      | none =>
        have hidle : Idle st s (s.step options source st) := idle_step he
        rw [isSome_draft_of_header hidle.header]
        exact ⟨hd, hidle.modules⟩
      | some e =>
        cases e with
        | opens =>
          rw [step_of_opens he, draft_openModule]
          exact ⟨rfl, modules_dropModule _ _⟩
        | builds other =>
          refine absurd ?_ (hes other)
          rw [events, he]
          exact List.mem_cons_self
    obtain ⟨hopen, hmodules⟩ := ih hstep.1 hrest
    exact ⟨hopen, hmodules.trans hstep.2⟩

/-- Statements that build one module keep it open up to the last of them. -/
theorem exists_last_of_buildsOne (h : BuildsOne (events options source s sts) moduleType) :
    ∃ init last, sts = init ++ [last] ∧ (s.run options source init).draft.isSome ∧
      (s.run options source init).file.modules = s.file.modules ∧
      ModuleEvent.of? (s.run options source init).scope last.content =
        some (.builds moduleType) := by
  obtain ⟨middle, hes, hmiddle⟩ := h
  rcases List.eq_nil_or_concat sts with rfl | ⟨init, last, rfl⟩
  · cases hes
  · rw [List.concat_eq_append, events_append] at hes
    obtain ⟨hinit, hlast⟩ := List.append_inj' hes rfl
    cases init with
    | nil => cases hinit
    | cons st init =>
      obtain ⟨hfirst, hrest⟩ := List.cons.inj hinit
      have hstep : s.step options source st =
          (s.moveTo st.lines).openModule options (st.quote source) := step_of_opens hfirst
      have hopen : (s.step options source st).draft.isSome := by
        rw [hstep, draft_openModule]
        rfl
      have hmodules : (s.step options source st).file.modules = s.file.modules := by
        rw [hstep]
        exact modules_dropModule _ _
      rw [← hrest] at hmiddle
      obtain ⟨hd, hm⟩ := open_run hopen hmiddle
      have hevent := (List.cons.inj hlast).1
      exact ⟨st :: init, last, List.concat_eq_append, hd, hm.trans hmodules, hevent⟩

/-- The module that is built is the open one, switched off where it has to be. -/
theorem modules_step_of_builds {d : Draft} (hd : s.draft = some d)
    (h : ModuleEvent.of? s.scope st.content = some (.builds moduleType)) :
    ∃ m, (s.step options source st).file.modules = s.file.modules ++ [m] ∧
      m.moduleType = moduleType ∧
      ((s.moveTo st.lines).disabled (st.quote source)).tree =
        some (Property.allLineless m.properties) := by
  have hd' : (s.moveTo st.lines).draft = some d := hd
  obtain ⟨properties, hdisabled, hmodules⟩ := modules_closeModule hd'
  rw [step_of_builds h]
  refine ⟨_, hmodules, rfl, ?_⟩
  unfold tree
  rw [hdisabled, Option.map_some]

/-- **Alike states build the same module.** -/
theorem build_of_alike (h : Alike s t)
    (hsts : BuildsOne (events options source s sts) moduleType) :
    ∃ m m', (s.run options source sts).file.modules = s.file.modules ++ [m] ∧
      (t.run options' source' sts).file.modules = t.file.modules ++ [m'] ∧
      m.moduleType = moduleType ∧ SameModule m m' := by
  have hsts' : BuildsOne (events options' source' t sts) moduleType := by
    rw [events_of_alike h]
    exact hsts
  obtain ⟨init, last, rfl, hopen, hmodules, hlast⟩ := exists_last_of_buildsOne hsts
  obtain ⟨init', last', hinit, hopen', hmodules', hlast'⟩ := exists_last_of_buildsOne hsts'
  obtain ⟨rfl, hone⟩ := List.append_inj' hinit rfl
  obtain ⟨rfl, -⟩ := List.cons.inj hone
  obtain ⟨d, hd⟩ := Option.isSome_iff_exists.mp hopen
  obtain ⟨d', hd'⟩ := Option.isSome_iff_exists.mp hopen'
  obtain ⟨m, hm, htype, htree⟩ := modules_step_of_builds hd hlast
  obtain ⟨m', hm', htype', htree'⟩ := modules_step_of_builds hd' hlast'
  have hrun : Alike (s.run options source init) (t.run options' source' init) := alike_run h init
  have hdisabled : Alike
      (((s.run options source init).moveTo last.lines).disabled (last.quote source))
      (((t.run options' source' init).moveTo last.lines).disabled (last.quote source')) :=
    alike_disabled (hrun.moveTo last.lines last.lines)
  have hsame := hdisabled.tree
  rw [htree, htree', Option.some.injEq] at hsame
  refine ⟨m, m', ?_, ?_, htype, htype.trans htype'.symm, hsame.symm⟩
  · rw [run_append, run_cons, run_nil, hm, hmodules]
  · rw [run_append, run_cons, run_nil, hm', hmodules']

end State

/-! ## Statements that tell states apart -/

/-- The property that the name of a module becomes. -/
def nameProperty : Text := "name"

/-- Statements that build a module with a name, outside the last `n` conditionals. -/
def probe (n : Nat) : List Statement :=
  beginning :: List.replicate n ending ++ [aside (.assignment naming)] ++ [building]

/-- The path of a branch does not begin with the name of a module. -/
theorem head_of_mem_branchPaths :
    ∀ path ∈ branchPaths, ∃ level ∈ path.head?, level ≠ nameProperty := by
  decide +kernel

namespace State

variable {s t : State} {options options' : Options} {source source' quoted : Text}
  {path : Path} {value : Value} {append : Bool}

/-- Whether the open module has a name. -/
def isNamed (s : State) : Bool :=
  s.draft.any fun d => (Property.named? nameProperty d.properties).isSome

theorem isNamed_eq_of_tree {properties : List Property}
    (h : s.tree = some (Property.allLineless properties)) :
    s.isNamed = (Property.named? nameProperty properties).isSome := by
  obtain ⟨d, hd, hproperties⟩ := Option.map_eq_some_iff.mp h
  unfold isNamed
  rw [hd, Option.any_some, ← Property.isSome_named?_allLineless, hproperties,
    Property.isSome_named?_allLineless]

/-- A property of a branch does not give the module a name. -/
theorem isNamed_setProperty {name : Text} (hpath : path ∈ branchPaths)
    (h : s.setProperty path name value append = .ok t) : t.isNamed = s.isNamed := by
  obtain ⟨d, properties, hd, hupdate, rfl⟩ := setProperty_eq_ok h
  obtain ⟨level, hlevel, hne⟩ := head_of_mem_branchPaths path hpath
  cases path with
  | nil => cases hlevel
  | cons head path =>
    cases hlevel
    unfold isNamed
    rw [hd, Option.any_some, Option.any_some, Property.named?_alter_of_ne hne.symm hupdate]

theorem isNamed_disabled (h : WellFramed s) : (s.disabled quoted).isNamed = s.isNamed := by
  refine disabled_keeps (P := fun t => t.isNamed = s.isNamed) rfl fun t ht path hpath => ?_
  rw [← ht]
  unfold disable
  split
  · next u hu => exact isNamed_setProperty (h.mem_branchPaths_of_mem_otherPaths path hpath) hu
  · rfl

/-! ## Reading the probe -/

/-- Ending a conditional takes it off the pile. -/
theorem step_ending (options : Options) (source : Text) (hs : WellFramed s)
    (hne : s.conditionals ≠ []) :
    (s.step options source ending).conditionals = s.conditionals.dropLast ∧
      (s.step options source ending).assigning =
        if s.assigning = some s.conditionals.dropLast.length then none else s.assigning := by
  have hm : WellFramed (s.moveTo ending.lines) := hs.congr rfl rfl
  have hstep : s.step options source ending =
      (s.moveTo ending.lines).endConditional (ending.quote source) := rfl
  rw [hstep, endConditional_eq _ hm hne]
  exact ⟨rfl, rfl⟩

/-- States that put properties under different conditionals come to one that puts them under none
and one that does not. The induction is on the conditionals that are left: the last one is ended
until one of the two states loses its own. -/
theorem exists_endings (hs : WellFramed s) (ht : WellFramed t)
    (hpile : t.conditionals = s.conditionals) (hne : s.assigning ≠ t.assigning) :
    ∃ n, (s.run options source (List.replicate n ending)).assigning.isNone ≠
      (t.run options' source' (List.replicate n ending)).assigning.isNone := by
  induction hn : s.conditionals.length generalizing s t with
  | zero =>
    refine ⟨0, fun hsame => hne ?_⟩
    have hnone : ∀ {u : State}, WellFramed u → u.conditionals = [] → u.assigning = none := by
      intro u hu hnil
      by_contra hsome
      obtain ⟨i, hi⟩ := Option.ne_none_iff_exists'.mp hsome
      obtain ⟨c, hc⟩ := hu.assigning i hi
      rw [hnil] at hc
      cases hc
    have hnil : s.conditionals = [] := List.length_eq_zero_iff.mp hn
    rw [hnone hs hnil, hnone ht (hpile.trans hnil)]
  | succ n ih =>
    by_cases hsep : s.assigning.isNone = t.assigning.isNone
    · have hcons : s.conditionals ≠ [] := by
        intro hnil
        rw [hnil] at hn
        cases hn
      have hcons' : t.conditionals ≠ [] := by
        rw [hpile]
        exact hcons
      obtain ⟨hp, ha⟩ := step_ending options source hs hcons
      obtain ⟨hp', ha'⟩ := step_ending options' source' ht hcons'
      rw [hpile] at hp' ha'
      have hne' : (s.step options source ending).assigning ≠
          (t.step options' source' ending).assigning := by
        rw [ha, ha']
        grind
      obtain ⟨k, hk⟩ := ih (wellFramed_step hs ending) (wellFramed_step ht ending)
        (hp'.trans hp.symm) hne' (by rw [hp, List.length_dropLast, hn]; rfl)
      exact ⟨k + 1, hk⟩
    · exact ⟨0, hsep⟩

/-- Outside conditionals the name is one of the module. -/
theorem isNamed_of_naming {d : Draft} (hd : s.draft = some d) (hempty : d.properties = []) :
    (s.assignOrReport quoted moduleName none naming).isNamed = true := by
  have hassign : s.assign moduleName [] naming.value.body false =
      .ok { s with
        draft := some { d with properties := [⟨nameProperty, .string ['x'], s.line⟩] } } := by
    change s.setProperty [] nameProperty (.string ['x']) false = _
    unfold setProperty
    rw [hd]
    simp only
    rw [hempty]
    rfl
  unfold assignOrReport
  rw [Option.getD_none, show (naming.op == .append) = false from rfl, hassign]
  rfl

/-- Inside a conditional the name is one of the branch. -/
theorem isNamed_naming_of_branch (hpath : path ∈ branchPaths) :
    (s.assignOrReport quoted moduleName (some path) naming).isNamed = s.isNamed := by
  have hassign : s.assign moduleName path naming.value.body false =
      s.setProperty path nameProperty (.string ['x']) false := rfl
  unfold assignOrReport
  rw [Option.getD_some, show (naming.op == .append) = false from rfl, hassign]
  split
  · next t ht => exact isNamed_setProperty hpath ht
  · rfl

/-- **The name of a module without properties is only its own** where properties are put under no
conditional. -/
theorem isNamed_naming {d : Draft} (hs : WellFramed s) (hd : s.draft = some d)
    (hempty : d.properties = []) :
    (s.step options source (aside (.assignment naming))).isNamed = s.assigning.isNone := by
  have hstep : s.step options source (aside (.assignment naming)) =
      (s.moveTo (aside (.assignment naming)).lines).assignLocated
        ((aside (.assignment naming)).quote source) moduleName none naming := rfl
  rw [hstep]
  unfold assignLocated
  rw [if_pos (by decide)]
  cases ha : s.assigning with
  | none =>
    have hnone : (s.moveTo (aside (.assignment naming)).lines).conditional? = none := by
      change s.assigning.bind _ = none
      rw [ha]
      rfl
    rw [hnone]
    exact isNamed_of_naming hd hempty
  | some i =>
    obtain ⟨c, hc, -⟩ := hs.conditional? ha
    have hsome : (s.moveTo (aside (.assignment naming)).lines).conditional? = some c := hc
    have hunnamed : s.isNamed = false := by
      unfold isNamed
      rw [hd, Option.any_some, hempty]
      rfl
    rw [hsome]
    simp only
    split
    · next path hpath =>
      rw [isNamed_naming_of_branch (hs.mem_branchPaths hc hpath)]
      exact hunnamed
    · exact hunnamed

/-! ## Modules are isolated -/

/-- The beginning of a module leaves the conditionals as they are. -/
theorem pile_beginning (options : Options) (source : Text) (s : State) :
    (s.step options source beginning).conditionals = s.conditionals ∧
      (s.step options source beginning).assigning = s.assigning := by
  rw [step_of_opens rfl]
  unfold openModule
  rw [dropModule_eq]
  exact ⟨rfl, rfl⟩

theorem draft_endings (s : State) (n : Nat) :
    (s.run options source (List.replicate n ending)).draft = s.draft := by
  induction n generalizing s with
  | zero => rfl
  | succ n ih =>
    have hidle : Idle ending s (s.step options source ending) := idle_step rfl
    have hstep : (s.step options source ending).draft = s.draft := by
      rcases hidle.draft with hd | ⟨a, ha⟩
      · exact hd
      · cases ha
    exact (ih _).trans hstep

theorem events_endings (s : State) (n : Nat) :
    events options source s (List.replicate n ending) = List.replicate n none := by
  induction n generalizing s with
  | zero => rfl
  | succ n ih =>
    rw [List.replicate_succ, events, ih, List.replicate_succ]
    rfl

theorem buildsOne_probe (s : State) (n : Nat) :
    BuildsOne (events options source s (probe n)) "cc_binary" := by
  refine ⟨List.replicate n none ++ [none], ?_, ?_⟩
  · unfold probe
    rw [events_append, events_append, List.cons_append, events, events_endings]
    rfl
  · intro other hm
    rcases List.mem_append.mp hm with hm | hm
    · cases List.eq_of_mem_replicate hm
    · cases List.mem_singleton.mp hm

/-- The module of the probe has a name of its own where properties are put under no conditional
after the endings. -/
theorem modules_probe (options : Options) (source : Text) (hs : WellFramed s) (n : Nat) :
    ∃ m, (s.run options source (probe n)).file.modules = s.file.modules ++ [m] ∧
      (Property.named? nameProperty m.properties).isSome =
        ((s.step options source beginning).run options source
          (List.replicate n ending)).assigning.isNone := by
  obtain ⟨init, last, hprobe, hopen, hmodules, hlast⟩ :=
    exists_last_of_buildsOne (buildsOne_probe s n)
  obtain ⟨hinit, hone⟩ := List.append_inj' hprobe.symm rfl
  obtain ⟨hlast', -⟩ := List.cons.inj hone
  have hs' : WellFramed ((s.step options source beginning).run options source
      (List.replicate n ending)) := wellFramed_run (wellFramed_step hs _) _
  have hempty : ((s.step options source beginning).run options source
      (List.replicate n ending)).draft =
        some ⟨[], (s.moveTo beginning.lines).line, beginning.quote source⟩ := by
    rw [draft_endings, step_of_opens rfl, draft_openModule]
  have hnamed : (s.run options source init).isNamed =
      ((s.step options source beginning).run options source
        (List.replicate n ending)).assigning.isNone := by
    rw [hinit, run_append, run_cons, run_cons, run_nil]
    exact isNamed_naming hs' hempty rfl
  obtain ⟨d, hd⟩ := Option.isSome_iff_exists.mp hopen
  obtain ⟨m, hm, -, htree⟩ := modules_step_of_builds hd hlast
  refine ⟨m, ?_, ?_⟩
  · rw [hprobe, run_append, run_cons, run_nil, hm, hmodules]
  · have hmove : WellFramed ((s.run options source init).moveTo last.lines) :=
      (wellFramed_run hs init).congr rfl rfl
    rw [← isNamed_eq_of_tree htree, isNamed_disabled hmove]
    exact hnamed

/-- **Modules are isolated exactly up to the conditional that properties are put under.** Two
states that a makefile can lead to, with no open module and with the same scope, variables and
conditionals, build the same module from all statements of one module exactly when they put
properties under the same conditional. -/
theorem isolated_iff (hs : Reachable options source s) (ht : Reachable options' source' t)
    (hds : s.draft = none) (hdt : t.draft = none) (hscope : t.scope = s.scope)
    (hglobals : t.globals = s.globals) (hpile : t.conditionals = s.conditionals) :
    s.assigning = t.assigning ↔
      ∀ sts moduleType, BuildsOne (events options source s sts) moduleType →
        ∃ m m', (s.run options source sts).file.modules = s.file.modules ++ [m] ∧
          (t.run options' source' sts).file.modules = t.file.modules ++ [m'] ∧
          m.moduleType = moduleType ∧ SameModule m m' := by
  constructor
  · intro hassigning sts moduleType hsts
    have htree : t.tree = s.tree := by
      unfold tree
      rw [hds, hdt]
    exact build_of_alike ⟨hscope, hglobals, hpile, hassigning.symm, htree⟩ hsts
  · intro hsame
    by_contra hne
    obtain ⟨hps, has⟩ := pile_beginning options source s
    obtain ⟨hpt, hat⟩ := pile_beginning options' source' t
    have hpile' : (t.step options' source' beginning).conditionals =
        (s.step options source beginning).conditionals := by
      rw [hps, hpt, hpile]
    have hne' : (s.step options source beginning).assigning ≠
        (t.step options' source' beginning).assigning := by
      rw [has, hat]
      exact hne
    obtain ⟨n, hn⟩ := exists_endings (wellFramed_step hs.wellFramed beginning)
      (wellFramed_step ht.wellFramed beginning) hpile' hne'
    obtain ⟨p, hp, hnamed⟩ := modules_probe options source hs.wellFramed n
    obtain ⟨q, hq, hnamed'⟩ := modules_probe options' source' ht.wellFramed n
    obtain ⟨m, m', hm, hm', -, -, hproperties⟩ := hsame _ _ (buildsOne_probe s n)
    rw [hp] at hm
    rw [hq] at hm'
    cases List.append_cancel_left hm
    cases List.append_cancel_left hm'
    apply hn
    rw [← hnamed, ← hnamed', ← Property.isSome_named?_allLineless, hproperties,
      Property.isSome_named?_allLineless]

/-- Inside a conditional that was begun outside modules. -/
def inside : State := start.run {} [] [branching]

/-- Inside a conditional that was begun inside a module, after the module is built. -/
def insideAfterModule : State := start.run {} [] [beginning, branching, building]

/-- A conditional that was begun inside a module still counts after the module is built. -/
theorem not_isolated_insideAfterModule :
    ¬ ∀ sts moduleType, BuildsOne (events {} [] insideAfterModule sts) moduleType →
      ∃ m m', (insideAfterModule.run {} [] sts).file.modules =
          insideAfterModule.file.modules ++ [m] ∧
        (inside.run {} [] sts).file.modules = inside.file.modules ++ [m'] ∧
        m.moduleType = moduleType ∧ SameModule m m' := by
  intro h
  have hs : Reachable {} [] insideAfterModule := ⟨[beginning, branching, building], rfl⟩
  have ht : Reachable {} [] inside := ⟨[branching], rfl⟩
  have hassigning : insideAfterModule.assigning = inside.assigning :=
    (isolated_iff hs ht rfl rfl rfl rfl rfl).mpr h
  cases hassigning

end State

end MakeBlueprint.Conversion
