import MakeBlueprint.Proofs.Conversion.Modules
import MakeBlueprint.Proofs.Property.Lineless

/-!
# States that are alike

Two states are alike when they have the same scope, variables and conditionals, put properties
under the same conditional, and have the same open module up to its lines (`Alike`). Files, lines
and quoted sources may differ. Alike states stay alike whatever statement follows:

* `alike_assignment`, `alike_directive`: the two kinds of statements that read the state.
* `alike_step`, `alike_run`: any statement, and any sequence of statements.
* `events_of_alike`: alike states see the same events.
-/

namespace MakeBlueprint.Conversion

open Blueprint (Path Property Value)
open Makefile (Assignment Directive Phrase Scope Statement)

/-! ## Sums without lines -/

theorem lineless_promote (v : Value) : (promote v).lineless = promote v.lineless := by
  cases v <;> rfl

theorem lineless_addSameKind (left right : Value) :
    (addSameKind left.kind left right).lineless =
      addSameKind left.kind left.lineless right.lineless := by
  cases left with
  | string a => cases right <;> rfl
  | list a =>
    cases right with
    | list b => exact congrArg Value.list (Value.allLineless_append a b)
    | _ => rfl
  | _ => rfl

theorem lineless_addPromoted (left right : Value) :
    (addPromoted left right).map Value.lineless = addPromoted left.lineless right.lineless := by
  unfold addPromoted
  rw [Value.kind_lineless, Value.kind_lineless]
  split
  · rfl
  · split
    · rfl
    · exact congrArg Except.ok (lineless_addSameKind left right)

theorem lineless_add (left right : Value) :
    (add left right).map Value.lineless = add left.lineless right.lineless := by
  unfold add
  rw [Value.kind_lineless, Value.kind_lineless]
  split
  · rw [lineless_addPromoted, lineless_promote]
  · rw [lineless_addPromoted, lineless_promote]
  · exact lineless_addPromoted left right

/-- A value changes without its lines as it does with them. -/
theorem lineless_changed (append : Bool) (value : Value) (old : Option Value) :
    (State.changed append value old).map Value.lineless =
      State.changed append value.lineless (old.map Value.lineless) := by
  cases old with
  | none => rfl
  | some old =>
    cases append with
    | false => rfl
    | true =>
      change ((add old value).mapError Refusal.unsupportedAddition).map Value.lineless =
        (add old.lineless value.lineless).mapError Refusal.unsupportedAddition
      rw [← lineless_add]
      cases add old value <;> rfl

namespace State

variable {s t : State} {path : Path} {name quoted quoted' : Text} {value : Value} {append : Bool}
  {body : Phrase.Body} {options options' : Options} {source source' : Text}

/-! ## Alike states -/

/-- The properties of the open module, without their lines. -/
def tree (s : State) : Option (List Property) :=
  s.draft.map fun d => Property.allLineless d.properties

/-- **Two states that treat all statements in the same way.** -/
structure Alike (s t : State) : Prop where
  scope : t.scope = s.scope
  globals : t.globals = s.globals
  conditionals : t.conditionals = s.conditionals
  assigning : t.assigning = s.assigning
  tree : t.tree = s.tree

/-- Two results that are refused for the same cause, or two states that are alike. -/
inductive AlikeResults : Except Refusal State → Except Refusal State → Prop
  | refused (cause : Refusal) : AlikeResults (.error cause) (.error cause)
  | states (s t : State) (h : Alike s t) : AlikeResults (.ok s) (.ok t)

theorem AlikeResults.bind {x y : Except Refusal State} {f g : State → Except Refusal State}
    (h : AlikeResults x y) (hfg : ∀ s t, Alike s t → AlikeResults (f s) (g t)) :
    AlikeResults (x >>= f) (y >>= g) := by
  cases h with
  | refused cause => exact .refused cause
  | states s t h => exact hfg s t h

theorem Alike.isNone_draft (h : Alike s t) : t.draft.isNone = s.draft.isNone := by
  have htree := congrArg Option.isNone h.tree
  unfold State.tree at htree
  rwa [Option.isNone_map, Option.isNone_map] at htree

theorem Alike.comment (h : Alike s t) (lines lines' : List Text) :
    Alike (s.comment lines) (t.comment lines') :=
  ⟨h.scope, h.globals, h.conditionals, h.assigning, h.tree⟩

theorem Alike.diagnose (h : Alike s t) (quoted quoted' : Text) (problem problem' : Problem) :
    Alike (s.diagnose quoted problem) (t.diagnose quoted' problem') :=
  h.comment _ _

theorem Alike.moveTo (h : Alike s t) (lines lines' : Span) :
    Alike (s.moveTo lines) (t.moveTo lines') :=
  ⟨h.scope, h.globals, h.conditionals, h.assigning, h.tree⟩

theorem Alike.conditional? (h : Alike s t) : t.conditional? = s.conditional? := by
  unfold State.conditional?
  rw [h.assigning, h.conditionals]

/-! ## Assignments -/

/-- **The same property is written into alike states**, or refused for the same cause. -/
theorem alike_setProperty (h : Alike s t) :
    AlikeResults (s.setProperty path name value append) (t.setProperty path name value append) := by
  have htree := h.tree
  unfold State.tree at htree
  unfold setProperty
  cases hs : s.draft with
  | none =>
    rw [hs] at htree
    rw [Option.map_eq_none_iff.mp htree]
    exact .refused _
  | some d =>
    rw [hs] at htree
    obtain ⟨e, he, hproperties⟩ := Option.map_eq_some_iff.mp htree
    rw [he]
    have hupdate :
        (Property.update s.line .notAMap name (changed append value) path d.properties).map
            Property.allLineless =
          (Property.update t.line .notAMap name (changed append value) path e.properties).map
            Property.allLineless := by
      rw [Property.map_update _ _ _ _ _ (lineless_changed append value),
        Property.map_update _ _ _ _ _ (lineless_changed append value), hproperties]
    rcases cases_of_map_eq_map hupdate with ⟨cause, hx, hy⟩ | ⟨ps, qs, hx, hy, hpq⟩
    · simp only [hx, hy]
      exact .refused cause
    · simp only [hx, hy]
      exact .states _ _ ⟨h.scope, h.globals, h.conditionals, h.assigning, congrArg some hpq.symm⟩

theorem alike_writes (h : Alike s t) (ws : List Write) :
    AlikeResults (ws.foldlM State.write s) (ws.foldlM State.write t) := by
  induction ws generalizing s t with
  | nil => exact .states s t h
  | cons w ws ih =>
    rw [List.foldlM_cons, List.foldlM_cons]
    exact (alike_setProperty h).bind fun u v huv => ih huv

theorem alike_setGlobal (h : Alike s t) :
    AlikeResults (s.setGlobal name value append) (t.setGlobal name value append) := by
  unfold setGlobal
  rw [h.globals]
  generalize (if append then s.globals.lookup name else none) = known
  cases hc : changed true value (known.map fun kind => Value.var name kind) with
  | error cause =>
    simp only [hc]
    exact .refused cause
  | ok total =>
    simp only [hc]
    exact .states _ _ ⟨h.scope, rfl, h.conditionals, h.assigning, h.tree⟩

theorem alike_assignGlobal (h : Alike s t) :
    AlikeResults (s.assignGlobal name body append) (t.assignGlobal name body append) := by
  unfold assignGlobal
  rw [h.globals, h.scope]
  cases coerceList s.scope body with
  | error cause => exact .refused cause
  | ok list =>
    refine (alike_setGlobal h).bind fun u v huv => ?_
    rw [huv.scope]
    exact .states _ _ ⟨rfl, huv.globals, huv.conditionals, huv.assigning, huv.tree⟩

theorem alike_assign (h : Alike s t) :
    AlikeResults (s.assign name path body append) (t.assign name path body append) := by
  by_cases hg : Meaning.ofName name = .global
  · rw [assign_of_global hg, assign_of_global hg]
    exact alike_assignGlobal h
  · rw [assign_eq_writes hg, assign_eq_writes hg, h.scope]
    cases hw : writes s.scope name path body append with
    | error cause => exact .refused cause
    | ok ws => exact alike_writes h ws

theorem alike_assignOrReport (h : Alike s t) (place : Option Path) (a : Assignment) :
    Alike (s.assignOrReport quoted name place a) (t.assignOrReport quoted' name place a) := by
  have hassign : AlikeResults
      (s.assign name (place.getD []) a.value.body (a.op == .append))
      (t.assign name (place.getD []) a.value.body (a.op == .append)) := alike_assign h
  unfold assignOrReport
  revert hassign
  generalize s.assign name (place.getD []) a.value.body (a.op == .append) = x
  generalize t.assign name (place.getD []) a.value.body (a.op == .append) = y
  intro hassign
  cases hassign with
  | refused cause => exact h.diagnose _ _ _ _
  | states u v huv => exact huv

theorem alike_assignLocated (h : Alike s t) (suffix : Option Path) (a : Assignment) :
    Alike (s.assignLocated quoted name suffix a) (t.assignLocated quoted' name suffix a) := by
  unfold assignLocated
  rw [h.conditional?]
  split
  · exact alike_assignOrReport h _ a
  · exact alike_assignOrReport (h.diagnose _ _ _ _) _ a
  · split
    · exact alike_assignOrReport h _ a
    · exact h.diagnose _ _ _ _

/-- **An assignment keeps states alike.** -/
theorem alike_assignment (h : Alike s t) (a : Assignment) :
    Alike (s.assignment quoted a) (t.assignment quoted' a) := by
  unfold assignment
  split
  · exact h.diagnose _ _ _ _
  · split
    · exact h.diagnose _ _ _ _
    · split
      · exact h.diagnose _ _ _ _
      · split
        · exact alike_assignLocated h _ a
        · exact alike_assignLocated h none a

/-! ## Directives -/

theorem alike_openModule (h : Alike s t) :
    Alike (s.openModule options quoted) (t.openModule options' quoted') := by
  unfold openModule
  rw [dropModule_eq s, dropModule_eq t]
  exact ⟨h.scope, h.globals, h.conditionals, h.assigning, rfl⟩

theorem alike_disable (h : Alike s t) (path : Path) :
    Alike (s.disable quoted path) (t.disable quoted' path) := by
  have hset : AlikeResults (s.setProperty path enabledName (.bool false) false)
      (t.setProperty path enabledName (.bool false) false) := alike_setProperty h
  unfold disable
  revert hset
  generalize s.setProperty path enabledName (.bool false) false = x
  generalize t.setProperty path enabledName (.bool false) false = y
  intro hset
  cases hset with
  | refused cause => exact h.diagnose _ _ _ _
  | states u v huv => exact huv

theorem alike_disabled (h : Alike s t) : Alike (s.disabled quoted) (t.disabled quoted') := by
  have hpaths : t.otherPaths = s.otherPaths := congrArg (List.filterMap _) h.conditionals
  unfold disabled
  rw [hpaths]
  clear hpaths
  generalize s.otherPaths = paths
  induction paths generalizing s t with
  | nil => exact h
  | cons path paths ih => exact ih (alike_disable h path)

theorem alike_closeModule (h : Alike s t) (moduleType moduleType' : Text) :
    Alike (s.closeModule quoted moduleType) (t.closeModule quoted' moduleType') := by
  have hnone := h.isNone_draft
  have hs : Alike (s.disabled quoted) (t.disabled quoted') := alike_disabled h
  cases hds : s.draft with
  | none =>
    rw [hds] at hnone
    rw [closeModule_of_none _ _ hds, closeModule_of_none _ _ (Option.isNone_iff_eq_none.mp hnone)]
    exact h.diagnose _ _ _ _
  | some d =>
    rw [hds] at hnone
    have hdt : t.draft.isSome := by
      rw [← Option.not_isNone, hnone]
      rfl
    obtain ⟨d', -, hclose⟩ := closeModule_of_isSome quoted moduleType (by rw [hds]; rfl)
    obtain ⟨e', -, hclose'⟩ := closeModule_of_isSome quoted' moduleType' hdt
    rw [hclose, hclose']
    exact ⟨hs.scope, hs.globals, hs.conditionals, hs.assigning, rfl⟩

theorem alike_includeFile (h : Alike s t) (file : Phrase) :
    Alike (s.includeFile options quoted file) (t.includeFile options' quoted' file) := by
  unfold includeFile
  rw [h.scope]
  simp only
  split
  · exact alike_openModule h
  · split
    · exact alike_closeModule h _ _
    · exact h.diagnose _ _ _ _

theorem alike_beginConditional (h : Alike s t) (holds : Bool) (condition : Text) :
    Alike (s.beginConditional quoted holds condition)
      (t.beginConditional quoted' holds condition) := by
  unfold beginConditional
  rw [h.isNone_draft, h.assigning, h.conditionals]
  split
  · exact ⟨h.scope, h.globals, congrArg (· ++ [none]) h.conditionals, h.assigning, h.tree⟩
  · simp only
    split
    · exact ⟨h.scope, h.globals, rfl, rfl, h.tree⟩
    · split
      · exact ⟨h.scope, h.globals, rfl, rfl, h.tree⟩
      · exact ⟨h.scope, h.globals, rfl, rfl, h.tree⟩

theorem alike_otherBranch (h : Alike s t) :
    Alike (s.otherBranch quoted) (t.otherBranch quoted') := by
  unfold otherBranch
  rw [h.conditionals]
  split
  · exact h.diagnose _ _ _ _
  · exact h
  · exact ⟨h.scope, h.globals, rfl, h.assigning, h.tree⟩

theorem alike_endConditional (h : Alike s t) :
    Alike (s.endConditional quoted) (t.endConditional quoted') := by
  unfold endConditional
  rw [h.conditionals, h.assigning]
  split
  · exact h.diagnose _ _ _ _
  · exact ⟨h.scope, h.globals, rfl, rfl, h.tree⟩
  · exact ⟨h.scope, h.globals, rfl, rfl, h.tree⟩

/-- **A directive keeps states alike.** -/
theorem alike_directive (h : Alike s t) (d : Directive) :
    Alike (s.directive options quoted d) (t.directive options' quoted' d) := by
  unfold directive
  split
  · exact alike_includeFile h _
  · exact alike_includeFile h _
  · exact alike_includeFile h _
  · exact alike_beginConditional h _ _
  · exact alike_beginConditional h _ _
  · exact alike_beginConditional h _ _
  · exact alike_beginConditional h _ _
  · exact alike_otherBranch h
  · exact alike_endConditional h
  · exact h.diagnose _ _ _ _
  · exact h.diagnose _ _ _ _

/-! ## Steps and runs -/

/-- **Alike states take alike steps**, also in conversions with other options and sources. -/
theorem alike_step (h : Alike s t) (st : Statement) :
    Alike (s.step options source st) (t.step options' source' st) := by
  have hm : Alike (s.moveTo st.lines) (t.moveTo st.lines) := h.moveTo _ _
  unfold step
  simp only
  split
  · exact hm.comment _ _
  · exact alike_assignment hm _
  · exact alike_directive hm _
  · exact hm.diagnose _ _ _ _
  · exact hm.diagnose _ _ _ _

/-- **Alike states run alike.** -/
theorem alike_run (h : Alike s t) (sts : List Statement) :
    Alike (s.run options source sts) (t.run options' source' sts) := by
  induction sts generalizing s t with
  | nil => exact h
  | cons st sts ih => exact ih (alike_step h st)

/-- Alike states see the same events. -/
theorem events_of_alike (h : Alike s t) (sts : List Statement) :
    events options' source' t sts = events options source s sts := by
  induction sts generalizing s t with
  | nil => rfl
  | cons st sts ih =>
    rw [events, events, h.scope, ih (alike_step h st)]

end State

end MakeBlueprint.Conversion
