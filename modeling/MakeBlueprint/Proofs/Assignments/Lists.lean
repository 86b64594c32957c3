import MakeBlueprint.Proofs.Assignments.Accepted
import MakeBlueprint.Proofs.Coercion.Joining

/-!
# List variables and what make says of them

In make a variable has a value after every assignment to it. `=` and `:=` replace the value, `+=`
puts a text behind it, and `?=` only gives a value to a variable that has none (`Setting.value`,
`makeValue`). A module whose assignments all set list variables to constants gets list properties
from them:

* `follows_step`, `follows_run`: after every assignment the property of each variable is the list of
  the words of a value. It is the value that make gives the variable if `?=` is read as `:=`.
* `module_of_lists`: so it is in the module that is built. The property is there exactly when the
  variable is assigned, and it is the list of the words of make's value unless a `?=` comes behind
  another assignment to the variable.
-/

namespace MakeBlueprint.Conversion

open Blueprint (Kind Path Property Value)
open Blueprint.Property (find? leaf?)
open Makefile (AssignOp Phrase Scope Statement)

/-! ## Values in make -/

/-- **The assignment of a constant.** -/
structure Setting where
  name : Text
  op : AssignOp
  text : Text

namespace Setting

/-- The assignment of a constant to a variable with a literal name, and not for one target. -/
def of? (st : Statement) : Option Setting :=
  match st.content with
  | .assignment ⟨name, op, value, none⟩ => do
    let name ← name.constant?
    let text ← value.constant?
    some ⟨name, op, text⟩
  | _ => none

/-- **The value in make** of the variable that is assigned, from the value before, if it had
one. -/
def value (x : Setting) (old : Option Text) : Text :=
  match x.op, old with
  | .append, some old => old ++ ' ' :: x.text
  | .conditional, some old => old
  | _, _ => x.text

/-- The assignment with `?=` read as `:=`. -/
def unconditional (x : Setting) : Setting :=
  if x.op = .conditional then { x with op := .simple } else x

@[simp] theorem name_unconditional (x : Setting) : x.unconditional.name = x.name := by
  unfold unconditional
  split <;> rfl

theorem value_unconditional {x : Setting} {old : Option Text}
    (h : x.op = .conditional → old = none) : x.unconditional.value old = x.value old := by
  unfold unconditional
  split
  · next hop =>
    rw [h hop]
    unfold value
    rw [hop]
  · rfl

/-- A statement that assigns a constant is an assignment of that constant. -/
theorem assigns_of_of? {st : Statement} {x : Setting} (h : of? st = some x) :
    Assigns st x.name x.op (.ofText x.text) := by
  unfold of? at h
  split at h
  · next name op value hst =>
    obtain ⟨written, hwritten, h⟩ := Option.bind_eq_some_iff.mp h
    obtain ⟨text, htext, h⟩ := Option.bind_eq_some_iff.mp h
    cases h
    obtain ⟨namePos, nameBody⟩ := name
    obtain ⟨valuePos, valueBody⟩ := value
    have hname : nameBody = .ofText written := Phrase.Body.eq_ofText_of_constant? hwritten
    have hvalue : valueBody = .ofText text := Phrase.Body.eq_ofText_of_constant? htext
    subst hname hvalue
    exact ⟨namePos, valuePos, hst⟩
  · cases h

end Setting

/-- The values of variables after an assignment. -/
def settle? (x : Setting) (values : Text → Option Text) (name : Text) : Option Text :=
  if x.name = name then some (x.value (values name)) else values name

/-- **The value that make gives a variable**, if it gives it one. -/
def makeValue (name : Text) (xs : List Setting) (old : Option Text) : Option Text :=
  xs.foldl (fun old x => if x.name = name then some (x.value old) else old) old

variable {name property : Text} {x : Setting} {xs : List Setting} {old : Option Text}

theorem makeValue_cons (name : Text) (x : Setting) (xs : List Setting) (old : Option Text) :
    makeValue name (x :: xs) old =
      makeValue name xs (if x.name = name then some (x.value old) else old) :=
  rfl

/-- A variable has a value exactly when it had one or is assigned. -/
theorem makeValue_eq_none_iff :
    makeValue name xs old = none ↔ old = none ∧ ∀ x ∈ xs, x.name ≠ name := by
  induction xs generalizing old with
  | nil => simp [makeValue]
  | cons x xs ih =>
    rw [makeValue_cons, ih]
    by_cases hx : x.name = name <;> simp [hx]

/-- `?=` does what `:=` does on variables without a value. -/
theorem makeValue_unconditional
    (hfirst : ∀ x ∈ xs, x.name = name → x.op = .conditional → old = none)
    (hxs : xs.Pairwise fun y x => y.name = name → x.name = name → x.op ≠ .conditional) :
    makeValue name (xs.map Setting.unconditional) old = makeValue name xs old := by
  induction xs generalizing old with
  | nil => rfl
  | cons x xs ih =>
    obtain ⟨hbehind, hxs⟩ := List.pairwise_cons.mp hxs
    rw [List.map_cons, makeValue_cons, makeValue_cons, Setting.name_unconditional]
    by_cases hx : x.name = name
    · rw [if_pos hx, if_pos hx, Setting.value_unconditional (hfirst x List.mem_cons_self hx)]
      exact ih (fun y hy hname hop => absurd hop (hbehind y hy hx hname)) hxs
    · rw [if_neg hx, if_neg hx]
      exact ih (fun y hy => hfirst y (List.mem_cons_of_mem x hy)) hxs

/-! ## List variables -/

/-- **A list variable** that is written without a suffix, and its property. -/
structure IsListVariable (name property : Text) : Prop where
  meaning : Meaning.ofName name = .property property .list
  plain : (splitSuffix name).2 = none

/-- The literal list of the words of a text. -/
def listOf (t : Text) : Value := .list ((Text.words t).map .string)

namespace IsListVariable

theorem baseName_eq (h : IsListVariable name property) : State.baseName name = name := by
  unfold State.baseName
  split
  · rw [State.splitSuffix_of_none h.plain]
  · rfl

theorem suffixPath_eq (h : IsListVariable name property) : suffixPath name = [] := by
  unfold suffixPath
  split
  · rw [h.plain]
    rfl
  · rfl

theorem white_eq_false (h : IsListVariable name property) : name.any Text.isWhite = false := by
  have hrows : ∀ row ∈ standardProperties, row.2.2 = .list → row.1.any Text.isWhite = false := by
    decide +kernel
  exact hrows _ (mem_of_ofName_property h.meaning) rfl

theorem propertyKind?_eq (h : IsListVariable name property) : propertyKind? property = some .list :=
  propertyKind?_of_mem_standardProperties _ (mem_of_ofName_property h.meaning)

theorem ne_global (h : IsListVariable name property) :
    Meaning.ofName (State.baseName name) ≠ .global := by
  rw [h.baseName_eq, h.meaning]
  exact fun he => by cases he

/-- A constant is one write. -/
theorem writes_eq (h : IsListVariable name property) (scope : Scope) (text : Text)
    (append : Bool) :
    writes scope (State.baseName name) (suffixPath name) (.ofText text) append =
      .ok [⟨[], property, listOf text, append⟩] := by
  unfold writes
  rw [h.baseName_eq, h.suffixPath_eq, h.meaning]
  simp only [coerce, coerceList_ofText]
  rfl

/-- No two list variables share a property, and none has two. -/
theorem eq_iff_property_eq {other otherProperty : Text} (h : IsListVariable name property)
    (h' : IsListVariable other otherProperty) : name = other ↔ property = otherProperty := by
  constructor
  · rintro rfl
    have hmeaning := h.meaning.symm.trans h'.meaning
    cases hmeaning
    rfl
  · rintro rfl
    have hnodup : ((standardProperties.filter fun row => row.2.2 = .list).map
        fun row => row.2.1).Nodup := by
      decide +kernel
    have hrow : ∀ {n}, IsListVariable n property →
        (n, property, Kind.list) ∈ standardProperties.filter fun row => row.2.2 = .list :=
      fun hn => List.mem_filter.mpr ⟨mem_of_ofName_property hn.meaning, rfl⟩
    exact congrArg Prod.fst (List.inj_on_of_nodup_map hnodup (hrow h) (hrow h') rfl)

end IsListVariable

/-- **A list property follows make**, where `?=` is read as `:=`. -/
theorem changed_listOf (x : Setting) (old : Option Text) :
    State.changed (x.op == .append) (listOf x.text) (old.map listOf) =
      .ok (listOf (x.unconditional.value old)) := by
  obtain ⟨name, op, text⟩ := x
  cases old with
  | none => cases op <;> rfl
  | some old =>
    cases op with
    | append =>
      have hlist : listOf (old ++ ' ' :: text) =
          .list ((Text.words old).map .string ++ (Text.words text).map .string) := by
        unfold listOf
        rw [Text.words_append_cons (by decide), List.map_append]
      change (add (listOf old) (listOf text)).mapError Refusal.unsupportedAddition =
        .ok (listOf (old ++ ' ' :: text))
      rw [hlist]
      rfl
    | recursive | simple | conditional => rfl

namespace State

variable {s t : State} {st : Statement} {options : Options} {source : Text}
  {values : Text → Option Text}

/-! ## Assignments inside a module -/

/-- **The open module of `s` follows the values of list variables.** Everything else that matters
is as in the state `t`. -/
structure Follows (values : Text → Option Text) (t s : State) : Prop where
  isOpen : s.draft.isSome = true
  level : TypedLevel [] s.openProperties
  conditional : s.conditional? = none
  scope : s.scope = t.scope
  modules : s.file.modules = t.file.modules
  values : ∀ name property, IsListVariable name property →
    leaf? [property] s.openProperties = (values name).map listOf

/-- One assignment. -/
theorem follows_step (h : Follows values t s) (hst : Setting.of? st = some x)
    (hx : IsListVariable x.name property) :
    Follows (settle? x.unconditional values) t (s.step options source st) := by
  obtain ⟨d, hd⟩ := Option.isSome_iff_exists.mp h.isOpen
  have hopen : s.openProperties = d.properties := openProperties_of_draft hd
  have hlevel : TypedLevel [] d.properties := hopen ▸ h.level
  have hws := hx.writes_eq s.scope x.text (x.op == .append)
  have hw := typed_of_writes (suffixPath_mem x.name) hws _ (List.mem_singleton_self _)
  have hsum : ∀ w ∈ [(⟨[], property, listOf x.text, x.op == .append⟩ : Write)],
      w.append = true → w.value.kind ≠ .bool := by
    intro w hmem _ hb
    rw [List.mem_singleton.mp hmem] at hb
    cases hb
  obtain ⟨ps, hmade⟩ : ∃ ps, Makes options source s st _ d ps :=
    exists_makes hd hlevel h.conditional hx.ne_global (Setting.assigns_of_of? hst)
      hx.white_eq_false hws hsum
  have hps := hmade.writes
  rw [intoAll_singleton] at hps
  have hnew : TypedLevel [] ps := typedLevel_into hlevel hw hps
  obtain ⟨v, hv, hleaf⟩ := leaf?_into hlevel hw hps
  have hleaf : ∀ q, leaf? q ps = if q = [property] then some v else leaf? q d.properties := hleaf
  have hvalue : v = listOf (x.unconditional.value (values x.name)) := by
    have hchanged := changed_listOf x (values x.name)
    rw [← h.values x.name property hx, hopen] at hchanged
    exact Except.ok.inj (hv.symm.trans hchanged)
  refine ⟨by rw [hmade.draft]; rfl, hmade.openProperties ▸ hnew,
    hmade.conditional?.trans h.conditional, hmade.scope.trans h.scope,
    hmade.modules.trans h.modules, ?_⟩
  intro name other hother
  rw [hmade.openProperties, hleaf]
  unfold settle?
  rw [Setting.name_unconditional]
  by_cases hname : x.name = name
  · rw [if_pos hname, ← hname, ← (hx.eq_iff_property_eq hother).mp hname, if_pos rfl, hvalue]
    rfl
  · have hne : [other] ≠ [property] := fun he =>
      hname ((hx.eq_iff_property_eq hother).mpr (List.cons.inj he).1.symm)
    rw [if_neg hname, ← h.values name other hother, hopen, if_neg hne]

/-- **The assignments of a module**, one after the other. -/
theorem follows_run {body : List Statement} (h : Follows values t s)
    (hbody : body.mapM Setting.of? = some xs)
    (hlists : ∀ x ∈ xs, ∃ property, IsListVariable x.name property) :
    Follows (fun name => makeValue name (xs.map Setting.unconditional) (values name)) t
      (s.run options source body) := by
  induction body generalizing s values xs with
  | nil =>
    cases hbody
    exact h
  | cons st body ih =>
    rw [List.mapM_cons] at hbody
    obtain ⟨x, hx, hbody⟩ := Option.bind_eq_some_iff.mp hbody
    obtain ⟨rest, hrest, hbody⟩ := Option.bind_eq_some_iff.mp hbody
    cases hbody
    obtain ⟨property, hproperty⟩ := hlists x List.mem_cons_self
    have hstep : Follows _ t (s.step options source st) := follows_step h hx hproperty
    have hrun := ih hstep hrest fun y hy => hlists y (List.mem_cons_of_mem x hy)
    exact hrun

/-! ## Whole modules -/

/-- A module that has just begun follows variables without values. -/
theorem follows_openModule (hcond : s.conditional? = none) (quoted : Text) :
    Follows (fun _ => none) s (s.openModule options quoted) where
  isOpen := by
    rw [draft_openModule]
    rfl
  level := by
    rw [openProperties_of_draft draft_openModule]
    exact typedLevel_nil []
  conditional := by
    unfold openModule
    rw [dropModule_eq]
    exact hcond
  scope := by
    unfold openModule
    rw [dropModule_eq]
  modules := modules_dropModule s options
  values name property _ := by
    rw [openProperties_of_draft draft_openModule]
    exact Property.leaf?_nil _

/-- Switching the open module off changes nothing but switches. -/
theorem find?_disabled {sts : List Statement} {kind : Kind} (quoted : Text) (hs : Sound sts s)
    (hkind : propertyKind? property = some kind) (hne : kind ≠ .bool) :
    find? [property] (s.disabled quoted).openProperties = find? [property] s.openProperties := by
  refine (disabled_keeps (P := fun t => Sound sts t ∧
    find? [property] t.openProperties = find? [property] s.openProperties) ⟨hs, rfl⟩ ?_).2
  rintro t ⟨ht, hsame⟩ path hpath
  have hbranch := hs.frames.mem_branchPaths_of_mem_otherPaths path hpath
  refine ⟨ht.disable hbranch, ?_⟩
  rw [← hsame]
  unfold disable
  split
  · next u hu =>
    have hother : [] ++ [property] ≠ path ++ [enabledName] := by
      intro he
      have hlast := congrArg List.getLast? he
      rw [List.getLast?_concat, List.getLast?_concat] at hlast
      rw [Option.some.inj hlast, propertyKind?_enabledName] at hkind
      exact hne (Option.some.inj hkind).symm
    have hkept : find? ([] ++ [property]) u.openProperties =
        find? ([] ++ [property]) t.openProperties :=
      find?_write_of_ne ht (typed_disable hbranch) hu hkind hother
    exact hkept
  · rfl

/-- A module that follows list variables is built with their values. -/
theorem module_of_follows {sts : List Statement} {last : Statement} {moduleType : Text}
    (h : Follows values t s) (hs : Sound sts s)
    (hlast : ModuleEvent.of? t.scope last.content = some (.builds moduleType)) :
    ∃ m, (s.step options source last).file.modules = t.file.modules ++ [m] ∧
      m.moduleType = moduleType ∧
      ∀ name property, IsListVariable name property →
        (find? [property] m.properties).map Property.value = (values name).map listOf := by
  rw [← h.scope] at hlast
  obtain ⟨d, hd⟩ := Option.isSome_iff_exists.mp h.isOpen
  have hmoved : (s.moveTo last.lines).draft = some d := hd
  obtain ⟨ps, hps, hmodules⟩ :
      ∃ properties, ((s.moveTo last.lines).disabled (last.quote source)).draft =
          some { d with properties } ∧
        ((s.moveTo last.lines).closeModule (last.quote source) moduleType).file.modules =
          s.file.modules ++ [⟨moduleType, properties, d.line, (s.moveTo last.lines).line⟩] :=
    modules_closeModule hmoved
  refine ⟨⟨moduleType, ps, d.line, (s.moveTo last.lines).line⟩, ?_, rfl, ?_⟩
  · rw [step_of_builds hlast, hmodules, h.modules]
  · intro name property hvariable
    have hkept := find?_disabled (last.quote source) (hs.moveTo last.lines)
      hvariable.propertyKind?_eq (by decide)
    have hleaf : leaf? ([] ++ [property]) s.openProperties = _ :=
      h.level.leaf?_eq hvariable.propertyKind?_eq
    rw [openProperties_of_draft hps] at hkept
    rw [← h.values name property hvariable, hkept]
    exact hleaf.symm

/-- **List variables get what make gives them.** A module is begun where no conditional is in force,
constants are assigned to list variables, and the module is built. Then the property of each list
variable is the list of the words of its value in make with `?=` read as `:=`, and is missing if and
only if the variable is never assigned. So it is the list of the words of its value in make, if no
`?=` comes behind another assignment to the variable. -/
theorem module_of_lists (hs : Reachable options source s) (hcond : s.conditional? = none)
    {first last : Statement} {body : List Statement} {moduleType : Text}
    (hfirst : ModuleEvent.of? s.scope first.content = some .opens)
    (hbody : body.mapM Setting.of? = some xs)
    (hlists : ∀ x ∈ xs, ∃ property, IsListVariable x.name property)
    (hlast : ModuleEvent.of? s.scope last.content = some (.builds moduleType)) :
    ∃ m, (s.run options source (first :: body ++ [last])).file.modules = s.file.modules ++ [m] ∧
      m.moduleType = moduleType ∧
      ∀ name property, IsListVariable name property →
        (find? [property] m.properties).map Property.value =
            (makeValue name (xs.map Setting.unconditional) none).map listOf ∧
          (find? [property] m.properties = none ↔ ∀ x ∈ xs, x.name ≠ name) ∧
          ((xs.Pairwise fun y x => y.name = name → x.name = name → x.op ≠ .conditional) →
            (find? [property] m.properties).map Property.value =
              (makeValue name xs none).map listOf) := by
  obtain ⟨sts, hsts⟩ := hs
  have hmoved : (s.moveTo first.lines).conditional? = none := hcond
  have hbegun : Follows (fun _ => none) (s.moveTo first.lines)
      ((s.moveTo first.lines).openModule options (first.quote source)) :=
    follows_openModule hmoved (first.quote source)
  rw [← step_of_opens hfirst] at hbegun
  have hrun : Follows _ _ ((s.step options source first).run options source body) :=
    follows_run hbegun hbody hlists
  have hreached : (s.step options source first).run options source body =
      start.run options source (sts ++ first :: body) := by
    rw [run_append, ← hsts]
    rfl
  have hall : s.run options source (first :: body ++ [last]) =
      ((s.step options source first).run options source body).step options source last :=
    run_append _ _
  have hsound : Sound (sts ++ first :: body) (start.run options source (sts ++ first :: body)) :=
    sound_run (sound_start _)
  rw [← hreached] at hsound
  obtain ⟨m, hm, htype, hvalues⟩ := module_of_follows hrun hsound hlast
  refine ⟨m, by rw [hall]; exact hm, htype, fun name property hvariable => ?_⟩
  have hvalue := hvalues name property hvariable
  refine ⟨hvalue, ?_, fun hxs => ?_⟩
  · have hnone : find? [property] m.properties = none ↔
        makeValue name (xs.map Setting.unconditional) none = none := by
      rw [← Option.map_eq_none_iff (f := Property.value), hvalue, Option.map_eq_none_iff]
    rw [hnone, makeValue_eq_none_iff]
    simp
  · rw [hvalue, makeValue_unconditional (fun _ _ _ _ => rfl) hxs]

/-- In make `?=` leaves the flags as they are; in the module it replaces them. -/
theorem module_of_lists_replaced :
    let name : Text := "LOCAL_CFLAGS"
    let body := [assigned name .simple (.ofText ['a']), assigned name .conditional (.ofText ['b'])]
    ∃ m, (start.run {} [] (beginning :: body ++ [building])).file.modules = [m] ∧
      (find? ["cflags"] m.properties).map Property.value = some (.list [.string ['b']]) ∧
      makeValue name [⟨name, .simple, ['a']⟩, ⟨name, .conditional, ['b']⟩] none = some ['a'] := by
  intro name body
  have hvariable : IsListVariable name "cflags" := ⟨by decide +kernel, by decide +kernel⟩
  have hbody : body.mapM Setting.of? =
      some [⟨name, .simple, ['a']⟩, ⟨name, .conditional, ['b']⟩] := rfl
  have hlists : ∀ x ∈ [(⟨name, .simple, ['a']⟩ : Setting), ⟨name, .conditional, ['b']⟩],
      ∃ property, IsListVariable x.name property := by
    intro x hx
    rcases List.mem_cons.mp hx with rfl | hx
    · exact ⟨_, hvariable⟩
    · rw [List.mem_singleton.mp hx]
      exact ⟨_, hvariable⟩
  have hstart : Reachable {} [] start := ⟨[], rfl⟩
  have hopens : ModuleEvent.of? start.scope beginning.content = some .opens := rfl
  have hbuilds : ModuleEvent.of? start.scope building.content =
      some (.builds "cc_binary") := rfl
  obtain ⟨m, hm, -, hvalues⟩ := module_of_lists hstart rfl hopens hbody hlists hbuilds
  have hread : ∀ v : Text, makeValue v (List.map Setting.unconditional
      [⟨v, .simple, ['a']⟩, ⟨v, .conditional, ['b']⟩]) none = some ['b'] :=
    fun v => by simp [makeValue, Setting.value, Setting.unconditional]
  have hmake : ∀ v : Text,
      makeValue v [⟨v, .simple, ['a']⟩, ⟨v, .conditional, ['b']⟩] none = some ['a'] :=
    fun v => by simp [makeValue, Setting.value]
  refine ⟨m, hm, (hvalues name "cflags" hvariable).1.trans ?_, hmake name⟩
  rw [hread name]
  rfl

end State

end MakeBlueprint.Conversion
