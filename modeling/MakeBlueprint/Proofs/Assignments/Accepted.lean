import MakeBlueprint.Proofs.Typing.Leaves

/-!
# Assignments to the open module

An assignment that stands under no conditional makes its writes under the path of its suffix. It is
accepted when it reports no problem (`Accepts`).

* `single_or_kind_ne_bool`: of several writes only the first can be refused.
* `step_of_assigns`: what such an assignment does.
* `exists_makes_of_accepts`, `exists_makes`: when it is accepted, it makes its writes into the tree
  of the open module and changes nothing else (`Makes`).
-/

namespace MakeBlueprint.Conversion

open Blueprint (Path Property Value)
open Makefile (AssignOp Phrase Scope Statement)

/-- **A statement assigns** a body to a variable, and not for one target. -/
def Assigns (st : Statement) (written : Text) (op : AssignOp) (body : Phrase.Body) : Prop :=
  ∃ namePos valuePos,
    st.content = .assignment ⟨.ofText namePos written, op, ⟨valuePos, body⟩, none⟩

/-- The assignment of a body, on no lines. -/
def assigned (written : Text) (op : AssignOp) (body : Phrase.Body) : Statement :=
  aside (.assignment ⟨.ofText 0 written, op, ⟨0, body⟩, none⟩)

theorem assigns_assigned (written : Text) (op : AssignOp) (body : Phrase.Body) :
    Assigns (assigned written op body) written op body :=
  ⟨0, 0, rfl⟩

/-- The path of the suffix of a variable, if it has one. -/
def suffixPath (written : Text) : Path :=
  if isLocalName written then (splitSuffix written).2.getD [] else []

theorem suffixPath_mem (written : Text) : suffixPath written ∈ propertyPaths := by
  unfold suffixPath
  split
  · cases h : (splitSuffix written).2 with
    | none => exact List.mem_cons_self
    | some path =>
      exact List.mem_append_left _ (List.mem_append_left _
        (List.mem_cons_of_mem _ (State.mem_suffixes_of_splitSuffix h)))
  · exact List.mem_cons_self

/-! ## Writes that append -/

section Appending

variable {scope : Scope} {name : Text} {path : Path} {body : Phrase.Body} {append : Bool}
  {ws : List Write}

theorem append_of_mem_listWrites {value : Value} {w : Write}
    (h : w ∈ listWrites path name value append) : w.append = append := by
  rw [eq_of_mem_listWrites h]

theorem append_of_mem_hostWrites {items : List Value} {w : Write} (h : w ∈ hostWrites items) :
    w.append = false := by
  obtain ⟨system, -, on, rfl⟩ := exists_system_of_mem_hostWrites h
  rfl

theorem append_of_mem_directoryWrites {own others : Value} {ownName othersName : Text} {w : Write}
    (h : w ∈ directoryWrites path ownName othersName own others append append) :
    w.append = append := by
  rcases eq_of_mem_directoryWrites h with rfl | rfl
  · rfl
  · rfl

/-- The writes of directories are writes of lists. -/
theorem kind_of_mem_directoryWrites {own others : Value} {ownName othersName : Text}
    {append' : Bool} {w : Write} (ho : own.kind = .list) (hr : others.kind = .list)
    (h : w ∈ directoryWrites path ownName othersName own others append append') :
    w.value.kind = .list := by
  rcases eq_of_mem_directoryWrites h with rfl | rfl
  · exact ho
  · exact hr

/-- **Only the variables of booleans add up booleans.** -/
theorem kind_ne_bool_of_writes (hbool : ∀ property, Meaning.ofName name ≠ .property property .bool)
    (h : writes scope name path body append = .ok ws) :
    ∀ w ∈ ws, w.append = true → w.value.kind ≠ .bool := by
  have hne : ∀ {v : Value} {kind}, v.kind = kind → kind ≠ .bool → v.kind ≠ .bool := by
    rintro v kind rfl hk
    exact hk
  intro w hw happend
  cases writesCase_of_writes h with
  | dropped => exact absurd hw List.not_mem_nil
  | armMode value hm hvalue =>
    rw [List.mem_singleton.mp hw]
    exact hne (has_coerceString hvalue).2 (by decide)
  | property property kind value hm hvalue =>
    rw [List.mem_singleton.mp hw]
    have hmap := kind_ne_map_of_mem_standardProperties _ (mem_of_ofName_property hm)
    refine hne (has_coerce hmap hvalue).2 ?_
    rintro rfl
    exact hbool property hm
  | localIncludeDirs value own others hm hvalue hparts
  | exportIncludeDirs value own others hm hvalue hparts =>
    obtain ⟨hown, hothers⟩ := has_parts_of_coerceList hvalue hparts
    exact hne (kind_of_mem_directoryWrites hown.2 hothers.2 hw) (by decide)
  | stem value hm hvalue =>
    rw [List.mem_singleton.mp hw]
    exact hne (has_stemProperty (has_coerceString hvalue)).2.2 (by decide)
  | hostOs items =>
    rw [append_of_mem_hostWrites hw] at happend
    cases happend

/-- **An assignment is one write, or none of its writes adds up booleans.** -/
theorem single_or_kind_ne_bool (h : writes scope name path body append = .ok ws) :
    (∃ w, ws = [w] ∧ w.append = append) ∨
      ∀ w ∈ ws, w.append = true → w.value.kind ≠ .bool := by
  by_cases hbool : ∃ property, Meaning.ofName name = .property property .bool
  · obtain ⟨property, hm⟩ := hbool
    unfold writes at h
    rw [hm] at h
    obtain ⟨value, -, h⟩ := bind_eq_ok h
    cases h
    exact Or.inl ⟨_, rfl, rfl⟩
  · exact Or.inr (kind_ne_bool_of_writes (fun property hm => hbool ⟨property, hm⟩) h)

end Appending

namespace State

variable {s t : State} {d : Draft} {st : Statement} {written : Text} {op : AssignOp}
  {body : Phrase.Body} {options : Options} {source : Text} {ws : List Write}
  {properties : List Property}

/-- Inside a module that has just begun. -/
def justBegun : State := start.run {} [] [beginning]

theorem draft_justBegun : justBegun.draft = some ⟨[], 1, beginning.quote []⟩ := rfl

theorem conditional?_justBegun : justBegun.conditional? = none := rfl

/-- **A statement is accepted**: converting it reports no problem. -/
def Accepts (options : Options) (source : Text) (s : State) (st : Statement) : Prop :=
  (s.step options source st).file.comments = s.file.comments

/-- A problem that is reported is seen. -/
theorem comments_diagnose_ne (s : State) (quoted : Text) (problem : Problem) :
    (s.diagnose quoted problem).file.comments ≠ s.file.comments := by
  change s.file.comments ++ [_] ≠ s.file.comments
  simp

theorem step_of_white (h : Assigns st written op body) (hwhite : written.any Text.isWhite = true) :
    s.step options source st = (s.moveTo st.lines).diagnose (st.quote source) .spacedVariable := by
  obtain ⟨namePos, valuePos, hst⟩ := h
  have hname : (Phrase.ofText namePos written).constant? = some written :=
    Phrase.Body.constant?_ofText written
  rw [step_of_assignment hst]
  unfold assignment
  simp only [Option.isSome_none, Bool.false_eq_true, if_false, hname, hwhite, if_true]

/-- **An assignment under no conditional** hands its value on under the path of its suffix. -/
theorem step_of_assigns (h : Assigns st written op body) (hcond : s.conditional? = none)
    (hwhite : written.any Text.isWhite = false) :
    s.step options source st =
      match (s.moveTo st.lines).assign (baseName written) (suffixPath written) body
        (op == .append) with
      | .ok t => t
      | .error cause => (s.moveTo st.lines).diagnose (st.quote source) (.refused cause) := by
  obtain ⟨namePos, valuePos, hst⟩ := h
  have hname : (Phrase.ofText namePos written).constant? = some written :=
    Phrase.Body.constant?_ofText written
  have hmoved : (s.moveTo st.lines).conditional? = none := hcond
  rw [step_of_assignment hst]
  unfold assignment baseName suffixPath
  simp only [Option.isSome_none, Bool.false_eq_true, if_false, hname, hwhite]
  split
  · unfold assignLocated
    rw [hmoved, ite_self]
    rfl
  · unfold assignLocated
    rw [hmoved, ite_self]
    rfl

theorem white_eq_false_of_accepts (h : Assigns st written op body)
    (haccepts : Accepts options source s st) : written.any Text.isWhite = false := by
  cases hwhite : written.any Text.isWhite with
  | false => rfl
  | true =>
    unfold Accepts at haccepts
    rw [step_of_white h hwhite] at haccepts
    exact absurd haccepts (comments_diagnose_ne _ _ _)

/-- **An assignment is made**: its writes go into the tree of the open module, and nothing else
changes. -/
structure Makes (options : Options) (source : Text) (s : State) (st : Statement) (ws : List Write)
    (d : Draft) (properties : List Property) : Prop where
  writes : intoAll (s.moveTo st.lines).line ws d.properties = .ok properties
  step : s.step options source st = { s.moveTo st.lines with draft := some { d with properties } }

section Makes

variable (h : Makes options source s st ws d properties)
include h

theorem Makes.accepts : Accepts options source s st := by
  unfold Accepts
  rw [h.step]
  rfl

theorem Makes.draft : (s.step options source st).draft = some { d with properties } := by
  rw [h.step]

theorem Makes.openProperties : (s.step options source st).openProperties = properties :=
  openProperties_of_draft h.draft

theorem Makes.conditional? : (s.step options source st).conditional? = s.conditional? := by
  rw [h.step]
  rfl

theorem Makes.scope : (s.step options source st).scope = s.scope := by
  rw [h.step]
  rfl

theorem Makes.modules : (s.step options source st).file.modules = s.file.modules := by
  rw [h.step]
  rfl

end Makes

/-- **What is accepted is made.** -/
theorem exists_makes_of_accepts (hd : s.draft = some d) (hcond : s.conditional? = none)
    (hname : Meaning.ofName (baseName written) ≠ .global) (h : Assigns st written op body)
    (haccepts : Accepts options source s st) :
    ∃ ws properties,
      writes s.scope (baseName written) (suffixPath written) body (op == .append) = .ok ws ∧
        Makes options source s st ws d properties := by
  have hstep : s.step options source st = _ :=
    step_of_assigns h hcond (white_eq_false_of_accepts h haccepts)
  cases ha : (s.moveTo st.lines).assign (baseName written) (suffixPath written) body
      (op == .append) with
  | error cause =>
    rw [ha] at hstep
    unfold Accepts at haccepts
    rw [hstep] at haccepts
    exact absurd haccepts (comments_diagnose_ne _ _ _)
  | ok t =>
    rw [ha] at hstep
    rw [assign_eq_writes hname] at ha
    obtain ⟨ws, hws, hwrite⟩ := bind_eq_ok ha
    have hmoved : (s.moveTo st.lines).draft = some d := hd
    rw [foldlM_write hmoved] at hwrite
    obtain ⟨properties, hp, rfl⟩ := Property.map_eq_ok hwrite
    exact ⟨ws, properties, hws, hp, hstep⟩

/-- **In a typed tree all writes are made** that add up no booleans. -/
theorem exists_makes (hd : s.draft = some d) (hlevel : TypedLevel [] d.properties)
    (hcond : s.conditional? = none) (hname : Meaning.ofName (baseName written) ≠ .global)
    (h : Assigns st written op body) (hwhite : written.any Text.isWhite = false)
    (hws : writes s.scope (baseName written) (suffixPath written) body (op == .append) = .ok ws)
    (hsum : ∀ w ∈ ws, w.append = true → w.value.kind ≠ .bool) :
    ∃ properties, Makes options source s st ws d properties := by
  have hmoved : (s.moveTo st.lines).draft = some d := hd
  have hscope : (s.moveTo st.lines).scope = s.scope := rfl
  obtain ⟨properties, hp⟩ := exists_intoAll (s.moveTo st.lines).line hlevel
    (typed_of_writes (suffixPath_mem written) hws) hsum
  refine ⟨properties, hp, ?_⟩
  rw [step_of_assigns h hcond hwhite, assign_eq_writes hname, hscope, hws]
  change (match ws.foldlM State.write (s.moveTo st.lines) with
    | .ok t => t
    | .error cause => (s.moveTo st.lines).diagnose (st.quote source) (.refused cause)) = _
  rw [foldlM_write hmoved, hp]
  rfl

end State

end MakeBlueprint.Conversion
