import MakeBlueprint.Conversion.Assignment
import MakeBlueprint.Proofs.Except

/-!
# The property writes of an assignment

An assignment to a module variable does two things. It finds out from its text and the scope alone
which properties it writes (`writes`), and then it writes them one after the other
(`State.write`). `assign_eq_writes` takes `State.assign` apart in this way, so what it does to a
module is said once for each write and not once for each variable. What the writes can be is said
once for each kind of variable (`WritesCase`).
-/

namespace MakeBlueprint.Conversion

open Blueprint (Kind Path Value)
open Makefile (Phrase Scope)

/-- A property that an assignment writes. -/
structure Write where
  path : Path
  name : Text
  value : Value
  append : Bool

/-- Makes a write. -/
def State.write (s : State) (w : Write) : Except Refusal State :=
  s.setProperty w.path w.name w.value w.append

/-- The write of a list property, of which there is none for the empty list. -/
def listWrites (path : Path) (name : Text) (value : Value) (append : Bool) : List Write :=
  if isEmptyList value then [] else [⟨path, name, value, append⟩]

theorem eq_of_mem_listWrites {path : Path} {name : Text} {value : Value} {append : Bool} {w : Write}
    (h : w ∈ listWrites path name value append) : w = ⟨path, name, value, append⟩ := by
  unfold listWrites at h
  split at h
  · exact absurd h List.not_mem_nil
  · exact List.mem_singleton.mp h

/-- The writes of directories: those of the module, and the others. -/
def directoryWrites (path : Path) (ownName othersName : Text) (own others : Value)
    (append append' : Bool) : List Write :=
  listWrites path ownName own append ++ listWrites path othersName others append'

theorem eq_of_mem_directoryWrites {path : Path} {ownName othersName : Text} {own others : Value}
    {append append' : Bool} {w : Write}
    (h : w ∈ directoryWrites path ownName othersName own others append append') :
    w = ⟨path, ownName, own, append⟩ ∨ w = ⟨path, othersName, others, append'⟩ :=
  (List.mem_append.mp h).imp eq_of_mem_listWrites eq_of_mem_listWrites

/-- The write that switches a module on or off for a host system. -/
def enabledWrite (system : Text) (on : Bool) : Write :=
  ⟨["target", system], State.enabledName, .bool on, false⟩

/-- The writes of a list of host systems. -/
def hostWrites (items : List Value) : List Write :=
  (if State.lists items "windows" then [enabledWrite "windows" true] else []) ++
    (if State.lists items "linux" then [] else [enabledWrite "linux" false]) ++
      if State.lists items "darwin" then [] else [enabledWrite "darwin" false]

/-- The host systems that a module is switched on and off for. -/
def hostSystems : List Text := ["windows".toList, "linux".toList, "darwin".toList]

theorem exists_system_of_mem_hostWrites {items : List Value} {w : Write}
    (h : w ∈ hostWrites items) : ∃ system ∈ hostSystems, ∃ on, w = enabledWrite system on := by
  unfold hostWrites at h
  rcases List.mem_append.mp h with h | h
  · rcases List.mem_append.mp h with h | h
    · split at h
      · exact ⟨"windows", by decide, true, List.mem_singleton.mp h⟩
      · exact absurd h List.not_mem_nil
    · split at h
      · exact absurd h List.not_mem_nil
      · exact ⟨"linux", by decide, false, List.mem_singleton.mp h⟩
  · split at h
    · exact absurd h List.not_mem_nil
    · exact ⟨"darwin", by decide, false, List.mem_singleton.mp h⟩

/-- The writes of a variable that takes more than a change of name. -/
def specialWrites (scope : Scope) (path : Path) (body : Phrase.Body) (append : Bool) :
    Special → Except Refusal (List Write)
  | .localIncludeDirs => do
    let value ← coerceList scope body
    let (own, others) ← partition value
    .ok (listWrites path "local_include_dirs" own append ++
      listWrites path "include_dirs" others append)
  | .exportIncludeDirs => do
    let value ← coerceList scope body
    let (own, others) ← partition value
    .ok (listWrites path "export_include_dirs" own append ++
      listWrites path "export_include_dirs" others (append || !isEmptyList own))
  | .stem => do
    let value ← coerceString scope body
    .ok [⟨path, (State.stemProperty value).1, (State.stemProperty value).2, append⟩]
  | .hostOs => do
    let value ← coerceList scope body
    match value with
    | .list items => .ok (hostWrites items)
    | _ => .error (.unsupportedHostOs body.dump)

/-- **The writes of an assignment to a module variable.** They depend on the scope and on nothing
else of a state. -/
def writes (scope : Scope) (name : Text) (path : Path) (body : Phrase.Body) (append : Bool) :
    Except Refusal (List Write) :=
  match Meaning.ofName name with
  | .dropped => .ok []
  | .armMode => do
    let value ← coerceString scope body
    .ok [⟨armPath, armModeProperty, value, append⟩]
  | .property property kind => do
    let value ← coerce scope kind body
    .ok [⟨path, property, value, append⟩]
  | .special special => specialWrites scope path body append special
  | .unsupported | .global => .error (.unsupportedAssignment name)

/-! ## What can be written -/

/-- **What an assignment writes**, for each kind of variable. -/
inductive WritesCase (scope : Scope) (name : Text) (path : Path) (body : Phrase.Body)
    (append : Bool) : List Write → Prop
  | dropped (hm : Meaning.ofName name = .dropped) : WritesCase scope name path body append []
  | armMode (value : Value) (hm : Meaning.ofName name = .armMode)
      (hvalue : coerceString scope body = .ok value) :
      WritesCase scope name path body append [⟨armPath, armModeProperty, value, append⟩]
  | property (property : Text) (kind : Kind) (value : Value)
      (hm : Meaning.ofName name = .property property kind)
      (hvalue : coerce scope kind body = .ok value) :
      WritesCase scope name path body append [⟨path, property, value, append⟩]
  | localIncludeDirs (value own others : Value)
      (hm : Meaning.ofName name = .special .localIncludeDirs)
      (hvalue : coerceList scope body = .ok value) (hparts : partition value = .ok (own, others)) :
      WritesCase scope name path body append
        (directoryWrites path "local_include_dirs" "include_dirs" own others append append)
  | exportIncludeDirs (value own others : Value)
      (hm : Meaning.ofName name = .special .exportIncludeDirs)
      (hvalue : coerceList scope body = .ok value) (hparts : partition value = .ok (own, others)) :
      WritesCase scope name path body append
        (directoryWrites path "export_include_dirs" "export_include_dirs" own others append
          (append || !isEmptyList own))
  | stem (value : Value) (hm : Meaning.ofName name = .special .stem)
      (hvalue : coerceString scope body = .ok value) :
      WritesCase scope name path body append
        [⟨path, (State.stemProperty value).1, (State.stemProperty value).2, append⟩]
  | hostOs (items : List Value) (hm : Meaning.ofName name = .special .hostOs)
      (hvalue : coerceList scope body = .ok (.list items)) :
      WritesCase scope name path body append (hostWrites items)

section Cases

variable {scope : Scope} {name : Text} {path : Path} {body : Phrase.Body} {append : Bool}
  {ws : List Write}

theorem writesCase_of_writes (h : writes scope name path body append = .ok ws) :
    WritesCase scope name path body append ws := by
  unfold writes at h
  split at h
  · next hm =>
    cases h
    exact .dropped hm
  · next hm =>
    obtain ⟨value, hvalue, h⟩ := bind_eq_ok h
    cases h
    exact .armMode value hm hvalue
  · next property kind hm =>
    obtain ⟨value, hvalue, h⟩ := bind_eq_ok h
    cases h
    exact .property property kind value hm hvalue
  · next special hm =>
    cases special with
    | localIncludeDirs =>
      obtain ⟨value, hvalue, h⟩ := bind_eq_ok h
      obtain ⟨⟨own, others⟩, hparts, h⟩ := bind_eq_ok h
      cases h
      exact .localIncludeDirs value own others hm hvalue hparts
    | exportIncludeDirs =>
      obtain ⟨value, hvalue, h⟩ := bind_eq_ok h
      obtain ⟨⟨own, others⟩, hparts, h⟩ := bind_eq_ok h
      cases h
      exact .exportIncludeDirs value own others hm hvalue hparts
    | stem =>
      obtain ⟨value, hvalue, h⟩ := bind_eq_ok h
      cases h
      exact .stem value hm hvalue
    | hostOs =>
      obtain ⟨value, hvalue, h⟩ := bind_eq_ok h
      cases value with
      | list items =>
        cases h
        exact .hostOs items hm hvalue
      | _ => cases h
  · cases h
  · cases h

theorem WritesCase.writes_eq (h : WritesCase scope name path body append ws) :
    writes scope name path body append = .ok ws := by
  unfold writes
  cases h with
  | dropped hm => rw [hm]
  | armMode value hm hvalue
  | property property kind value hm hvalue =>
    rw [hm]
    simp only [bind, Except.bind, hvalue]
  | localIncludeDirs value own others hm hvalue hparts
  | exportIncludeDirs value own others hm hvalue hparts =>
    rw [hm]
    simp only [specialWrites, bind, Except.bind, hvalue, hparts]
    rfl
  | stem value hm hvalue
  | hostOs items hm hvalue =>
    rw [hm]
    simp only [specialWrites, bind, Except.bind, hvalue]

/-- **An assignment writes what its case says**, and nothing else. -/
theorem writes_eq_ok_iff :
    writes scope name path body append = .ok ws ↔ WritesCase scope name path body append ws :=
  ⟨writesCase_of_writes, WritesCase.writes_eq⟩

end Cases

namespace State

variable {s t : State} {name : Text} {path : Path} {body : Phrase.Body} {append : Bool}

/-! ## Assignments are their writes -/

theorem foldlM_singleton (value : Value) :
    [⟨path, name, value, append⟩].foldlM State.write s = s.setProperty path name value append := by
  rw [List.foldlM_cons, write]
  cases s.setProperty path name value append <;> rfl

theorem setList_eq_writes (value : Value) :
    s.setList path name value append =
      (listWrites path name value append).foldlM State.write s := by
  unfold setList listWrites
  split
  · rfl
  · exact (foldlM_singleton _).symm

theorem assignIncludes_eq_writes : s.assignIncludes path body append =
    (specialWrites s.scope path body append .localIncludeDirs).bind
      fun ws => ws.foldlM State.write s := by
  unfold assignIncludes specialWrites
  cases coerceList s.scope body with
  | error cause => rfl
  | ok value =>
    cases hp : partition value with
    | error cause => simp only [bind, Except.bind, hp]
    | ok parts =>
      obtain ⟨own, others⟩ := parts
      simp only [bind, Except.bind, hp, setList_eq_writes, List.foldlM_append]

theorem assignExportedIncludes_eq_writes : s.assignExportedIncludes path body append =
    (specialWrites s.scope path body append .exportIncludeDirs).bind
      fun ws => ws.foldlM State.write s := by
  unfold assignExportedIncludes specialWrites
  cases coerceList s.scope body with
  | error cause => rfl
  | ok value =>
    cases hp : partition value with
    | error cause => simp only [bind, Except.bind, hp]
    | ok parts =>
      obtain ⟨own, others⟩ := parts
      simp only [bind, Except.bind, hp, setList_eq_writes, List.foldlM_append]

theorem assignStem_eq_writes : s.assignStem path body append =
    (specialWrites s.scope path body append .stem).bind fun ws => ws.foldlM State.write s := by
  unfold assignStem specialWrites
  cases coerceString s.scope body with
  | error cause => rfl
  | ok value => exact (foldlM_singleton _).symm

theorem foldlM_enabledWrite (system : Text) (on : Bool) :
    [enabledWrite system on].foldlM State.write s =
      s.setProperty ["target", system] enabledName (.bool on) false :=
  foldlM_singleton _

theorem assignHostOs_eq_writes : s.assignHostOs body =
    (specialWrites s.scope path body append .hostOs).bind fun ws => ws.foldlM State.write s := by
  unfold assignHostOs specialWrites
  cases coerceList s.scope body with
  | error cause => rfl
  | ok value =>
    cases value with
    | list items =>
      change _ = (hostWrites items).foldlM State.write s
      unfold hostWrites
      rw [List.foldlM_append, List.foldlM_append, bind_assoc]
      cases hw : lists items "windows" <;> cases hl : lists items "linux" <;>
        cases hd : lists items "darwin" <;>
        simp only [foldlM_enabledWrite, List.foldlM_nil, if_true, if_false, Bool.false_eq_true,
          hw, hl, hd, bind, pure, Except.bind, Except.pure]
    | _ => rfl

/-- **An assignment to a module variable is the sequence of its writes.** -/
theorem assign_eq_writes (h : Meaning.ofName name ≠ .global) :
    s.assign name path body append =
      (writes s.scope name path body append).bind fun ws => ws.foldlM State.write s := by
  unfold assign writes
  cases hm : Meaning.ofName name with
  | dropped => rfl
  | armMode =>
    cases coerceString s.scope body with
    | error cause => rfl
    | ok value => exact (foldlM_singleton _).symm
  | property property kind =>
    cases hc : coerce s.scope kind body with
    | error cause => simp only [bind, Except.bind, hc]
    | ok value =>
      simp only [bind, Except.bind, hc]
      exact (foldlM_singleton _).symm
  | special special =>
    cases special with
    | localIncludeDirs => exact assignIncludes_eq_writes
    | exportIncludeDirs => exact assignExportedIncludes_eq_writes
    | stem => exact assignStem_eq_writes
    | hostOs => exact assignHostOs_eq_writes
  | unsupported => rfl
  | global => exact absurd hm h

end State

end MakeBlueprint.Conversion
