import MakeBlueprint.Proofs.Conversion.Globals
import MakeBlueprint.Proofs.Conversion.Modules
import MakeBlueprint.Proofs.Typing.Conversion

/-!
# The kinds of references

A reference to a variable carries a kind. It is the kind that is asked for where the reference
stands (`Use.asked`), never one that is looked up: the kind of the property, of the definition or of
a list item. All variables of the file are recorded as lists, so a reference to one of them carries
the recorded kind exactly where a list is asked for.

* `Value.uses`: the references of a value, each with the kind that is asked for.
* `Value.Has.kind_eq_asked`, `TypedAt.kind_eq_asked`: well-typed values carry the kinds that are
  asked for.
* `has_list_run`: the values of definitions are lists.
* `kinds_of_references`: the statement on runs.
-/

namespace MakeBlueprint.Blueprint

open Conversion (propertyKind?)

/-- A reference to a variable inside a value. -/
structure Use where
  name : Text
  /-- The kind that is asked for where the reference stands. -/
  asked : Kind
  /-- The kind that the reference carries. -/
  kind : Kind
  deriving DecidableEq, Repr

mutual

/-- **The references of a value** of which a kind is asked. -/
def Value.uses (asked : Kind) : Value → List Use
  | .string _ | .bool _ => []
  | .var name kind => [⟨name, asked, kind⟩]
  | .binary _ left right _ => left.uses asked ++ right.uses asked
  | .list items => Value.usesAll items
  | .map properties => Property.usesAll properties

/-- The references of list items, which are strings. -/
def Value.usesAll : List Value → List Use
  | [] => []
  | item :: items => item.uses .string ++ Value.usesAll items

/-- The references of a property, of which its name asks a kind. -/
def Property.uses : Property → List Use
  | ⟨name, value, _⟩ => value.uses ((propertyKind? name).getD .map)

/-- The references of properties. -/
def Property.usesAll : List Property → List Use
  | [] => []
  | p :: ps => p.uses ++ Property.usesAll ps

end

@[simp] theorem Value.mem_usesAll {u : Use} {items : List Value} :
    u ∈ Value.usesAll items ↔ ∃ item ∈ items, u ∈ item.uses .string := by
  induction items with
  | nil => simp [Value.usesAll]
  | cons item items ih => simp [Value.usesAll, ih]

@[simp] theorem Property.mem_usesAll {u : Use} {ps : List Property} :
    u ∈ Property.usesAll ps ↔ ∃ p ∈ ps, u ∈ p.uses := by
  induction ps with
  | nil => simp [Property.usesAll]
  | cons p ps ih => simp [Property.usesAll, ih]

/-- The references of a file. The value of a definition is asked to be a list. -/
def File.uses (f : File) : List Use :=
  f.modules.flatMap (fun m => Property.usesAll m.properties) ++
    f.assignments.flatMap fun a => a.value.uses .list

/-- **A well-typed value carries the kinds that are asked for.** -/
theorem Value.Has.kind_eq_asked {v : Value} {kind : Kind} (h : v.Has kind) :
    ∀ u ∈ v.uses kind, u.kind = u.asked := by
  obtain ⟨hw, hk⟩ := h
  induction hw generalizing kind with
  | string text | bool b => exact fun u hu => absurd hu (by simp [Value.uses])
  | var name varKind =>
    intro u hu
    rw [List.mem_singleton.mp hu]
    exact hk
  | list items hitems hkinds ih =>
    intro u hu
    rw [Value.uses] at hu
    obtain ⟨item, hitem, hu⟩ := Value.mem_usesAll.mp hu
    exact ih item hitem (hkinds item hitem) u hu
  | binary left right sumKind hleft hright hleftKind hrightKind hsum ihl ihr =>
    intro u hu
    rw [Value.uses] at hu
    rcases List.mem_append.mp hu with hu | hu
    · exact ihl (hleftKind.trans hk) u hu
    · exact ihr (hrightKind.trans hk) u hu

end MakeBlueprint.Blueprint

namespace MakeBlueprint.Conversion

open Blueprint (Kind Path Property Use Value)
open Makefile (Statement)

/-- **A well-typed property carries the kinds that are asked for.** -/
theorem TypedAt.kind_eq_asked {path : Path} {p : Property} (h : TypedAt path p) :
    ∀ u ∈ p.uses, u.kind = u.asked := by
  induction h with
  | leaf path name value line hpath hkind hvalue =>
    rw [Property.uses, hkind]
    exact Value.Has.kind_eq_asked ⟨hvalue, rfl⟩
  | level path name inner line hpath hne hnodup hinner ih =>
    intro u hu
    rw [Property.uses, Value.uses] at hu
    obtain ⟨p, hp, hu⟩ := Property.mem_usesAll.mp hu
    exact ih p hp u hu

theorem TypedLevel.kind_eq_asked {path : Path} {ps : List Property} (h : TypedLevel path ps) :
    ∀ u ∈ Property.usesAll ps, u.kind = u.asked := by
  intro u hu
  obtain ⟨p, hp, hu⟩ := Property.mem_usesAll.mp hu
  exact (h.typed p hp).kind_eq_asked u hu

namespace State

variable {options : Options} {source : Text} {sts : List Statement} {s : State}

/-- The references of the values that are stored: those of the open module and of the file. -/
def uses (s : State) : List Use :=
  (s.draft.toList.flatMap fun d => Property.usesAll d.properties) ++ s.file.uses

/-- The values of definitions are lists. -/
theorem has_list_run (h : ∀ d ∈ s.file.assignments, d.value.Has .list) :
    ∀ d ∈ (s.run options source sts).file.assignments, d.value.Has .list := by
  refine run_keeps (P := fun s => ∀ d ∈ s.file.assignments, d.value.Has .list)
    (fun s st _ hs => ?_) h
  rcases globalCase options source s st with hsame | ⟨a, name, list, -, hd⟩
  · rw [hsame.assignments]
    exact hs
  · rw [hd.assignments]
    intro d hmem
    rcases List.mem_append.mp hmem with hmem | hmem
    · exact hs d hmem
    · rw [List.mem_singleton.mp hmem]
      exact has_coerceList hd.coerced

/-- **References carry the kind that is asked for**, and all variables of the file are recorded as
lists. So at every moment of a run, a reference in a stored value that names a variable of the file
carries the recorded kind exactly when a list is asked for where it stands. -/
theorem kinds_of_references (options : Options) (source : Text) (sts : List Statement) :
    ∀ u ∈ (start.run options source sts).uses,
      u.kind = u.asked ∧
        ∀ kind, (start.run options source sts).globals.lookup u.name = some kind →
          kind = .list ∧ (u.kind = kind ↔ u.asked = .list) := by
  have hsound : Sound sts (start.run options source sts) := sound_run (sound_start sts)
  have hlists : ∀ d ∈ (start.run options source sts).file.assignments, d.value.Has .list :=
    has_list_run fun d hd => absurd hd List.not_mem_nil
  intro u hu
  have hkind : u.kind = u.asked := by
    rcases List.mem_append.mp hu with hu | hu
    · obtain ⟨d, hd, hu⟩ := List.mem_flatMap.mp hu
      exact (hsound.draft d (Option.mem_toList.mp hd)).kind_eq_asked u hu
    · rcases List.mem_append.mp hu with hu | hu
      · obtain ⟨m, hm, hu⟩ := List.mem_flatMap.mp hu
        exact (hsound.modules m hm).kind_eq_asked u hu
      · obtain ⟨d, hd, hu⟩ := List.mem_flatMap.mp hu
        exact (hlists d hd).kind_eq_asked u hu
  refine ⟨hkind, fun kind hlookup => ?_⟩
  have hlist : kind = .list := hsound.globals (u.name, kind) (mem_of_lookup hlookup)
  exact ⟨hlist, by rw [hkind, hlist]⟩

/-- A list that is used as the name of a module. -/
def listAsName : List Statement :=
  [aside (.assignment (setting ['X'] ['a', ' ', 'b'])), beginning,
    aside (.assignment { naming with value := ⟨0, .ref (.ofText ['X']) 0 0 .paren .nil⟩ })]

/-- The name of the module refers to the list, as if it were a string. -/
theorem kinds_of_references_listAsName :
    (start.run {} [] listAsName).globals.lookup ['X'] = some .list ∧
      ∃ u ∈ (start.run {} [] listAsName).uses, u.name = ['X'] ∧ u.kind ≠ .list := by
  have hlookup : (start.run {} [] listAsName).globals.lookup ['X'] = some .list := by
    decide +kernel
  have hmem : (⟨['X'], .string, .string⟩ : Use) ∈ (start.run {} [] listAsName).uses := by
    decide +kernel
  have hkinds := (kinds_of_references {} [] listAsName _ hmem).2 .list hlookup
  exact ⟨hlookup, _, hmem, rfl, fun hlist => by cases hkinds.2.mp hlist⟩

end State

end MakeBlueprint.Conversion
