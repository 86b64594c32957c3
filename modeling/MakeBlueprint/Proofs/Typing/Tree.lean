import Mathlib.Data.List.Nodup
import MakeBlueprint.Proofs.Conversion.Conditionals
import MakeBlueprint.Proofs.Property.Update
import MakeBlueprint.Proofs.Typing.Value

/-!
# Property trees are well typed

The name of a property fixes its kind (`propertyKind?`), and properties stand under a small number
of paths (`propertyPaths`). No name of a property is also a name on one of these paths
(`propertyKind?_of_mem_path`), which is why a path never leads through a property and a map is
never where a property should be.

* `TypedLevel`: names are unique, every property has the kind of its name and a well-typed value,
  and maps only stand on the way to properties.
* `typedLevel_update`: a typed write keeps a tree well typed.
* `change_of_update_error`: a typed write is only refused because its own value is.
-/

namespace MakeBlueprint.Conversion

open Blueprint (Kind Path Property Value)
open Blueprint.Property (Altered alter altered_of_alter change_of_alter_error update)

/-! ## Names and paths -/

/-- The properties of the variables that take more than a change of name, and the one that switches
a module on and off. -/
def specialKinds : List (Text × Kind) :=
  [("stem".toList, .string), ("suffix".toList, .string), ("local_include_dirs".toList, .list),
   ("include_dirs".toList, .list), ("export_include_dirs".toList, .list),
   (State.enabledName, .bool)]

/-- The properties that are written and their kinds. -/
def propertyKinds : List (Text × Kind) := standardProperties.map Prod.snd ++ specialKinds

/-- **The kind that the name of a property fixes.** -/
def propertyKind? (name : Text) : Option Kind := propertyKinds.lookup name

/-- The paths under which host systems are switched on and off. -/
def hostPaths : List Path := hostSystems.map fun system => ["target", system]

/-- **The paths under which properties stand.** -/
def propertyPaths : List Path :=
  [] :: suffixes.map Prod.snd ++ branchPaths ++ armPath :: hostPaths

/-- A property that has several variables has one kind in all of them. -/
theorem propertyKind?_of_mem_standardProperties :
    ∀ row ∈ standardProperties, propertyKind? row.2.1 = some row.2.2 := by
  decide +kernel

theorem propertyKind?_of_mem_specialKinds :
    ∀ row ∈ specialKinds, propertyKind? row.1 = some row.2 := by
  decide +kernel

theorem kind_ne_map_of_mem_standardProperties :
    ∀ row ∈ standardProperties, row.2.2 ≠ .map := by
  decide +kernel

/-- A name on a path is not the name of a property. -/
theorem propertyKind?_of_mem_path :
    ∀ path ∈ propertyPaths, ∀ name ∈ path, propertyKind? name = none := by
  decide +kernel

/-! ## Trees -/

/-- **A property below a path is well typed.** -/
inductive TypedAt : Path → Property → Prop
  /-- A value of the kind of its name, under a path for properties. -/
  | leaf (path : Path) (name : Text) (value : Value) (line : Nat) (hpath : path ∈ propertyPaths)
      (hkind : propertyKind? name = some value.kind) (hvalue : value.WellTyped) :
      TypedAt path ⟨name, value, line⟩
  /-- A map on the way to properties. -/
  | level (path : Path) (name : Text) (inner : List Property) (line : Nat)
      (hpath : ∃ p ∈ propertyPaths, path ++ [name] <+: p) (hne : inner ≠ [])
      (hnodup : (inner.map Property.name).Nodup)
      (hinner : ∀ p ∈ inner, TypedAt (path ++ [name]) p) : TypedAt path ⟨name, .map inner, line⟩

/-- **The properties of one level are well typed** and have different names. -/
structure TypedLevel (path : Path) (ps : List Property) : Prop where
  nodup : (ps.map Property.name).Nodup
  typed : ∀ p ∈ ps, TypedAt path p

theorem typedLevel_nil (path : Path) : TypedLevel path [] :=
  ⟨List.nodup_nil, fun _ hp => absurd hp List.not_mem_nil⟩

variable {path q : Path} {name : Text} {kind : Kind} {line : Nat} {ps qs : List Property}
  {change : Option Value → Except Refusal Value}

/-- Under the name of a property there is a value of its kind. -/
theorem TypedAt.has {p : Property} (h : TypedAt q p) (hname : p.name = name)
    (hkind : propertyKind? name = some kind) : p.value.Has kind := by
  subst hname
  cases h with
  | leaf path name value line hpath hk hvalue =>
    rw [hk] at hkind
    exact ⟨hvalue, Option.some.inj hkind⟩
  | level path name inner line hpath hne hnodup hinner =>
    obtain ⟨p, hp, hpre⟩ := hpath
    have hnone := propertyKind?_of_mem_path p hp name
      (hpre.subset (List.mem_append_right _ (List.mem_singleton_self name)))
    rw [hnone] at hkind
    cases hkind

/-- Under a name on a path there is a map. -/
theorem TypedAt.level_of_path {p : Property} (h : TypedAt q p)
    (hpath : ∃ r ∈ propertyPaths, q ++ [p.name] <+: r) :
    ∃ inner, p.value = .map inner ∧ TypedLevel (q ++ [p.name]) inner := by
  cases h with
  | leaf path name value line hp hk hvalue =>
    obtain ⟨r, hr, hpre⟩ := hpath
    have hnone := propertyKind?_of_mem_path r hr name
      (hpre.subset (List.mem_append_right _ (List.mem_singleton_self name)))
    rw [hnone] at hk
    cases hk
  | level path name inner line hp hne hnodup hinner => exact ⟨inner, rfl, hnodup, hinner⟩

/-- A level stays well typed when the property that is changed or added is well typed. -/
theorem typedLevel_altered (h : Altered name line change ps qs) (hps : TypedLevel q ps)
    (hchanged : ∀ p ∈ ps, p.name = name → ∀ v, change (some p.value) = .ok v →
      TypedAt q ⟨name, v, p.line⟩)
    (hadded : ∀ v, change none = .ok v → TypedAt q ⟨name, v, line⟩) :
    TypedLevel q qs ∧ qs ≠ [] := by
  obtain ⟨hnodup, htyped⟩ := hps
  cases h with
  | changed before after p value hbefore hname hvalue =>
    refine ⟨⟨?_, ?_⟩, by simp⟩
    · rw [List.map_append, List.map_cons] at hnodup ⊢
      rw [hname] at hnodup
      exact hnodup
    · intro r hr
      rcases List.mem_append.mp hr with hr | hr
      · exact htyped r (List.mem_append_left _ hr)
      · rcases List.mem_cons.mp hr with rfl | hr
        · exact hchanged p (List.mem_append_right _ List.mem_cons_self) hname value hvalue
        · exact htyped r (List.mem_append_right _ (List.mem_cons_of_mem p hr))
  | added ps value hnone hvalue =>
    refine ⟨⟨?_, ?_⟩, by simp⟩
    · rw [List.map_append, List.nodup_append]
      refine ⟨hnodup, List.nodup_singleton _, ?_⟩
      intro a ha b hb
      obtain ⟨p, hp, rfl⟩ := List.mem_map.mp ha
      rw [List.mem_singleton.mp hb]
      exact hnone p hp
    · intro r hr
      rcases List.mem_append.mp hr with hr | hr
      · exact htyped r hr
      · rw [List.mem_singleton.mp hr]
        exact hadded value hvalue

/-- **A typed write keeps a tree well typed.** The induction is on the rest of the path; what is
known of the part behind the tree is that the two make up a path for properties. -/
theorem typedLevel_update (hps : TypedLevel q ps) (hpath : q ++ path ∈ propertyPaths)
    (hkind : propertyKind? name = some kind)
    (hnew : ∀ v, change none = .ok v → v.Has kind)
    (hold : ∀ old v, old.Has kind → change (some old) = .ok v → v.Has kind)
    (h : update line .notAMap name change path ps = .ok qs) : TypedLevel q qs ∧ qs ≠ [] := by
  induction path generalizing q ps qs with
  | nil =>
    rw [List.append_nil] at hpath
    apply typedLevel_altered (altered_of_alter h) hps
    · intro p hp hname v hv
      have hh := hold _ v ((hps.typed p hp).has hname hkind) hv
      exact .leaf q name v p.line hpath (by rw [hh.2, hkind]) hh.1
    · intro v hv
      have hh := hnew v hv
      exact .leaf q name v line hpath (by rw [hh.2, hkind]) hh.1
  | cons level path ih =>
    have hto : ∃ r ∈ propertyPaths, q ++ [level] <+: r :=
      ⟨_, hpath, path, List.append_cons q level path ▸ rfl⟩
    rw [List.append_cons] at hpath
    apply typedLevel_altered (altered_of_alter h) hps
    · intro p hp hname v hv
      obtain ⟨inner, hinner, htyped⟩ := (hps.typed p hp).level_of_path (by rw [hname]; exact hto)
      rw [hname] at htyped
      rw [hinner] at hv
      obtain ⟨rs, hrs, rfl⟩ := Property.map_eq_ok hv
      obtain ⟨hlevel, hne⟩ := ih htyped hpath hrs
      exact .level q level rs p.line hto hne hlevel.nodup hlevel.typed
    · intro v hv
      obtain ⟨rs, hrs, rfl⟩ := Property.map_eq_ok hv
      obtain ⟨hlevel, hne⟩ := ih (typedLevel_nil _) hpath hrs
      exact .level q level rs line hto hne hlevel.nodup hlevel.typed

/-- **A typed write is only refused because its own value is.** -/
theorem change_of_update_error {cause : Refusal} (hps : TypedLevel q ps)
    (hpath : q ++ path ∈ propertyPaths) (hkind : propertyKind? name = some kind)
    (h : update line .notAMap name change path ps = .error cause) :
    (∃ old, old.Has kind ∧ change (some old) = .error cause) ∨ change none = .error cause := by
  induction path generalizing q ps with
  | nil =>
    rcases change_of_alter_error h with ⟨p, hp, hname, hc⟩ | hc
    · exact Or.inl ⟨p.value, (hps.typed p hp).has hname hkind, hc⟩
    · exact Or.inr hc
  | cons level path ih =>
    have hto : ∃ r ∈ propertyPaths, q ++ [level] <+: r :=
      ⟨_, hpath, path, List.append_cons q level path ▸ rfl⟩
    rw [List.append_cons] at hpath
    rcases change_of_alter_error h with ⟨p, hp, hname, hc⟩ | hc
    · obtain ⟨inner, hinner, htyped⟩ := (hps.typed p hp).level_of_path (by rw [hname]; exact hto)
      rw [hname] at htyped
      rw [hinner] at hc
      exact ih htyped hpath (map_eq_error hc)
    · exact ih (typedLevel_nil _) hpath (map_eq_error hc)

end MakeBlueprint.Conversion
