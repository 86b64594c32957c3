import MakeBlueprint.Blueprint.Value

/-!
# Property trees

Properties are kept in the order in which they were first written. A path names a property inside
nested maps.

* `find?` looks a path up.
* `update` changes the value at a path and creates the maps on the way. New properties come last
  in their map, and an existing one keeps its place and its line. When it fails, there is no new
  tree, so a failure changes nothing.
* `named?_alter_self`, `named?_alter_of_ne`: what a change of one name does to lookups.
-/

namespace MakeBlueprint.Blueprint

/-- The names from an outer map to a property. -/
abbrev Path := List Text

/-- The path that is written with points between its names. -/
def Path.ofDotted (t : Text) : Path := Text.split (· == '.') t

/-- A path written with points between its names. -/
def Path.dotted (p : Path) : Text := Text.join ['.'] p

namespace Property

/-- The first property with a name. -/
def named? (name : Text) (ps : List Property) : Option Property := ps.find? fun p => p.name == name

/-- The property at a path. -/
def find? : Path → List Property → Option Property
  | [], _ => none
  | [name], ps => named? name ps
  | name :: path, ps =>
    match (named? name ps).map Property.value with
    | some (.map inner) => find? path inner
    | _ => none

/-- Changes the value of the first property with a name, or adds one at the end. -/
def alter {ε : Type} (name : Text) (line : Nat) (change : Option Value → Except ε Value) :
    List Property → Except ε (List Property)
  | [] => (change none).map fun value => [⟨name, value, line⟩]
  | p :: ps =>
    if p.name = name then (change (some p.value)).map fun value => ⟨p.name, value, p.line⟩ :: ps
    else (alter name line change ps).map (p :: ·)

/-- Changes the value behind a path of maps. A name on the way that is not a map is an error. -/
def update {ε : Type} (line : Nat) (notAMap : Text → ε) (name : Text)
    (change : Option Value → Except ε Value) : Path → List Property → Except ε (List Property)
  | [], ps => alter name line change ps
  | level :: path, ps =>
    alter level line (fun
      | none => (update line notAMap name change path []).map Value.map
      | some (.map inner) => (update line notAMap name change path inner).map Value.map
      | some _ => .error (notAMap level)) ps

/-! ## Lookups after a change -/

theorem map_eq_ok {ε α β : Type} {f : α → β} {x : Except ε α} {b : β} (h : x.map f = .ok b) :
    ∃ a, x = .ok a ∧ f a = b := by
  cases x with
  | error e => cases h
  | ok a =>
    cases h
    exact ⟨a, rfl, rfl⟩

theorem named?_alter_of_ne {ε : Type} {name other : Text} {line : Nat}
    {change : Option Value → Except ε Value} {ps qs : List Property} (hne : other ≠ name)
    (h : alter name line change ps = .ok qs) : named? other qs = named? other ps := by
  induction ps generalizing qs with
  | nil =>
    obtain ⟨value, _, rfl⟩ := map_eq_ok h
    simp [named?, Ne.symm hne]
  | cons p ps ih =>
    rw [alter] at h
    split at h
    · next hp =>
      obtain ⟨value, _, rfl⟩ := map_eq_ok h
      simp [named?, hp, Ne.symm hne]
    · obtain ⟨rs, hrs, rfl⟩ := map_eq_ok h
      simp only [named?, List.find?_cons] at ih ⊢
      rw [ih hrs]

theorem named?_alter_self {ε : Type} {name : Text} {line : Nat}
    {change : Option Value → Except ε Value} {ps qs : List Property}
    (h : alter name line change ps = .ok qs) :
    ∃ value, change ((named? name ps).map Property.value) = .ok value ∧
      named? name qs = some ⟨name, value, ((named? name ps).map Property.line).getD line⟩ := by
  induction ps generalizing qs with
  | nil =>
    obtain ⟨value, hv, rfl⟩ := map_eq_ok h
    exact ⟨value, hv, by simp [named?]⟩
  | cons p ps ih =>
    rw [alter] at h
    split at h
    · next hp =>
      obtain ⟨value, hv, rfl⟩ := map_eq_ok h
      exact ⟨value, by simpa [named?, hp] using hv, by simp [named?, hp]⟩
    · next hp =>
      obtain ⟨rs, hrs, rfl⟩ := map_eq_ok h
      obtain ⟨value, hv, hn⟩ := ih hrs
      exact ⟨value, by simpa [named?, hp] using hv, by simpa [named?, hp] using hn⟩

end Property

end MakeBlueprint.Blueprint
