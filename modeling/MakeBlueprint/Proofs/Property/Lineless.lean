import MakeBlueprint.Blueprint.Property

/-!
# Property trees without their lines

Two trees have the same names and values when they are the same once the lines are forgotten
(`Property.allLineless`). A change of a tree does not look at lines, so it can be made on the tree
without them: `map_update`.
-/

namespace MakeBlueprint.Blueprint

mutual

/-- A value whose properties are all on line zero. -/
def Value.lineless : Value → Value
  | .string text => .string text
  | .list items => .list (Value.allLineless items)
  | .bool b => .bool b
  | .map properties => .map (Property.allLineless properties)
  | .binary operator left right kind => .binary operator left.lineless right.lineless kind
  | .var name kind => .var name kind

/-- Values whose properties are all on line zero. -/
def Value.allLineless : List Value → List Value
  | [] => []
  | v :: vs => v.lineless :: Value.allLineless vs

/-- A property on line zero, and all properties in it. -/
def Property.lineless : Property → Property
  | ⟨name, value, _⟩ => ⟨name, value.lineless, 0⟩

/-- **Properties without their lines.** -/
def Property.allLineless : List Property → List Property
  | [] => []
  | p :: ps => p.lineless :: Property.allLineless ps

end

namespace Value

@[simp] theorem kind_lineless (v : Value) : v.lineless.kind = v.kind := by
  cases v <;> rfl

theorem allLineless_append (vs ws : List Value) :
    allLineless (vs ++ ws) = allLineless vs ++ allLineless ws := by
  induction vs with
  | nil => rfl
  | cons v vs ih => rw [List.cons_append, allLineless, ih, allLineless, List.cons_append]

end Value

namespace Property

variable {ε : Type} {change change' : Option Value → Except ε Value}

theorem lineless_eq (p : Property) : p.lineless = ⟨p.name, p.value.lineless, 0⟩ := by
  cases p
  rfl

/-- The same names are found without the lines. -/
theorem isSome_named?_allLineless (name : Text) (ps : List Property) :
    (named? name (allLineless ps)).isSome = (named? name ps).isSome := by
  induction ps with
  | nil => rfl
  | cons p ps ih =>
    unfold named? at ih ⊢
    rw [allLineless, List.find?_cons, List.find?_cons, lineless_eq]
    cases p.name == name with
    | true => rfl
    | false => exact ih

/-- A change of one name can be made without the lines. -/
theorem map_alter (name : Text) (line : Nat) (ps : List Property)
    (h : ∀ old, (change old).map Value.lineless = change' (old.map Value.lineless)) :
    (alter name line change ps).map allLineless = alter name 0 change' (allLineless ps) := by
  induction ps with
  | nil =>
    have hnone : (change none).map Value.lineless = change' none := h none
    rw [allLineless, alter, alter, ← hnone]
    cases change none <;> rfl
  | cons p ps ih =>
    rw [allLineless, alter, alter, lineless_eq]
    split
    · have hsome : (change (some p.value)).map Value.lineless = change' (some p.value.lineless) :=
        h (some p.value)
      rw [← hsome]
      cases change (some p.value) <;> rfl
    · rw [← ih, ← lineless_eq]
      cases alter name line change ps <;> rfl

/-- **A change behind a path can be made without the lines.** -/
theorem map_update (line : Nat) (notAMap : Text → ε) (name : Text) (path : Path)
    (ps : List Property)
    (h : ∀ old, (change old).map Value.lineless = change' (old.map Value.lineless)) :
    (update line notAMap name change path ps).map allLineless =
      update 0 notAMap name change' path (allLineless ps) := by
  induction path generalizing ps with
  | nil => exact map_alter name line ps h
  | cons level path ih =>
    apply map_alter
    intro old
    cases old with
    | none =>
      change ((update line notAMap name change path []).map Value.map).map Value.lineless =
        (update 0 notAMap name change' path (allLineless [])).map Value.map
      rw [← ih []]
      cases update line notAMap name change path [] <;> rfl
    | some old =>
      cases old with
      | map inner =>
        change ((update line notAMap name change path inner).map Value.map).map Value.lineless =
          (update 0 notAMap name change' path (allLineless inner)).map Value.map
        rw [← ih inner]
        cases update line notAMap name change path inner <;> rfl
      | _ => rfl

end Property

end MakeBlueprint.Blueprint
