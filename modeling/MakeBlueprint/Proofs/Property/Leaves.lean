import MakeBlueprint.Proofs.Property.Update

/-!
# The leaves of a property tree

Maps only lead to properties. What a tree says is told by its leaves: the values at paths where no
map stands (`Property.leaf?`).

* `change_of_update`: a change is made of what stands at the end of its path.
* `leaf?_update_of_ne`: it changes one leaf and no other, as long as nothing is found behind a leaf.
* `SameOutside.leaf?_eq`: trees that are the same outside some places have the same leaves there.
-/

namespace MakeBlueprint.Blueprint.Property

variable {ε : Type} {name : Text} {line : Nat} {notAMap : Text → ε}
  {change : Option Value → Except ε Value} {ps qs : List Property} {path q : Path}

/-- **The leaf at a path**: the value that stands there, if it is no map. -/
def leaf? (q : Path) (ps : List Property) : Option Value :=
  ((find? q ps).map Property.value).filter fun v => v.asMap?.isNone

@[simp] theorem leaf?_nil (q : Path) : leaf? q [] = none := by
  unfold leaf?
  rw [find?_nil]
  rfl

theorem leaf?_congr (h : find? q qs = find? q ps) : leaf? q qs = leaf? q ps := by
  unfold leaf?
  rw [h]

/-- **Two trees are alike** up to a relation of values: they have properties in the same places, in
whatever order, and values that are related. -/
structure AlikeUpTo (R : Value → Value → Prop) (ps qs : List Property) : Prop where
  places : ∀ q, (find? q ps).isSome = (find? q qs).isSome
  leaves : ∀ q, Option.Rel R (leaf? q ps) (leaf? q qs)

theorem isSome_eq_of_rel {R : Value → Value → Prop} {leaf leaf' : Option Value}
    (h : Option.Rel R leaf leaf') : leaf.isSome = leaf'.isSome := by
  cases h <;> rfl

theorem rel_refl {R : Value → Value → Prop} (hR : ∀ v, R v v) (leaf : Option Value) :
    Option.Rel R leaf leaf := by
  cases leaf with
  | none => exact .none
  | some v => exact .some (hR v)

/-- A property that is no map is a leaf. -/
theorem leaf?_of_find? {p : Property} (h : find? q ps = some p) (hp : p.value.asMap? = none) :
    leaf? q ps = some p.value := by
  unfold leaf?
  rw [h, Option.map_some, Option.filter_some, hp]
  rfl

theorem exists_of_leaf? {v : Value} (h : leaf? q ps = some v) :
    ∃ p, find? q ps = some p ∧ p.value = v ∧ p.value.asMap? = none := by
  obtain ⟨hvalue, hleaf⟩ := Option.filter_eq_some_iff.mp h
  obtain ⟨p, hp, rfl⟩ := Option.map_eq_some_iff.mp hvalue
  exact ⟨p, hp, rfl, Option.isNone_iff_eq_none.mp hleaf⟩

/-- Where only maps stand there is no leaf. -/
theorem leaf?_of_maps (h : ∀ p, find? q ps = some p → ∃ inner, p.value = .map inner) :
    leaf? q ps = none := by
  unfold leaf?
  cases hp : find? q ps with
  | none => rfl
  | some p =>
    obtain ⟨inner, hinner⟩ := h p hp
    rw [Option.map_some, Option.filter_some, hinner]
    rfl

/-- On the way to a leaf there are properties. -/
theorem isSome_find?_of_leaf? {r : Path} (hq : q ≠ []) (h : (leaf? (q ++ r) ps).isSome = true) :
    (find? q ps).isSome = true := by
  have hfind : (find? (q ++ r) ps).isSome = true := by
    unfold leaf? at h
    cases hp : find? (q ++ r) ps with
    | none =>
      rw [hp] at h
      cases h
    | some p => rfl
  clear h
  induction q generalizing ps with
  | nil => exact absurd rfl hq
  | cons level q ih =>
    cases q with
    | nil =>
      cases r with
      | nil => exact hfind
      | cons next r =>
        change (find? (level :: next :: r) ps).isSome = true at hfind
        rw [find?_cons_cons] at hfind
        change (named? level ps).isSome = true
        cases hp : named? level ps with
        | none =>
          rw [hp] at hfind
          cases hfind
        | some p => rfl
    | cons next q =>
      change (find? (level :: next :: (q ++ r)) ps).isSome = true at hfind
      rw [find?_cons_cons] at hfind ⊢
      split at hfind
      · exact ih (by simp) hfind
      · cases hfind

/-- **A change is made of what stands at the end of its path**, and its result stands there. -/
theorem change_of_update (h : update line notAMap name change path ps = .ok qs) :
    ∃ value at', change ((find? (path ++ [name]) ps).map Property.value) = .ok value ∧
      find? (path ++ [name]) qs = some ⟨name, value, at'⟩ := by
  induction path generalizing ps qs with
  | nil =>
    obtain ⟨value, hvalue, hfind⟩ := named?_alter_self h
    exact ⟨value, _, hvalue, hfind⟩
  | cons level path ih =>
    obtain ⟨old, inner, at', hinner, hnamed, hold⟩ := level_of_update h
    obtain ⟨value, line', hvalue, hfind⟩ := ih hinner
    have hbehind : find? (level :: path ++ [name]) ps = find? (path ++ [name]) old := by
      rcases hold with ⟨hnone, rfl⟩ | ⟨p, hp, hv⟩
      · rw [List.cons_append, find?_cons_of_none hnone, find?_nil]
      · rw [List.cons_append, find?_cons_of_map hp hv (by simp)]
    refine ⟨value, line', ?_, ?_⟩
    · rw [hbehind, hvalue]
    · rw [List.cons_append, find?_cons_of_map hnamed rfl (by simp), hfind]

/-- **A change leaves the other leaves as they are**, if nothing is found behind the changed
property. -/
theorem leaf?_update_of_ne (h : update line notAMap name change path ps = .ok qs)
    (hne : q ≠ path ++ [name])
    (hbehind : path ++ [name] <+: q → find? q qs = none ∧ find? q ps = none) :
    leaf? q qs = leaf? q ps := by
  by_cases hfrom : path ++ [name] <+: q
  · obtain ⟨hqs, hps⟩ := hbehind hfrom
    exact leaf?_congr (hqs.trans hps.symm)
  · by_cases hto : q <+: path ++ [name]
    · have hpath : q <+: path := (List.prefix_concat_iff.mp hto).resolve_left hne
      rw [leaf?_of_maps fun p hp => isMap_of_update h hpath (Or.inl hp),
        leaf?_of_maps fun p hp => isMap_of_update h hpath (Or.inr hp)]
    · exact leaf?_congr (find?_update_of_disjoint h hto hfrom)

theorem SameOutside.leaf?_eq {places : List Path} (h : SameOutside places ps qs)
    (hq : ∀ place ∈ places, ¬ place <+: q) : leaf? q qs = leaf? q ps := by
  refine Option.ext fun v => ⟨fun hv => ?_, fun hv => ?_⟩
  · obtain ⟨p, hp, rfl, hmap⟩ := exists_of_leaf? hv
    exact leaf?_of_find? ((h.above q hq p hmap).mp hp) hmap
  · obtain ⟨p, hp, rfl, hmap⟩ := exists_of_leaf? hv
    exact leaf?_of_find? ((h.above q hq p hmap).mpr hp) hmap

end MakeBlueprint.Blueprint.Property
