import MakeBlueprint.Proofs.Property.Update

/-!
# The levels of a property tree

The properties of one map are a level of the tree, and the properties that are in no map are its
outer level. A level has an order and its properties have lines, which lookups do not tell
(`headers`).

* `Extends`: what a level keeps, and what it may get.
* `keepsLevel_update`: **a change keeps every level that it does not replace**, with the order and
  the lines of its properties, and puts what is new behind them.
-/

namespace MakeBlueprint.Blueprint.Property

variable {ε : Type} {name level : Text} {line : Nat} {notAMap : Text → ε}
  {change : Option Value → Except ε Value} {ps qs old new : List Property} {path q : Path}

/-! ## Going to a level -/

/-- **The level at a path**: the tree itself, or what is in the map that stands there. -/
def level? : Path → List Property → Option (List Property)
  | [], ps => some ps
  | level :: q, ps => (find? (level :: q) ps).bind fun p => p.value.asMap?

theorem level?_of_ne_nil (hq : q ≠ []) (ps : List Property) :
    level? q ps = (find? q ps).bind fun p => p.value.asMap? := by
  obtain ⟨level, q, rfl⟩ := List.exists_cons_of_ne_nil hq
  rfl

/-- An empty tree has no properties on any level. -/
theorem level?_nil_getD (q : Path) : (level? q []).getD [] = [] := by
  cases q with
  | nil => rfl
  | cons level q =>
    rw [level?, find?_nil]
    rfl

theorem level?_congr (h : named? level ps = named? level qs) :
    level? (level :: q) ps = level? (level :: q) qs := by
  rw [level?, level?, find?_congr h]

theorem level?_cons_of_map {p : Property} {inner : List Property} (hp : named? level ps = some p)
    (hv : p.value = .map inner) : level? (level :: q) ps = level? q inner := by
  cases q with
  | nil =>
    have hfind : find? [level] ps = some p := hp
    rw [level?_of_ne_nil (List.cons_ne_nil level []), hfind, Option.bind_some, hv]
    rfl
  | cons next q => rw [level?, level?, find?_cons_of_map hp hv (List.cons_ne_nil next q)]

theorem level?_cons_of_none (hp : named? level ps = none) : level? (level :: q) ps = none := by
  rw [level?, find?_cons_of_none hp, Option.bind_none]

/-! ## The order of a level -/

/-- The names of properties with their lines, in order. -/
def headers (ps : List Property) : List (Text × Nat) := ps.map fun p => (p.name, p.line)

/-- **A level keeps what it has**: its properties stay where they are, and on their lines. At most
one property is new; it comes last, and on the given line. -/
inductive Extends (line : Nat) (old new : List Property) : Prop
  | same (h : headers new = headers old)
  | added (name : Text) (hnone : ∀ p ∈ old, p.name ≠ name)
      (h : headers new = headers old ++ [(name, line)])

theorem Altered.extends (h : Altered name line change ps qs) : Extends line ps qs := by
  cases h with
  | changed before after p value hbefore hname hvalue =>
    refine .same ?_
    unfold headers
    rw [List.map_append, List.map_append, List.map_cons, List.map_cons, hname]
  | added ps value hnone hvalue => exact .added name hnone List.map_append

/-- **What a change does to the level in one place**: it is there if it was, and it keeps what it
has. A level that is new had nothing. -/
structure KeepsLevel (line : Nat) (before after : Option (List Property)) : Prop where
  isSome : before.isSome = true → after.isSome = true
  order : ∀ new, after = some new → Extends line (before.getD []) new

theorem KeepsLevel.refl (line : Nat) (before : Option (List Property)) :
    KeepsLevel line before before where
  isSome := id
  order new hnew := by
    rw [hnew]
    exact .same rfl

theorem Extends.keepsLevel (h : Extends line old new) : KeepsLevel line (some old) (some new) where
  isSome _ := rfl
  order _ hnew := Option.some.inj hnew ▸ h

/-- The outer level keeps what it has. -/
theorem extends_outer (h : update line notAMap name change path ps = .ok qs) :
    Extends line ps qs := by
  cases path with
  | nil => exact (altered_of_alter h).extends
  | cons level path => exact (altered_of_alter h).extends

/-- **A change keeps every level that it does not replace.** The induction is on the path of the
change; the level is on the way to it, or beside it, where nothing changes. -/
theorem keepsLevel_update (h : update line notAMap name change path ps = .ok qs)
    (hbehind : ¬ path ++ [name] <+: q) : KeepsLevel line (level? q ps) (level? q qs) := by
  induction path generalizing ps qs q with
  | nil =>
    cases q with
    | nil => exact (extends_outer h).keepsLevel
    | cons n q =>
      have hn : n ≠ name := by
        rintro rfl
        exact hbehind (List.cons_prefix_cons.mpr ⟨rfl, List.nil_prefix⟩)
      rw [level?_congr (named?_alter_of_ne hn h)]
      exact .refl _ _
  | cons level path ih =>
    cases q with
    | nil => exact (extends_outer h).keepsLevel
    | cons n q =>
      by_cases hn : n = level
      · subst hn
        obtain ⟨old, inner, at', hinner, hnamed, hold⟩ := level_of_update h
        have hrest : ¬ path ++ [name] <+: q := fun hq =>
          hbehind (List.cons_prefix_cons.mpr ⟨rfl, hq⟩)
        have hkeeps := ih hinner hrest
        rw [level?_cons_of_map hnamed rfl]
        rcases hold with ⟨hnone, rfl⟩ | ⟨p, hp, hv⟩
        · -- The map is new, and so is every level in it.
          have horder := hkeeps.order
          rw [level?_nil_getD] at horder
          rw [level?_cons_of_none hnone]
          exact ⟨nofun, horder⟩
        · rw [level?_cons_of_map hp hv]
          exact hkeeps
      · rw [level?_congr (named?_alter_of_ne hn h)]
        exact .refl _ _

end MakeBlueprint.Blueprint.Property
