import MakeBlueprint.Conversion.Refusal

/-!
# Sums of values

Literals are added at once, and everything else becomes a sum. A string that is added to a list
is a list of one item.

* `kind_add`: a sum has the kind that `sumKind?` says, so two kinds without one have no sum.
-/

namespace MakeBlueprint.Conversion

open Blueprint (Kind Value)

/-- A value as a list: a list as it is, anything else as the one item of a list. -/
def promote : Value → Value
  | .list items => .list items
  | value => .list [value]

/-- The sum of two values of one kind. -/
def addSameKind (kind : Kind) : Value → Value → Value
  | .string a, .string b => .string (a ++ b)
  | .list a, .list b => .list (a ++ b)
  | left, right => .binary '+' left right kind

/-- The sum of two values after a string beside a list has become a list. -/
def addPromoted (left right : Value) : Except Refusal Value :=
  if left.kind ≠ right.kind then .error (.mismatchedKinds left.kind right.kind)
  else if left.kind = .bool then .error (.noSum .bool)
  else .ok (addSameKind left.kind left right)

/-- The sum of two values. -/
def add (left right : Value) : Except Refusal Value :=
  match left.kind, right.kind with
  | .string, .list => addPromoted (promote left) right
  | .list, .string => addPromoted left (promote right)
  | _, _ => addPromoted left right

/-- The sum of values, from left to right. -/
def sum (empty : Value) : List Value → Except Refusal Value
  | [] => .ok empty
  | value :: values => values.foldlM add value

/-! ## Kinds of sums -/

theorem kind_promote (v : Value) : (promote v).kind = .list := by
  cases v <;> rfl

theorem kind_addSameKind (left right : Value) :
    (addSameKind left.kind left right).kind = left.kind := by
  unfold addSameKind
  split <;> rfl

/-- The kind of a sum of two kinds. -/
def sumKind? : Kind → Kind → Option Kind
  | .string, .string => some .string
  | .string, .list | .list, .string | .list, .list => some .list
  | .map, .map => some .map
  | _, _ => none

theorem addPromoted_eq_ok {left right value : Value} (h : addPromoted left right = .ok value) :
    left.kind = right.kind ∧ left.kind ≠ .bool ∧ value.kind = left.kind := by
  unfold addPromoted at h
  split at h
  · cases h
  · next hk =>
    split at h
    · cases h
    · next hb =>
      cases h
      exact ⟨Decidable.not_not.1 hk, hb, kind_addSameKind left right⟩

/-- A sum has the kind that the kinds of its sides determine. -/
theorem kind_add {left right value : Value} (h : add left right = .ok value) :
    sumKind? left.kind right.kind = some value.kind := by
  unfold add at h
  split at h
  · next hl hr =>
    rw [hl, hr, (addPromoted_eq_ok h).2.2, kind_promote]
    rfl
  · next hl hr =>
    rw [hl, hr, (addPromoted_eq_ok h).2.2, hl]
    rfl
  · obtain ⟨hk, hb, hv⟩ := addPromoted_eq_ok h
    rw [hv, ← hk]
    cases hl : left.kind <;> simp_all [sumKind?]

end MakeBlueprint.Conversion
