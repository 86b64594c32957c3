import MakeBlueprint.Conversion.Coercion
import MakeBlueprint.Conversion.Includes
import MakeBlueprint.Proofs.Except

/-!
# Values are well typed

A value is well typed when its sums are sums of two values of one kind that has sums, its lists
are lists of strings, and no map is inside it (`Value.WellTyped`). The converter only ever makes
such values:

* `exists_add`: two well-typed values of kinds that have sums always have one, and it is well
  typed; `add_bool`: two booleans never have one.
* `has_coerce`: makefile text becomes a well-typed value of the kind that is asked for.
* `exists_partition`: a list value always comes apart, into two list values.
-/

namespace MakeBlueprint.Blueprint

/-- The kinds that have sums. -/
def Kind.HasSum (kind : Kind) : Prop := kind = .string ∨ kind = .list

/-- **A value without type errors.** -/
inductive Value.WellTyped : Value → Prop
  | string (text : Text) : WellTyped (.string text)
  | list (items : List Value) (hitems : ∀ v ∈ items, WellTyped v)
      (hkinds : ∀ v ∈ items, v.kind = .string) : WellTyped (.list items)
  | bool (b : Bool) : WellTyped (.bool b)
  | binary (left right : Value) (kind : Kind) (hleft : WellTyped left) (hright : WellTyped right)
      (hleftKind : left.kind = kind) (hrightKind : right.kind = kind) (hsum : kind.HasSum) :
      WellTyped (.binary '+' left right kind)
  | var (name : Text) (kind : Kind) : WellTyped (.var name kind)

/-- A well-typed value of a kind. -/
def Value.Has (v : Value) (kind : Kind) : Prop := v.WellTyped ∧ v.kind = kind

namespace Value.Has

theorem string (text : Text) : (Value.string text).Has .string := ⟨.string text, rfl⟩

theorem bool (b : Bool) : (Value.bool b).Has .bool := ⟨.bool b, rfl⟩

theorem var (name : Text) (kind : Kind) : (Value.var name kind).Has kind := ⟨.var name kind, rfl⟩

theorem list {items : List Value} (h : ∀ v ∈ items, v.Has .string) : (Value.list items).Has .list :=
  ⟨.list items (fun v hv => (h v hv).1) fun v hv => (h v hv).2, rfl⟩

/-- The items of a well-typed list are strings. -/
theorem of_mem {items : List Value} (h : (Value.list items).WellTyped) {v : Value}
    (hv : v ∈ items) : v.Has .string := by
  cases h with
  | list _ hitems hkinds => exact ⟨hitems v hv, hkinds v hv⟩

end Value.Has

end MakeBlueprint.Blueprint

namespace MakeBlueprint.Conversion

open Blueprint (Kind Value)
open Makefile (Phrase Reference Scope)

/-! ## Sums -/

section Sums

variable {left right value : Value} {kind : Kind}

theorem has_promote (h : left.Has .string) : (promote left).Has .list := by
  obtain ⟨hw, hk⟩ := h
  have hitem : (Value.list [left]).Has .list := by
    apply Value.Has.list
    intro v hv
    rw [List.mem_singleton.mp hv]
    exact ⟨hw, hk⟩
  cases left with
  | list items => exact ⟨hw, rfl⟩
  | _ => exact hitem

theorem has_addSameKind (hl : left.Has kind) (hr : right.Has kind) (hk : kind.HasSum) :
    (addSameKind kind left right).Has kind := by
  unfold addSameKind
  split
  · rw [← hl.2]
    exact Value.Has.string _
  · rw [← hl.2]
    apply Value.Has.list
    intro v hv
    rcases List.mem_append.mp hv with hv | hv
    · exact Value.Has.of_mem hl.1 hv
    · exact Value.Has.of_mem hr.1 hv
  · exact ⟨.binary _ _ _ hl.1 hr.1 hl.2 hr.2 hk, rfl⟩

theorem addPromoted_iff : addPromoted left right = .ok value ↔
    left.kind = right.kind ∧ left.kind ≠ .bool ∧ value = addSameKind left.kind left right := by
  unfold addPromoted
  split
  · next hkinds => simp [hkinds]
  · next hkinds =>
    rw [Decidable.not_not] at hkinds
    split
    · next hbool => simp [hbool]
    · next hbool =>
      rw [Except.ok.injEq]
      exact ⟨fun h => ⟨hkinds, hbool, h.symm⟩, fun h => h.2.2.symm⟩

theorem addPromoted_of_kinds (hleft : left.kind = kind) (hright : right.kind = kind)
    (hbool : kind ≠ .bool) : addPromoted left right = .ok (addSameKind kind left right) := by
  subst hleft
  exact addPromoted_iff.mpr ⟨hright.symm, hbool, rfl⟩

theorem addPromoted_of_has (hl : left.Has kind) (hr : right.Has kind) (hk : kind.HasSum) :
    addPromoted left right = .ok (addSameKind kind left right) := by
  have hb : kind ≠ .bool := by
    rintro rfl
    rcases hk with h | h <;> cases h
  exact addPromoted_of_kinds hl.2 hr.2 hb

/-- **Values of kinds that have sums have a sum**, and it is well typed. -/
theorem exists_add {leftKind rightKind : Kind} (hl : left.Has leftKind) (hr : right.Has rightKind)
    (hlk : leftKind.HasSum) (hrk : rightKind.HasSum) :
    ∃ v, add left right = .ok v ∧ v.Has (if leftKind = rightKind then leftKind else .list) := by
  unfold add
  rw [hl.2, hr.2]
  rcases hlk with rfl | rfl <;> rcases hrk with rfl | rfl
  · exact ⟨_, addPromoted_of_has hl hr (.inl rfl), has_addSameKind hl hr (.inl rfl)⟩
  · have hl' := has_promote hl
    exact ⟨_, addPromoted_of_has hl' hr (.inr rfl), has_addSameKind hl' hr (.inr rfl)⟩
  · have hr' := has_promote hr
    exact ⟨_, addPromoted_of_has hl hr' (.inr rfl), has_addSameKind hl hr' (.inr rfl)⟩
  · exact ⟨_, addPromoted_of_has hl hr (.inr rfl), has_addSameKind hl hr (.inr rfl)⟩

theorem exists_add_same (hl : left.Has kind) (hr : right.Has kind) (hk : kind.HasSum) :
    ∃ v, add left right = .ok v ∧ v.Has kind := by
  obtain ⟨v, hv, hh⟩ := exists_add hl hr hk hk
  rw [if_pos rfl] at hh
  exact ⟨v, hv, hh⟩

/-- Booleans have no sum. -/
theorem add_bool (hl : left.kind = .bool) (hr : right.kind = .bool) :
    add left right = .error (.noSum .bool) := by
  unfold add addPromoted
  rw [hl, hr]
  rfl

theorem exists_foldlM_add {values : List Value} (hl : left.Has kind) (hk : kind.HasSum)
    (hv : ∀ v ∈ values, v.Has kind) : ∃ v, values.foldlM add left = .ok v ∧ v.Has kind := by
  induction values generalizing left with
  | nil => exact ⟨left, rfl, hl⟩
  | cons right values ih =>
    obtain ⟨total, ht, hh⟩ := exists_add_same hl (hv right List.mem_cons_self) hk
    obtain ⟨v, hf, hw⟩ := ih hh fun v hm => hv v (List.mem_cons_of_mem right hm)
    refine ⟨v, ?_, hw⟩
    rw [List.foldlM_cons, ht]
    exact hf

/-- Any number of values of one kind have a sum. -/
theorem exists_sum {values : List Value} (he : value.Has kind) (hk : kind.HasSum)
    (hv : ∀ v ∈ values, v.Has kind) : ∃ v, sum value values = .ok v ∧ v.Has kind := by
  cases values with
  | nil => exact ⟨value, rfl, he⟩
  | cons first values =>
    exact exists_foldlM_add (hv first List.mem_cons_self) hk fun v hm =>
      hv v (List.mem_cons_of_mem first hm)

end Sums

/-! ## Coercions -/

/-- **The refusals that conversions meet.** Of sums, only the sum of two booleans is refused, and
no path leads through a property that is not a map. -/
def Refusal.Arises : Refusal → Prop
  | .mismatchedKinds _ _ | .noSum _ | .notAMap _ => False
  | .unsupportedAddition cause => cause = .noSum .bool
  | _ => True

section Coercions

variable {scope : Scope} {r : Reference} {body : Phrase.Body} {value : Value} {kind : Kind}
  {cause : Refusal}

theorem has_referenceString (h : referenceString scope r = .ok value) : value.Has .string := by
  unfold referenceString at h
  split at h
  · cases h
    exact Value.Has.string _
  · obtain ⟨name, -, rfl⟩ := Blueprint.Property.map_eq_ok h
    split
    · exact Value.Has.string _
    · exact Value.Has.var name .string

theorem has_chunkString {chunk : Phrase.Chunk} (h : chunkString scope chunk = .ok value) :
    value.Has .string := by
  cases chunk with
  | literal text =>
    cases h
    exact Value.Has.string text
  | reference r => exact has_referenceString h

/-- The chunks of a phrase are strings, so adding them up is never refused. -/
theorem exists_sum_chunks {pieces : List Value}
    (h : body.chunks.mapM (chunkString scope) = .ok pieces) :
    ∃ v, sum (.string []) pieces = .ok v ∧ v.Has .string := by
  apply exists_sum (Value.Has.string []) (.inl rfl)
  intro v hv
  obtain ⟨chunk, -, hc⟩ := mem_of_mapM_eq_ok h v hv
  exact has_chunkString hc

theorem has_coerceString (h : coerceString scope body = .ok value) : value.Has .string := by
  obtain ⟨pieces, hp, hs⟩ := bind_eq_ok h
  obtain ⟨v, hv, hh⟩ := exists_sum_chunks hp
  rw [hv] at hs
  cases hs
  exact hh

/-- The items of a field are strings. -/
def Field.Typed : Field → Prop
  | .item value => value.Has .string
  | .reference _ => True

theorem typed_field {f : Field} (h : field scope body = .ok f) : f.Typed := by
  unfold field referenceField at h
  split at h
  · split at h
    · cases h
      exact Value.Has.string _
    · obtain ⟨name, -, rfl⟩ := Blueprint.Property.map_eq_ok h
      split
      · exact Value.Has.string _
      · split
        · exact Value.Has.string _
        · trivial
  · obtain ⟨v, hv, rfl⟩ := Blueprint.Property.map_eq_ok h
    exact has_coerceString hv

theorem has_groupFields {fields : List Field} (h : ∀ f ∈ fields, f.Typed) :
    ∀ v ∈ groupFields fields, v.Has .list := by
  induction fields with
  | nil => exact fun v hv => absurd hv List.not_mem_nil
  | cons f fields ih =>
    have ih := ih fun g hg => h g (List.mem_cons_of_mem f hg)
    have hf : f.Typed := h f List.mem_cons_self
    cases f with
    | reference name =>
      rw [groupFields]
      intro v hv
      rcases List.mem_cons.mp hv with rfl | hv
      · exact Value.Has.var name .list
      · exact ih v hv
    | item value =>
      rw [groupFields]
      split
      · next items values hg =>
        rw [hg] at ih
        intro v hv
        rcases List.mem_cons.mp hv with rfl | hv
        · apply Value.Has.list
          intro w hw
          rcases List.mem_cons.mp hw with rfl | hw
          · exact hf
          · exact Value.Has.of_mem (ih (.list items) List.mem_cons_self).1 hw
        · exact ih v (List.mem_cons_of_mem _ hv)
      · intro v hv
        rcases List.mem_cons.mp hv with rfl | hv
        · apply Value.Has.list
          intro w hw
          rw [List.mem_singleton.mp hw]
          exact hf
        · exact ih v hv

theorem exists_sum_fields {fields : List Field}
    (h : (words body).mapM (field scope) = .ok fields) :
    ∃ v, sum (.list []) (groupFields fields) = .ok v ∧ v.Has .list := by
  apply exists_sum (Value.Has.list fun v hv => absurd hv List.not_mem_nil) (.inr rfl)
  apply has_groupFields
  intro f hf
  obtain ⟨word, -, hw⟩ := mem_of_mapM_eq_ok h f hf
  exact typed_field hw

theorem has_coerceList (h : coerceList scope body = .ok value) : value.Has .list := by
  obtain ⟨fields, hf, hs⟩ := bind_eq_ok h
  obtain ⟨v, hv, hh⟩ := exists_sum_fields hf
  rw [hv] at hs
  cases hs
  exact hh

theorem has_coerceBool (h : coerceBool body = .ok value) : value.Has .bool := by
  unfold coerceBool at h
  split at h
  · split at h
    · cases h
      exact Value.Has.bool _
    · cases h
  · split at h
    · obtain ⟨name, -, rfl⟩ := Blueprint.Property.map_eq_ok h
      exact Value.Has.var name .bool
    · cases h

/-- **Text becomes a well-typed value of the kind that is asked for.** -/
theorem has_coerce (hk : kind ≠ .map) (h : coerce scope kind body = .ok value) :
    value.Has kind := by
  cases kind with
  | string => exact has_coerceString h
  | list => exact has_coerceList h
  | bool => exact has_coerceBool h
  | map => exact absurd rfl hk

end Coercions

/-! ## Include directories -/

theorem has_partitionItems {items : List Value} (h : ∀ v ∈ items, v.Has .string) :
    (∀ v ∈ (partitionItems items).1, v.Has .string) ∧
      ∀ v ∈ (partitionItems items).2, v.Has .string := by
  induction items with
  | nil => exact ⟨fun v hv => absurd hv List.not_mem_nil, fun v hv => absurd hv List.not_mem_nil⟩
  | cons item items ih =>
    obtain ⟨hown, hothers⟩ := ih fun v hv => h v (List.mem_cons_of_mem item hv)
    rw [partitionItems]
    simp only
    split
    · refine ⟨fun v hv => ?_, hothers⟩
      rcases List.mem_cons.mp hv with rfl | hv
      · exact Value.Has.string _
      · exact hown v hv
    · refine ⟨hown, fun v hv => ?_⟩
      rcases List.mem_cons.mp hv with rfl | hv
      · exact h v List.mem_cons_self
      · exact hothers v hv

theorem exists_combine {left right : Value} (hl : left.Has .list) (hr : right.Has .list) :
    ∃ v, combine left right = .ok v ∧ v.Has .list := by
  unfold combine
  split
  · exact ⟨right, rfl, hr⟩
  · split
    · exact ⟨left, rfl, hl⟩
    · exact exists_add_same hl hr (.inr rfl)

/-- **A list value always comes apart**, into two list values. -/
theorem exists_partition {value : Value} (hw : value.WellTyped) (hk : value.kind = .list) :
    ∃ own others, partition value = .ok (own, others) ∧ own.Has .list ∧ others.Has .list := by
  have hnone : (Value.list []).Has .list :=
    Value.Has.list fun v hv => absurd hv List.not_mem_nil
  induction hw with
  | string text => cases hk
  | bool b => cases hk
  | list items hitems hkinds =>
    have h := has_partitionItems fun v hv => (⟨hitems v hv, hkinds v hv⟩ : v.Has .string)
    exact ⟨_, _, rfl, Value.Has.list h.1, Value.Has.list h.2⟩
  | var name kind =>
    have hvar : (Value.var name kind).Has .list := ⟨.var name kind, hk⟩
    have hown : (Value.list [.string ['.']]).Has .list := by
      apply Value.Has.list
      intro v hv
      rw [List.mem_singleton.mp hv]
      exact Value.Has.string _
    rw [partition]
    split
    · exact ⟨_, _, rfl, hown, hnone⟩
    · exact ⟨_, _, rfl, hnone, hvar⟩
  | binary left right kind hleft hright hleftKind hrightKind hsum ihl ihr =>
    obtain ⟨leftOwn, leftRest, hl, hlo, hlr⟩ := ihl (hleftKind.trans hk)
    obtain ⟨rightOwn, rightRest, hr, hro, hrr⟩ := ihr (hrightKind.trans hk)
    obtain ⟨own, ho, hown⟩ := exists_combine hlo hro
    obtain ⟨rest, hrest, hothers⟩ := exists_combine hlr hrr
    refine ⟨own, rest, ?_, hown, hothers⟩
    rw [partition, hl, hr]
    simp only [bind, Except.bind, ho, hrest]
    rfl

/-- The directories of an assignment come apart, into two list values. -/
theorem exists_partition_of_coerceList {scope : Scope} {body : Phrase.Body} {value : Value}
    (h : coerceList scope body = .ok value) :
    ∃ own others, partition value = .ok (own, others) ∧ own.Has .list ∧ others.Has .list := by
  obtain ⟨hw, hk⟩ := has_coerceList h
  exact exists_partition hw hk

theorem has_parts_of_coerceList {scope : Scope} {body : Phrase.Body} {value own others : Value}
    (h : coerceList scope body = .ok value) (hparts : partition value = .ok (own, others)) :
    own.Has .list ∧ others.Has .list := by
  obtain ⟨own', others', hparts', hown, hothers⟩ := exists_partition_of_coerceList h
  cases hparts.symm.trans hparts'
  exact ⟨hown, hothers⟩

end MakeBlueprint.Conversion
