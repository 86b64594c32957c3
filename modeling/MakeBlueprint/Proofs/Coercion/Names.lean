import MakeBlueprint.Proofs.Coercion.Evaluation
import MakeBlueprint.Proofs.Conversion.Writes
import MakeBlueprint.Proofs.Typing.References

/-!
# The variables that values refer to

Coercion invents no names: a value refers to a variable only where the text that it comes from has a
reference with that literal name (`Phrase.Body.RefersTo`). Sums and the splitting of include
directories keep this, so it holds of everything that an assignment writes.

* `Reference.IsVariable`: the references that strings and lists keep as variables.
* `Value.NamesOnly`: all references of a value have names of some kind.
* `namesOnly_coerce`: coerced text refers to what the text refers to.
* `namesOnly_of_writes`: so does what an assignment writes.
-/

namespace MakeBlueprint.Blueprint

/-- All references of a value have names that satisfy a predicate. -/
def Value.NamesOnly (P : Text → Prop) (v : Value) : Prop := ∀ kind, ∀ u ∈ v.uses kind, P u.name

namespace Value

variable {P : Text → Prop} {left right : Value} {items : List Value}

@[simp] theorem namesOnly_string (text : Text) : (Value.string text).NamesOnly P := by
  intro kind u hu
  cases hu

@[simp] theorem namesOnly_bool (b : Bool) : (Value.bool b).NamesOnly P := by
  intro kind u hu
  cases hu

theorem namesOnly_var {name : Text} (kind : Kind) (h : P name) : (Value.var name kind).NamesOnly P := by
  intro asked u hu
  rw [List.mem_singleton.mp hu]
  exact h

theorem namesOnly_binary {operator : Char} {kind : Kind} :
    (Value.binary operator left right kind).NamesOnly P ↔ left.NamesOnly P ∧ right.NamesOnly P := by
  constructor
  · intro h
    exact ⟨fun asked u hu => h asked u (List.mem_append_left _ hu),
      fun asked u hu => h asked u (List.mem_append_right _ hu)⟩
  · rintro ⟨hl, hr⟩ asked u hu
    rw [uses] at hu
    rcases List.mem_append.mp hu with hu | hu
    · exact hl asked u hu
    · exact hr asked u hu

/-- The names in a value do not depend on the kind that is asked for. -/
theorem map_name_uses (kind other : Kind) :
    ∀ v : Value, (v.uses kind).map Use.name = (v.uses other).map Use.name
  | .string _ | .bool _ | .var _ _ | .list _ | .map _ => rfl
  | .binary _ left right _ => by
    rw [uses, uses, List.map_append, List.map_append, map_name_uses kind other left,
      map_name_uses kind other right]

theorem namesOnly_of_uses {v : Value} {kind : Kind} (h : ∀ u ∈ v.uses kind, P u.name) :
    v.NamesOnly P := by
  intro other u hu
  have hname : u.name ∈ (v.uses kind).map Use.name := by
    rw [map_name_uses kind other]
    exact List.mem_map_of_mem hu
  obtain ⟨w, hw, he⟩ := List.mem_map.mp hname
  rw [← he]
  exact h w hw

theorem namesOnly_list : (Value.list items).NamesOnly P ↔ ∀ item ∈ items, item.NamesOnly P := by
  constructor
  · intro h item hitem
    exact namesOnly_of_uses fun u hu => h .list u (mem_usesAll.mpr ⟨item, hitem, hu⟩)
  · intro h kind u hu
    rw [uses] at hu
    obtain ⟨item, hitem, hu⟩ := mem_usesAll.mp hu
    exact h item hitem .string u hu

end Value

end MakeBlueprint.Blueprint

namespace MakeBlueprint.Makefile

/-- **A reference to a variable**: it is no function call and not the escape `$$`. -/
def Reference.IsVariable (scope : Scope) (r : Reference) : Prop :=
  r.call? scope = none ∧ r.name.constant? ≠ some dollarName

instance (scope : Scope) (r : Reference) : Decidable (r.IsVariable scope) :=
  inferInstanceAs (Decidable (_ ∧ _))

/-- A body refers to its variables. -/
theorem Phrase.Body.refersTo_of_mem {scope : Scope} {b : Phrase.Body} :
    ∀ r ∈ b.references, ∀ name, r.IsVariable scope → r.name.constant? = some name →
      b.RefersTo name :=
  fun r hr _ _ hname => ⟨r, hr, hname⟩

end MakeBlueprint.Makefile

namespace MakeBlueprint.Conversion

open Blueprint (Kind Path Property Value)
open Makefile (Phrase Reference Scope)

/-! ## Sums -/

section Sums

variable {P : Text → Prop} {left right value : Value}

theorem namesOnly_promote (h : left.NamesOnly P) : (promote left).NamesOnly P := by
  have hitem : (Value.list [left]).NamesOnly P := by
    rw [Value.namesOnly_list]
    intro item hitem
    rw [List.mem_singleton.mp hitem]
    exact h
  cases left with
  | list items => exact h
  | _ => exact hitem

theorem namesOnly_addSameKind (kind : Kind) (hl : left.NamesOnly P) (hr : right.NamesOnly P) :
    (addSameKind kind left right).NamesOnly P := by
  unfold addSameKind
  split
  · exact Value.namesOnly_string _
  · rw [Value.namesOnly_list] at hl hr ⊢
    intro item hitem
    rcases List.mem_append.mp hitem with hitem | hitem
    · exact hl item hitem
    · exact hr item hitem
  · exact Value.namesOnly_binary.mpr ⟨hl, hr⟩

theorem namesOnly_addPromoted (hl : left.NamesOnly P) (hr : right.NamesOnly P)
    (h : addPromoted left right = .ok value) : value.NamesOnly P := by
  obtain ⟨-, -, rfl⟩ := addPromoted_iff.mp h
  exact namesOnly_addSameKind _ hl hr

/-- **A sum refers to what its sides refer to.** -/
theorem namesOnly_add (hl : left.NamesOnly P) (hr : right.NamesOnly P)
    (h : add left right = .ok value) : value.NamesOnly P := by
  unfold add at h
  split at h
  · exact namesOnly_addPromoted (namesOnly_promote hl) hr h
  · exact namesOnly_addPromoted hl (namesOnly_promote hr) h
  · exact namesOnly_addPromoted hl hr h

theorem namesOnly_sum {empty : Value} {values : List Value} (he : empty.NamesOnly P)
    (hv : ∀ v ∈ values, v.NamesOnly P) (h : sum empty values = .ok value) :
    value.NamesOnly P := by
  cases values with
  | nil =>
    cases h
    exact he
  | cons first values =>
    refine foldlM_keeps (P := Value.NamesOnly P) (fun v hmem b c hb hc => ?_)
      (hv first List.mem_cons_self) h
    exact namesOnly_add hb (hv v (List.mem_cons_of_mem first hmem)) hc

theorem namesOnly_changed {append : Bool} {old : Option Value}
    (ho : ∀ v, old = some v → v.NamesOnly P) (hv : right.NamesOnly P)
    (h : State.changed append right old = .ok value) : value.NamesOnly P := by
  unfold State.changed at h
  split at h
  · next v =>
    split at h
    · cases hadd : add v right with
      | error cause =>
        rw [hadd] at h
        cases h
      | ok total =>
        rw [hadd] at h
        cases h
        exact namesOnly_add (ho v rfl) hv hadd
    · cases h
      exact hv
  · cases h
    exact hv

end Sums

/-! ## Coercions -/

section Coercions

variable {P : Text → Prop} {scope : Scope} {body : Phrase.Body} {r : Reference} {value : Value}
  {kind : Kind}

theorem isVariable_of_literalName {name : Text} (hcall : r.call? scope = none)
    (h : literalName r = .ok name) (hdollar : name ≠ Makefile.dollarName) : r.IsVariable scope := by
  refine ⟨hcall, ?_⟩
  rw [constant?_of_literalName h]
  exact fun he => hdollar (Option.some.inj he)

theorem namesOnly_referenceString
    (hr : ∀ name, r.IsVariable scope → r.name.constant? = some name → P name)
    (h : referenceString scope r = .ok value) : value.NamesOnly P := by
  unfold referenceString at h
  split at h
  · cases h
    exact Value.namesOnly_string _
  · next hcall =>
    obtain ⟨name, hname, rfl⟩ := Blueprint.Property.map_eq_ok h
    split
    · exact Value.namesOnly_string _
    · next hdollar =>
      exact Value.namesOnly_var _ (hr name (isVariable_of_literalName hcall hname hdollar)
        (constant?_of_literalName hname))

/-- A string refers to the variables of its text. -/
theorem namesOnly_coerceString
    (hr : ∀ r ∈ body.references, ∀ name, r.IsVariable scope → r.name.constant? = some name → P name)
    (h : coerceString scope body = .ok value) : value.NamesOnly P := by
  obtain ⟨pieces, hpieces, hsum⟩ := bind_eq_ok h
  refine namesOnly_sum (Value.namesOnly_string _) (fun piece hpiece => ?_) hsum
  obtain ⟨chunk, hchunk, hvalue⟩ := mem_of_mapM_eq_ok hpieces piece hpiece
  cases chunk with
  | literal text =>
    cases hvalue
    exact Value.namesOnly_string _
  | reference r => exact namesOnly_referenceString (hr r (Phrase.Body.mem_chunks_iff.mp hchunk)) hvalue

/-- The names that a word of a list refers to. -/
def Field.NamesOnly (P : Text → Prop) : Field → Prop
  | .item value => value.NamesOnly P
  | .reference name => P name

theorem namesOnly_field {f : Field}
    (hr : ∀ r ∈ body.references, ∀ name, r.IsVariable scope → r.name.constant? = some name → P name)
    (h : field scope body = .ok f) : f.NamesOnly P := by
  unfold field at h
  split at h
  · next r hsole =>
    have hmem : r ∈ body.references := by
      rw [references_of_soleReference? hsole]
      exact List.mem_singleton_self r
    unfold referenceField at h
    split at h
    · cases h
      exact Value.namesOnly_string _
    · next hcall =>
      obtain ⟨name, hname, rfl⟩ := Blueprint.Property.map_eq_ok h
      split
      · exact Value.namesOnly_string _
      · split
        · exact Value.namesOnly_string _
        · next hdollar =>
          exact hr r hmem name (isVariable_of_literalName hcall hname hdollar)
            (constant?_of_literalName hname)
  · obtain ⟨v, hv, rfl⟩ := Blueprint.Property.map_eq_ok h
    exact namesOnly_coerceString hr hv

theorem namesOnly_groupFields {fields : List Field} (h : ∀ f ∈ fields, f.NamesOnly P) :
    ∀ v ∈ groupFields fields, v.NamesOnly P := by
  induction fields with
  | nil => exact fun v hv => absurd hv List.not_mem_nil
  | cons f fields ih =>
    have ih := ih fun g hg => h g (List.mem_cons_of_mem f hg)
    have hf : f.NamesOnly P := h f List.mem_cons_self
    intro v hv
    cases f with
    | reference name =>
      rcases List.mem_cons.mp hv with rfl | hv
      · exact Value.namesOnly_var _ hf
      · exact ih v hv
    | item value =>
      rw [groupFields] at hv
      split at hv
      · next items values hg =>
        rw [hg] at ih
        rcases List.mem_cons.mp hv with rfl | hv
        · have hitems := Value.namesOnly_list.mp (ih (.list items) List.mem_cons_self)
          rw [Value.namesOnly_list]
          intro item hitem
          rcases List.mem_cons.mp hitem with rfl | hitem
          · exact hf
          · exact hitems item hitem
        · exact ih v (List.mem_cons_of_mem _ hv)
      · rcases List.mem_cons.mp hv with rfl | hv
        · rw [Value.namesOnly_list]
          intro item hitem
          rw [List.mem_singleton.mp hitem]
          exact hf
        · exact ih v hv

/-- A list refers to the variables of its text. -/
theorem namesOnly_coerceList
    (hr : ∀ r ∈ body.references, ∀ name, r.IsVariable scope → r.name.constant? = some name → P name)
    (h : coerceList scope body = .ok value) : value.NamesOnly P := by
  obtain ⟨fields, hfields, hsum⟩ := bind_eq_ok h
  refine namesOnly_sum ?_ (namesOnly_groupFields fun f hf => ?_) hsum
  · exact Value.namesOnly_list.mpr fun item hitem => absurd hitem List.not_mem_nil
  · obtain ⟨word, hword, hvalue⟩ := mem_of_mapM_eq_ok hfields f hf
    refine namesOnly_field (fun r hmem => hr r ?_) hvalue
    exact Phrase.Body.mem_references_splitAtMost.mp ⟨word, List.mem_of_mem_filter hword, hmem⟩

theorem namesOnly_coerceBool (h : coerceBool body = .ok value) :
    value.NamesOnly body.RefersTo := by
  unfold coerceBool at h
  split at h
  · split at h
    · cases h
      exact Value.namesOnly_bool _
    · cases h
  · split at h
    · next r hr =>
      obtain ⟨name, hname, rfl⟩ := Blueprint.Property.map_eq_ok h
      refine Value.namesOnly_var _ ⟨r, ?_, constant?_of_literalName hname⟩
      have hreferences := references_of_soleReference? hr
      rw [Phrase.Body.references_trimEnd, Phrase.Body.references_trimStart] at hreferences
      rw [hreferences]
      exact List.mem_singleton_self r
    · cases h

/-- **Coerced text refers to what the text refers to.** -/
theorem namesOnly_coerce (h : coerce scope kind body = .ok value) :
    value.NamesOnly body.RefersTo := by
  cases kind with
  | string => exact namesOnly_coerceString Phrase.Body.refersTo_of_mem h
  | bool => exact namesOnly_coerceBool h
  | list | map => exact namesOnly_coerceList Phrase.Body.refersTo_of_mem h

end Coercions

/-! ## Writes -/

section Writes

variable {P : Text → Prop} {scope : Scope} {body : Phrase.Body} {name : Text} {path : Path}
  {append : Bool} {ws : List Write}

theorem namesOnly_partitionItems {items : List Value} (h : ∀ v ∈ items, v.NamesOnly P) :
    (∀ v ∈ (partitionItems items).1, v.NamesOnly P) ∧
      ∀ v ∈ (partitionItems items).2, v.NamesOnly P := by
  induction items with
  | nil => exact ⟨fun v hv => absurd hv List.not_mem_nil, fun v hv => absurd hv List.not_mem_nil⟩
  | cons item items ih =>
    obtain ⟨hown, hothers⟩ := ih fun v hv => h v (List.mem_cons_of_mem item hv)
    rw [partitionItems]
    simp only
    split
    · refine ⟨fun v hv => ?_, hothers⟩
      rcases List.mem_cons.mp hv with rfl | hv
      · exact Value.namesOnly_string _
      · exact hown v hv
    · refine ⟨hown, fun v hv => ?_⟩
      rcases List.mem_cons.mp hv with rfl | hv
      · exact h v List.mem_cons_self
      · exact hothers v hv

theorem namesOnly_combine {left right value : Value} (hl : left.NamesOnly P)
    (hr : right.NamesOnly P) (h : combine left right = .ok value) : value.NamesOnly P := by
  unfold combine at h
  split at h
  · cases h
    exact hr
  · split at h
    · cases h
      exact hl
    · exact namesOnly_add hl hr h

/-- Both parts of a list value refer to what the value refers to. -/
theorem namesOnly_partition : ∀ {value own others : Value}, value.NamesOnly P →
    partition value = .ok (own, others) → own.NamesOnly P ∧ others.NamesOnly P
  | .binary _ left right _, own, others, hv, h => by
    obtain ⟨hleft, hright⟩ := Value.namesOnly_binary.mp hv
    rw [partition] at h
    obtain ⟨⟨leftOwn, leftRest⟩, hl, h⟩ := bind_eq_ok h
    obtain ⟨⟨rightOwn, rightRest⟩, hr, h⟩ := bind_eq_ok h
    obtain ⟨o, ho, h⟩ := bind_eq_ok h
    obtain ⟨rest, hrest, h⟩ := bind_eq_ok h
    cases h
    have hleftParts := namesOnly_partition hleft hl
    have hrightParts := namesOnly_partition hright hr
    exact ⟨namesOnly_combine hleftParts.1 hrightParts.1 ho,
      namesOnly_combine hleftParts.2 hrightParts.2 hrest⟩
  | .var name kind, own, others, hv, h => by
    have hnone : (Value.list []).NamesOnly P :=
      Value.namesOnly_list.mpr fun item hitem => absurd hitem List.not_mem_nil
    rw [partition] at h
    split at h
    · cases h
      refine ⟨Value.namesOnly_list.mpr fun item hitem => ?_, hnone⟩
      rw [List.mem_singleton.mp hitem]
      exact Value.namesOnly_string _
    · cases h
      exact ⟨hnone, hv⟩
  | .list items, own, others, hv, h => by
    have hparts := namesOnly_partitionItems (Value.namesOnly_list.mp hv)
    cases h
    exact ⟨Value.namesOnly_list.mpr hparts.1, Value.namesOnly_list.mpr hparts.2⟩
  | .string _, own, others, hv, h | .bool _, own, others, hv, h
  | .map _, own, others, hv, h => by
    cases h
    exact ⟨Value.namesOnly_list.mpr fun item hitem => absurd hitem List.not_mem_nil, hv⟩

theorem namesOnly_stemProperty {value : Value} (h : value.NamesOnly P) :
    (State.stemProperty value).2.NamesOnly P := by
  unfold State.stemProperty
  split
  · split
    · exact (Value.namesOnly_binary.mp h).2
    · exact h
  · exact h

/-- **What an assignment writes refers to what its text refers to.** -/
theorem namesOnly_of_writes (h : writes scope name path body append = .ok ws) :
    ∀ w ∈ ws, w.value.NamesOnly body.RefersTo := by
  intro w hw
  cases writesCase_of_writes h with
  | dropped => exact absurd hw List.not_mem_nil
  | armMode value hm hvalue =>
    rw [List.mem_singleton.mp hw]
    exact namesOnly_coerceString Phrase.Body.refersTo_of_mem hvalue
  | property property kind value hm hvalue =>
    rw [List.mem_singleton.mp hw]
    exact namesOnly_coerce hvalue
  | localIncludeDirs value own others hm hvalue hparts
  | exportIncludeDirs value own others hm hvalue hparts =>
    obtain ⟨hown, hothers⟩ :=
      namesOnly_partition (namesOnly_coerceList Phrase.Body.refersTo_of_mem hvalue) hparts
    rcases eq_of_mem_directoryWrites hw with rfl | rfl
    · exact hown
    · exact hothers
  | stem value hm hvalue =>
    rw [List.mem_singleton.mp hw]
    exact namesOnly_stemProperty (namesOnly_coerceString Phrase.Body.refersTo_of_mem hvalue)
  | hostOs items =>
    obtain ⟨system, -, on, rfl⟩ := exists_system_of_mem_hostWrites hw
    exact Value.namesOnly_bool on

end Writes

end MakeBlueprint.Conversion
