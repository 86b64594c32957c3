import MakeBlueprint.Proofs.Coercion.Evaluation
import MakeBlueprint.Proofs.Conversion.Writes

/-!
# Refusals of makefile text

Text is refused for one of its references or as a whole, and the refusal repeats what it is about
(`Refusal.StemsFrom`). Sums never are the reason: the pieces of a text are of one kind.

* `exists_reference_of_coerceString_error`, `exists_reference_of_coerceList_error`: strings and
  lists are refused for a reference without a literal name.
* `stemsFrom_of_coerce_error`: every coercion is refused for a reason in its text.
* `stemsFrom_of_writes_error`: so is what an assignment asks for, unless its name is refused.
-/

namespace MakeBlueprint.Conversion

open Blueprint (Kind Path Value)
open Makefile (Phrase Reference Scope)

/-- **A refusal for a reason in a text**: a reference whose name is not literal, or all of it. -/
inductive Refusal.StemsFrom (body : Phrase.Body) : Refusal → Prop
  | computedName (r : Reference) (hr : r ∈ body.references) :
      StemsFrom body (.computedName r.name.dump)
  | computedBool : StemsFrom body (.computedBool body.dump)
  | unexpectedBool : StemsFrom body (.unexpectedBool body.dump)
  | unsupportedHostOs : StemsFrom body (.unsupportedHostOs body.dump)

theorem Refusal.StemsFrom.arises {body : Phrase.Body} {cause : Refusal}
    (h : cause.StemsFrom body) : cause.Arises := by
  cases h <;> trivial

variable {scope : Scope} {body : Phrase.Body} {r : Reference} {kind : Kind} {cause : Refusal}
  {name : Text} {path : Path} {append : Bool}

/-! ## Coercions -/

theorem eq_computedName_of_literalName_error (h : literalName r = .error cause) :
    cause = .computedName r.name.dump := by
  unfold literalName at h
  split at h
  · cases h
  · cases h
    rfl

/-- **A string is refused for a reference without a literal name.** -/
theorem exists_reference_of_coerceString_error (h : coerceString scope body = .error cause) :
    ∃ r ∈ body.references, cause = .computedName r.name.dump := by
  rcases bind_eq_error h with hp | ⟨pieces, hp, hs⟩
  · obtain ⟨chunk, hchunk, hc⟩ := exists_of_mapM_eq_error hp
    cases chunk with
    | literal text => cases hc
    | reference r =>
      refine ⟨r, Phrase.Body.mem_chunks_iff.mp hchunk, ?_⟩
      unfold chunkString referenceString at hc
      dsimp only at hc
      split at hc
      · cases hc
      · exact eq_computedName_of_literalName_error (map_eq_error hc)
  · obtain ⟨v, hv, -⟩ := exists_sum_chunks hp
    rw [hv] at hs
    cases hs

theorem exists_reference_of_field_error (h : field scope body = .error cause) :
    ∃ r ∈ body.references, cause = .computedName r.name.dump := by
  unfold field referenceField at h
  split at h
  · next r hr =>
    refine ⟨r, by rw [references_of_soleReference? hr]; exact List.mem_singleton_self r, ?_⟩
    split at h
    · cases h
    · exact eq_computedName_of_literalName_error (map_eq_error h)
  · exact exists_reference_of_coerceString_error (map_eq_error h)

/-- **So is a list**: the reference is in one of its words. -/
theorem exists_reference_of_coerceList_error (h : coerceList scope body = .error cause) :
    ∃ r ∈ body.references, cause = .computedName r.name.dump := by
  rcases bind_eq_error h with hf | ⟨fields, hf, hs⟩
  · obtain ⟨word, hword, hw⟩ := exists_of_mapM_eq_error hf
    obtain ⟨r, hr, hcause⟩ := exists_reference_of_field_error hw
    exact ⟨r, Phrase.Body.mem_references_splitAtMost.mp ⟨word, List.mem_of_mem_filter hword, hr⟩,
      hcause⟩
  · obtain ⟨v, hv, -⟩ := exists_sum_fields hf
    rw [hv] at hs
    cases hs

theorem stemsFrom_of_coerceString_error (h : coerceString scope body = .error cause) :
    cause.StemsFrom body := by
  obtain ⟨r, hr, rfl⟩ := exists_reference_of_coerceString_error h
  exact .computedName r hr

theorem stemsFrom_of_coerceList_error (h : coerceList scope body = .error cause) :
    cause.StemsFrom body := by
  obtain ⟨r, hr, rfl⟩ := exists_reference_of_coerceList_error h
  exact .computedName r hr

theorem stemsFrom_of_coerceBool_error (h : coerceBool body = .error cause) :
    cause.StemsFrom body := by
  unfold coerceBool at h
  split at h
  · split at h
    · cases h
    · cases h
      exact .unexpectedBool
  · split at h
    · next r hr =>
      obtain rfl := eq_computedName_of_literalName_error (map_eq_error h)
      have hreferences := references_of_soleReference? hr
      rw [Phrase.Body.references_trimEnd, Phrase.Body.references_trimStart] at hreferences
      exact .computedName r (hreferences ▸ List.mem_singleton_self r)
    · cases h
      exact .computedBool

/-- **Every coercion is refused for a reason in its text.** -/
theorem stemsFrom_of_coerce_error (h : coerce scope kind body = .error cause) :
    cause.StemsFrom body := by
  cases kind with
  | string => exact stemsFrom_of_coerceString_error h
  | bool => exact stemsFrom_of_coerceBool_error h
  | list | map => exact stemsFrom_of_coerceList_error h

/-! ## Assignments -/

theorem stemsFrom_of_specialWrites_error {special : Special}
    (h : specialWrites scope path body append special = .error cause) : cause.StemsFrom body := by
  cases special with
  | localIncludeDirs | exportIncludeDirs =>
    rcases bind_eq_error h with h | ⟨value, hv, h⟩
    · exact stemsFrom_of_coerceList_error h
    · obtain ⟨own, others, hp, -⟩ := exists_partition_of_coerceList hv
      rw [hp] at h
      cases h
  | stem =>
    rcases bind_eq_error h with h | ⟨value, -, h⟩
    · exact stemsFrom_of_coerceString_error h
    · cases h
  | hostOs =>
    rcases bind_eq_error h with h | ⟨value, -, h⟩
    · exact stemsFrom_of_coerceList_error h
    · cases value with
      | list items => cases h
      | _ =>
        cases h
        exact .unsupportedHostOs

/-- **What an assignment asks for is refused for its name, or for a reason in its text.** -/
theorem stemsFrom_of_writes_error (h : writes scope name path body append = .error cause) :
    cause.StemsFrom body ∨ cause = .unsupportedAssignment name := by
  unfold writes at h
  split at h
  · cases h
  · rcases bind_eq_error h with h | ⟨value, -, h⟩
    · exact .inl (stemsFrom_of_coerceString_error h)
    · cases h
  · rcases bind_eq_error h with h | ⟨value, -, h⟩
    · exact .inl (stemsFrom_of_coerce_error h)
    · cases h
  · exact .inl (stemsFrom_of_specialWrites_error h)
  · cases h
    exact .inr rfl
  · cases h
    exact .inr rfl

end MakeBlueprint.Conversion
