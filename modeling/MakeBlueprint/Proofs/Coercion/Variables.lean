import MakeBlueprint.Proofs.Coercion.Names

/-!
# What coercion takes for a variable

A reference is a function call, the escape `$$` or a variable. Strings and lists evaluate the calls
and write the escape as a dollar sign, so that all they refer to are variables. A truth value is
the one reference that its text consists of, whatever the reference is: there a function call and
the escape are kept as variables too, under the name that they are written with.

* `NamesVariable`: the names that only variables have; `namesVariable_iff`: a reference decides
  about its name.
* `namesVariable_coerceBool_iff`: a truth value refers to a variable if its reference is one.
* `coerce_refers_to_variables`: the statement on all kinds.
-/

namespace MakeBlueprint.Makefile

variable {scope : Scope} {r other : Reference} {name : Text}

/-- A name of variables: whatever reference has this name is one to a variable. -/
def NamesVariable (scope : Scope) (name : Text) : Prop :=
  ∀ r : Reference, r.name.constant? = some name → r.IsVariable scope

/-- References with one literal name are calls alike. -/
theorem Reference.call?_congr (hr : r.name.constant? = some name)
    (hother : other.name.constant? = some name) : r.call? scope = other.call? scope := by
  have hbody : r.name.body = other.name.body :=
    (Phrase.Body.eq_ofText_of_constant? hr).trans (Phrase.Body.eq_ofText_of_constant? hother).symm
  rw [call?, call?, hbody]

/-- One reference decides about its name. -/
theorem namesVariable_iff (hname : r.name.constant? = some name) :
    NamesVariable scope name ↔ r.IsVariable scope := by
  constructor
  · intro h
    exact h r hname
  · rintro ⟨hcall, hdollar⟩ other hother
    refine ⟨?_, ?_⟩
    · rw [Reference.call?_congr hother hname]
      exact hcall
    · rw [hother, ← hname]
      exact hdollar

/-- A variable has a name of variables. -/
theorem namesVariable_of_isVariable (b : Phrase.Body) :
    ∀ r ∈ b.references, ∀ name, r.IsVariable scope → r.name.constant? = some name →
      NamesVariable scope name :=
  fun _ _ _ hvariable hname => (namesVariable_iff hname).mpr hvariable

end MakeBlueprint.Makefile

namespace MakeBlueprint.Conversion

open Blueprint (Kind Value)
open Makefile (NamesVariable Phrase Reference Scope)

variable {scope : Scope} {body : Phrase.Body} {value : Value}

/-- A value that is a reference refers to its name. -/
theorem namesOnly_var_iff {P : Text → Prop} {name : Text} {kind : Kind} :
    (Value.var name kind).NamesOnly P ↔ P name :=
  ⟨fun h => h kind ⟨name, kind, kind⟩ (List.mem_singleton_self _), Value.namesOnly_var kind⟩

/-- A literal text is not one reference. -/
theorem soleReference?_trim_of_constant? {text : Text} (h : body.constant? = some text) :
    body.trimStart.trimEnd.soleReference? = none := by
  rw [Option.eq_none_iff_forall_ne_some]
  intro r hr
  have hreferences := references_of_soleReference? hr
  rw [Phrase.Body.references_trimEnd, Phrase.Body.references_trimStart] at hreferences
  have hmem : r ∈ body.references := by
    rw [hreferences]
    exact List.mem_singleton_self r
  rw [Phrase.Body.references_of_constant? h] at hmem
  cases hmem

/-- **A truth value refers to variables alone exactly if the reference that its text consists of, if
it is one, is a variable.** -/
theorem namesVariable_coerceBool_iff (h : coerceBool body = .ok value) :
    value.NamesOnly (NamesVariable scope) ↔
      ∀ r, body.trimStart.trimEnd.soleReference? = some r → r.IsVariable scope := by
  unfold coerceBool at h
  split at h
  · next text hconstant =>
    rw [soleReference?_trim_of_constant? hconstant]
    split at h
    · cases h
      exact iff_of_true (Value.namesOnly_bool _) fun r hr => nomatch hr
    · cases h
  · split at h
    · next r hr =>
      obtain ⟨name, hname, rfl⟩ := Blueprint.Property.map_eq_ok h
      rw [namesOnly_var_iff, Makefile.namesVariable_iff (constant?_of_literalName hname), hr]
      constructor
      · rintro hvariable other ⟨⟩
        exact hvariable
      · intro hall
        exact hall r rfl
    · cases h

/-- **What values refer to are variables, but for truth values.** Every name in a coerced value is
the literal name of a reference of the text. In strings and lists no reference of that name is a
function call, and none is the escape `$$`. In a truth value so much holds exactly if the text is
not a function call or the escape by itself: both are kept there as references to variables. -/
theorem coerce_refers_to_variables (scope : Scope) (kind : Kind) (body : Phrase.Body)
    (value : Value) (h : coerce scope kind body = .ok value) :
    value.NamesOnly body.RefersTo ∧
      (kind ≠ .bool → value.NamesOnly (NamesVariable scope)) ∧
      (kind = .bool → (value.NamesOnly (NamesVariable scope) ↔
        ∀ r, body.trimStart.trimEnd.soleReference? = some r → r.IsVariable scope)) := by
  refine ⟨namesOnly_coerce h, fun hkind => ?_, ?_⟩
  · cases kind with
    | string => exact namesOnly_coerceString (Makefile.namesVariable_of_isVariable body) h
    | bool => exact absurd rfl hkind
    | list | map => exact namesOnly_coerceList (Makefile.namesVariable_of_isVariable body) h
  · rintro rfl
    exact namesVariable_coerceBool_iff h

/-- The text `$$` as a truth value is accepted, as a reference to the variable that stands for the
escape. -/
theorem coerce_refers_to_variables_escape :
    let body : Phrase.Body := .ref (.ofText Makefile.dollarName) 1 0 .bare .nil
    coerce Scope.empty .bool body = .ok (.var Makefile.dollarName .bool) ∧
      ¬ (Value.var Makefile.dollarName .bool).NamesOnly (NamesVariable Scope.empty) := by
  intro body
  have h : coerce Scope.empty .bool body = .ok (.var Makefile.dollarName .bool) := by rfl
  refine ⟨h, fun hnames => ?_⟩
  have hvariable := ((coerce_refers_to_variables Scope.empty .bool body _ h).2.2 rfl).mp hnames
  exact absurd (hvariable ⟨.ofText 1 Makefile.dollarName, 0, .bare⟩ rfl) (by decide)

end MakeBlueprint.Conversion
