import MakeBlueprint.Conversion.Vocabulary

/-!
# What the name of a variable tells

`meaningCase` takes `Meaning.ofName` apart once, with the table row or the form of the name that
each meaning comes from. `ofName_eq_global_iff` and `ofName_of_mem_specialVariables` go the other
way.
-/

namespace MakeBlueprint.Conversion

open Blueprint (Kind)

/-- The variable for the instruction set. -/
def armModeName : Text := "LOCAL_ARM_MODE"

/-- The variable for the host systems. -/
def hostOsName : Text := "LOCAL_MODULE_HOST_OS"

theorem mem_of_lookup {α β : Type} [BEq α] [LawfulBEq α] {a : α} {b : β} {rows : List (α × β)}
    (h : rows.lookup a = some b) : (a, b) ∈ rows := by
  induction rows with
  | nil => cases h
  | cons row rows ih =>
    obtain ⟨x, y⟩ := row
    rw [List.lookup_cons] at h
    split at h
    · next he =>
      rw [beq_iff_eq.mp he]
      cases h
      exact List.mem_cons_self
    · exact List.mem_cons_of_mem _ (ih h)

/-- **The meaning of a name** and what it comes from. -/
inductive MeaningCase (name : Text) : Meaning → Prop
  | dropped : MeaningCase name .dropped
  | armMode (h : name = armModeName) : MeaningCase name .armMode
  | property (property : Text) (kind : Kind) (h : (name, property, kind) ∈ standardProperties) :
      MeaningCase name (.property property kind)
  | special (special : Special) (h : (name, special) ∈ specialVariables) :
      MeaningCase name (.special special)
  | unsupported (h : isLocalName name = true) : MeaningCase name .unsupported
  | global (h : isLocalName name = false) : MeaningCase name .global

theorem meaningCase (name : Text) : MeaningCase name (Meaning.ofName name) := by
  unfold Meaning.ofName
  split
  · exact .dropped
  · split
    · next h => exact .armMode h
    · split
      · next property kind h => exact .property property kind (mem_of_lookup h)
      · split
        · next special h => exact .special special (mem_of_lookup h)
        · split
          · next h => exact .unsupported h
          · next h => exact .global (Bool.eq_false_iff.mpr h)

variable {name property : Text} {kind : Kind}

theorem mem_of_ofName_property (h : Meaning.ofName name = .property property kind) :
    (name, property, kind) ∈ standardProperties := by
  have hcase := meaningCase name
  rw [h] at hcase
  cases hcase with
  | property property kind hrow => exact hrow

theorem eq_of_ofName_armMode (h : Meaning.ofName name = .armMode) : name = armModeName := by
  have hcase := meaningCase name
  rw [h] at hcase
  cases hcase with
  | armMode hname => exact hname

theorem mem_of_ofName_special {special : Special} (h : Meaning.ofName name = .special special) :
    (name, special) ∈ specialVariables := by
  have hcase := meaningCase name
  rw [h] at hcase
  cases hcase with
  | special special hrow => exact hrow

theorem eq_of_ofName_hostOs (h : Meaning.ofName name = .special .hostOs) : name = hostOsName := by
  have hrows : ∀ row ∈ specialVariables, row.2 = .hostOs → row.1 = hostOsName := by decide
  exact hrows _ (mem_of_ofName_special h) rfl

/-- The variables of a module are no variables of the file. -/
theorem ofName_ne_global (h : isLocalName name = true) : Meaning.ofName name ≠ .global := by
  intro hg
  have hcase := meaningCase name
  rw [hg] at hcase
  cases hcase with
  | global hlocal =>
    rw [h] at hlocal
    cases hlocal

theorem isLocalName_of_mem_standardProperties :
    ∀ row ∈ standardProperties, isLocalName row.1 = true := by decide +kernel

theorem isLocalName_of_mem_specialVariables :
    ∀ row ∈ specialVariables, isLocalName row.1 = true := by decide

theorem isLocalName_of_mem_droppedVariables :
    ∀ name ∈ ignoredVariables ++ deletedVariables, isLocalName name = true := by decide

/-- Whether an assignment is left out is told by two lists of names. -/
theorem dropped_iff : (ignoredVariables.contains name || deletedVariables.contains name) = true ↔
    name ∈ ignoredVariables ++ deletedVariables := by
  rw [Bool.or_eq_true, List.contains_iff_mem, List.contains_iff_mem, List.mem_append]

theorem ofName_ne_dropped (h : name ∉ ignoredVariables ++ deletedVariables) :
    Meaning.ofName name ≠ .dropped := by
  unfold Meaning.ofName
  rw [if_neg (mt dropped_iff.mp h)]
  split
  · nofun
  · split
    · nofun
    · split
      · nofun
      · split <;> nofun

/-- **A name means a variable of the file** exactly if it does not start with `LOCAL_`. -/
theorem ofName_eq_global_iff : Meaning.ofName name = .global ↔ isLocalName name = false := by
  refine ⟨fun h => Bool.eq_false_iff.mpr fun hlocal => ofName_ne_global hlocal h, fun h => ?_⟩
  have hno : ¬ isLocalName name = true := Bool.eq_false_iff.mp h
  unfold Meaning.ofName
  split
  · next hdropped =>
    exact absurd (isLocalName_of_mem_droppedVariables name (dropped_iff.mp hdropped)) hno
  · split
    · next harm =>
      rw [harm] at hno
      exact absurd (by decide) hno
    · split
      · next hrow => exact absurd (isLocalName_of_mem_standardProperties _ (mem_of_lookup hrow)) hno
      · split
        · next hrow => exact absurd (isLocalName_of_mem_specialVariables _ (mem_of_lookup hrow)) hno
        · rfl

theorem ofName_armModeName : Meaning.ofName armModeName = .armMode := rfl

theorem ofName_of_mem_specialVariables :
    ∀ row ∈ specialVariables, Meaning.ofName row.1 = .special row.2 := by decide +kernel

theorem ofName_hostOsName : Meaning.ofName hostOsName = .special .hostOs :=
  ofName_of_mem_specialVariables (hostOsName, .hostOs) (by decide)

end MakeBlueprint.Conversion
