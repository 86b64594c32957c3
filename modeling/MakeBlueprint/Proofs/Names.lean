import Mathlib.Data.List.Infix
import MakeBlueprint.Outcome
import MakeBlueprint.Proofs.Coercion.Names
import MakeBlueprint.Proofs.Conversion.Trees

/-!
# Names that are printed bare

A blueprint file prints names without quotes in three places: properties, definitions, and
references inside values. The names of properties come from fixed tables and are identifiers. The
other two come from the makefile, where any text without a white character is taken for a name of
a definition, and any literal text for a name of a reference.

* `TypedAt.isIdentifier_keys`: the names of properties are identifiers.
* `baseName_of_global`: a variable of the file has the name that is written, or is what is left of
  `LOCAL` and a suffix.
* `definedFrom_run`, `keptByWrites_treeNamesOnly`: values refer to nothing that no assigned text
  refers to.
* `bare_names`: where each bare name of an output comes from.
-/

namespace MakeBlueprint.Blueprint

/-! ## Identifiers -/

/-- The characters that an identifier may start with. -/
def startsIdentifier (c : Char) : Bool := c.isAlpha || c == '_'

/-- **A blueprint identifier**: a letter or an underscore, then letters, digits and underscores. -/
def isIdentifier : Text → Bool
  | [] => false
  | c :: t => startsIdentifier c && t.all fun d => startsIdentifier d || d.isDigit

/-! ## Names of properties -/

mutual

/-- The names of the properties inside a value. -/
def Value.keys : Value → List Text
  | .string _ | .bool _ | .var _ _ => []
  | .binary _ left right _ => left.keys ++ right.keys
  | .list items => Value.keysAll items
  | .map properties => Property.keysAll properties

/-- The names of the properties inside list items. -/
def Value.keysAll : List Value → List Text
  | [] => []
  | item :: items => item.keys ++ Value.keysAll items

/-- The name of a property, and the names inside its value. -/
def Property.keys : Property → List Text
  | ⟨name, value, _⟩ => name :: value.keys

/-- The names of properties, at all depths. -/
def Property.keysAll : List Property → List Text
  | [] => []
  | p :: ps => p.keys ++ Property.keysAll ps

end

@[simp] theorem Value.mem_keysAll {name : Text} {items : List Value} :
    name ∈ Value.keysAll items ↔ ∃ item ∈ items, name ∈ item.keys := by
  induction items with
  | nil => simp [Value.keysAll]
  | cons item items ih => simp [Value.keysAll, ih]

@[simp] theorem Property.mem_keysAll {name : Text} {ps : List Property} :
    name ∈ Property.keysAll ps ↔ ∃ p ∈ ps, name ∈ p.keys := by
  induction ps with
  | nil => simp [Property.keysAll]
  | cons p ps ih => simp [Property.keysAll, ih]

/-- There are no properties inside a well-typed value. -/
theorem Value.WellTyped.keys_eq_nil {v : Value} (h : v.WellTyped) : v.keys = [] := by
  induction h with
  | string text | bool b | var name kind => rfl
  | list items hitems hkinds ih =>
    rw [Value.keys, List.eq_nil_iff_forall_not_mem]
    intro name hname
    obtain ⟨item, hitem, hname⟩ := Value.mem_keysAll.mp hname
    rw [ih item hitem] at hname
    cases hname
  | binary left right kind hleft hright hleftKind hrightKind hsum ihl ihr =>
    rw [Value.keys, ihl, ihr]
    rfl

/-- The names of the properties of a file, at all depths. -/
def File.keys (f : File) : List Text := f.modules.flatMap fun m => Property.keysAll m.properties

end MakeBlueprint.Blueprint

namespace MakeBlueprint.Conversion

open Blueprint (Path Property Value isIdentifier)
open Makefile (Statement)

theorem isIdentifier_of_mem_propertyKinds :
    ∀ row ∈ propertyKinds, isIdentifier row.1 = true := by decide +kernel

theorem isIdentifier_of_mem_path :
    ∀ path ∈ propertyPaths, ∀ name ∈ path, isIdentifier name = true := by decide +kernel

/-- **The names of properties are identifiers.** -/
theorem TypedAt.isIdentifier_keys {path : Path} {p : Property} (h : TypedAt path p) :
    ∀ name ∈ p.keys, isIdentifier name = true := by
  induction h with
  | leaf path name value line hpath hkind hvalue =>
    intro other hother
    rw [Property.keys, hvalue.keys_eq_nil] at hother
    rw [List.mem_singleton.mp hother]
    exact isIdentifier_of_mem_propertyKinds _ (mem_of_lookup hkind)
  | level path name inner line hpath hne hnodup hinner ih =>
    intro other hother
    rw [Property.keys, Value.keys] at hother
    rcases List.mem_cons.mp hother with rfl | hother
    · obtain ⟨q, hq, hbelow⟩ := hpath
      refine isIdentifier_of_mem_path q hq other (hbelow.subset ?_)
      exact List.mem_append_right _ (List.mem_singleton_self other)
    · obtain ⟨p, hp, hother⟩ := Property.mem_keysAll.mp hother
      exact ih p hp other hother

/-! ## Names of definitions -/

/-- The text in front of the suffix when a variable is called `LOCAL` and a suffix. -/
def bareLocal : Text := "LOCAL"

/-- A text that an underscore completes to the start of a module variable. -/
theorem eq_bareLocal {base rest : Text} (h : isLocalName (base ++ '_' :: rest) = true)
    (hbase : isLocalName base = false) : base = bareLocal := by
  have hstart : "LOCAL_".toList <+: base ++ '_' :: rest := List.isPrefixOf_iff_prefix.mp h
  have hnot : ¬ "LOCAL_".toList <+: base := by
    intro hp
    rw [isLocalName, List.isPrefixOf_iff_prefix.mpr hp] at hbase
    cases hbase
  have hshort : base <+: ['L', 'O', 'C', 'A', 'L', '_'] :=
    (List.prefix_or_prefix_of_prefix (List.prefix_append base _) hstart).resolve_right hnot
  -- Of the starts of `LOCAL_`, only `LOCAL` is continued by an underscore.
  rcases (List.mem_inits _ _).mpr hshort with _ | ⟨_, _ | ⟨_, _ | ⟨_, _ | ⟨_, _ | ⟨_, _ | ⟨_, hlast⟩⟩⟩⟩⟩⟩
  · cases h
  · cases h
  · cases h
  · cases h
  · cases h
  · rfl
  · rw [List.mem_singleton.mp hlast] at hbase
    cases hbase

/-- **A variable of the file has the name that is written**, unless only `LOCAL` is left of it. -/
theorem baseName_of_global {written : Text}
    (h : Meaning.ofName (State.baseName written) = .global) :
    State.baseName written = written ∨ State.baseName written = bareLocal := by
  by_cases hlocal : isLocalName written = true
  · have hbase : isLocalName (State.baseName written) = false := by
      rw [Bool.eq_false_iff]
      exact fun hl => ofName_ne_global hl h
    cases hsuffix : (splitSuffix written).2 with
    | none =>
      refine .inl ?_
      rw [State.baseName, if_pos hlocal, State.splitSuffix_of_none hsuffix]
    | some path =>
      have hsplit : splitSuffix written = (State.baseName written, some path) := by
        rw [← hsuffix, State.baseName, if_pos hlocal]
      obtain ⟨ending, -, happend⟩ := append_of_splitSuffix hsplit
      rw [← happend] at hlocal
      exact .inr (eq_bareLocal hlocal hbase)
  · exact .inl (if_neg hlocal)

/-- A name is that of an assignment for all targets, written literally and without white
characters. -/
def AssignedIn (sts : List Statement) (name : Text) : Prop :=
  ∃ a ∈ Makefile.assignments sts,
    a.target = none ∧ a.name.constant? = some name ∧ name.any Text.isWhite = false

/-- A reference of an assigned text has a name, written literally. -/
def ReferredIn (sts : List Statement) (name : Text) : Prop :=
  ∃ a ∈ Makefile.assignments sts, a.value.body.RefersTo name

theorem mem_assignments {sts : List Statement} {st : Statement} {a : Makefile.Assignment}
    (hst : st ∈ sts) (ha : st.content = .assignment a) : a ∈ Makefile.assignments sts := by
  refine List.mem_filterMap.mpr ⟨st, hst, ?_⟩
  rw [ha]

/-! ## Names of references -/

section References

variable {P : Text → Prop} {w : Write} {line : Nat} {ps qs : List Property} {sts : List Statement}

/-- The references of properties have names that satisfy a predicate. -/
def TreeNamesOnly (P : Text → Prop) (ps : List Property) : Prop := ∀ p ∈ ps, p.value.NamesOnly P

theorem namesOnly_map : (Value.map ps).NamesOnly P ↔ TreeNamesOnly P ps := by
  constructor
  · rintro h ⟨name, value, line⟩ hp
    exact Value.namesOnly_of_uses fun u hu => h .map u (Property.mem_usesAll.mpr ⟨_, hp, hu⟩)
  · intro h kind u hu
    rw [Value.uses] at hu
    obtain ⟨⟨name, value, line⟩, hp, hu⟩ := Property.mem_usesAll.mp hu
    exact h _ hp _ u hu

theorem treeNamesOnly_altered {name : Text} {change : Option Value → Except Refusal Value}
    (h : Property.Altered name line change ps qs) (hps : TreeNamesOnly P ps)
    (hchange : ∀ old v, (∀ o, old = some o → o.NamesOnly P) → change old = .ok v →
      v.NamesOnly P) : TreeNamesOnly P qs := by
  cases h with
  | changed before after p value hbefore hname hvalue =>
    intro q hq
    rcases List.mem_append.mp hq with hq | hq
    · exact hps q (List.mem_append_left _ hq)
    · rcases List.mem_cons.mp hq with rfl | hq
      · refine hchange (some p.value) value (fun o ho => ?_) hvalue
        cases ho
        exact hps p (List.mem_append_right _ List.mem_cons_self)
      · exact hps q (List.mem_append_right _ (List.mem_cons_of_mem p hq))
  | added ps value hnone hvalue =>
    intro q hq
    rcases List.mem_append.mp hq with hq | hq
    · exact hps q hq
    · rw [List.mem_singleton.mp hq]
      exact hchange none value (fun o ho => (by cases ho)) hvalue

/-- **A write adds no references** but those of its value. The induction is on the path. -/
theorem treeNamesOnly_into (hw : w.value.NamesOnly P) (hps : TreeNamesOnly P ps)
    (h : w.into line ps = .ok qs) : TreeNamesOnly P qs := by
  obtain ⟨path, name, value, append⟩ := w
  have hvalue : value.NamesOnly P := hw
  clear hw
  unfold Write.into at h
  induction path generalizing ps qs with
  | nil =>
    refine treeNamesOnly_altered (Property.altered_of_alter h) hps fun old v ho hv => ?_
    exact namesOnly_changed ho hvalue hv
  | cons level path ih =>
    refine treeNamesOnly_altered (Property.altered_of_alter h) hps fun old v ho hv => ?_
    split at hv
    · obtain ⟨inner, hinner, rfl⟩ := Property.map_eq_ok hv
      exact namesOnly_map.mpr (ih (fun p hp => absurd hp List.not_mem_nil) hinner)
    · next inner =>
      obtain ⟨changed, hchanged, rfl⟩ := Property.map_eq_ok hv
      exact namesOnly_map.mpr (ih (namesOnly_map.mp (ho (.map inner) rfl)) hchanged)
    · cases hv

theorem keptByWrites_treeNamesOnly (sts : List Statement) :
    KeptByWrites sts (TreeNamesOnly (ReferredIn sts)) where
  empty p hp := absurd hp List.not_mem_nil
  assigns st hst a ha scope name path ws hws w hw line ps qs hps hqs := by
    refine treeNamesOnly_into (fun kind u hu => ?_) hps hqs
    exact ⟨a, mem_assignments hst ha, namesOnly_of_writes hws w hw kind u hu⟩
  disables path line ps qs hps hqs := treeNamesOnly_into (Value.namesOnly_bool false) hps hqs

end References

/-! ## Runs -/

/-- A definition has a name and references that come from some statements. -/
structure DefinedFrom (sts : List Statement) (d : Blueprint.Assignment) : Prop where
  name : isIdentifier d.name = true ∨ AssignedIn sts d.name
  value : d.value.NamesOnly (ReferredIn sts)

namespace State

variable {options : Options} {source : Text} {sts : List Statement}

theorem definedFrom_run (options : Options) (source : Text) (sts : List Statement) :
    ∀ d ∈ (start.run options source sts).file.assignments, DefinedFrom sts d := by
  refine run_keeps (P := fun s => ∀ d ∈ s.file.assignments, DefinedFrom sts d)
    (fun s st hst hs => ?_) fun d hd => absurd hd List.not_mem_nil
  rcases globalCase options source s st with hsame | ⟨a, name, list, ha, hd⟩
  · rw [hsame.assignments]
    exact hs
  · rw [hd.assignments]
    intro d hmem
    rcases List.mem_append.mp hmem with hmem | hmem
    · exact hs d hmem
    · rw [List.mem_singleton.mp hmem]
      have hassigned : a ∈ Makefile.assignments sts := mem_assignments hst ha
      have hnames := namesOnly_coerceList Makefile.Phrase.Body.refersTo_of_mem hd.coerced
      refine ⟨?_, fun kind u hu => ⟨a, hassigned, hnames kind u hu⟩⟩
      obtain ⟨written, hwritten, rfl, hspace⟩ := hd.written
      change isIdentifier (baseName written) = true ∨ AssignedIn sts (baseName written)
      rcases baseName_of_global hd.meaning with hbase | hbase
      · rw [hbase]
        exact .inr ⟨a, hassigned, hd.target, hwritten, hspace⟩
      · rw [hbase]
        exact .inl (by decide)

end State

/-- **Where bare names come from.** The names of properties are identifiers. A definition whose name
is not one has the name of an assignment, as it is written, and a reference has a name that is
written in a reference of an assigned text; neither is looked at again before it is printed. -/
theorem bare_names {options : Options} {source : Text} {converted : Converted}
    (h : convert options source = .ok converted) :
    let sts := (Makefile.parse source).statements
    let file := toBlueprint options source sts
    converted.output = file.print ∧
      (∀ name ∈ file.keys, isIdentifier name = true) ∧
      (∀ d ∈ file.assignments, isIdentifier d.name = true ∨ AssignedIn sts d.name) ∧
      ∀ u ∈ file.uses, ReferredIn sts u.name := by
  intro sts file
  have hdefinitions : file.definitions =
      (State.start.run options source sts).file.definitions := State.definitions_finish _ _
  have hassignments : file.assignments =
      (State.start.run options source sts).file.assignments := by
    unfold Blueprint.File.assignments
    rw [hdefinitions]
  have hmodules : file.modules = (State.start.run options source sts).file.modules := by
    unfold Blueprint.File.modules
    rw [hdefinitions]
  have hdefined := State.definedFrom_run options source sts
  have htrees := (State.treesHave_iff.mp
    (State.treesHave_run options source (keptByWrites_treeNamesOnly sts))).2
  rw [← hassignments] at hdefined
  rw [← hmodules] at htrees
  refine ⟨?_, fun name hname => ?_, fun d hd => (hdefined d hd).name, fun u hu => ?_⟩
  · unfold convert at h
    dsimp only at h
    split at h
    · cases h
    · cases h
      rfl
  · obtain ⟨m, hm, hname⟩ := List.mem_flatMap.mp hname
    obtain ⟨p, hp, hname⟩ := Property.mem_keysAll.mp hname
    exact (((toBlueprint_typed options source sts).1 m hm).typed p hp).isIdentifier_keys name hname
  · rcases List.mem_append.mp hu with hu | hu
    · obtain ⟨m, hm, hu⟩ := List.mem_flatMap.mp hu
      exact namesOnly_map.mpr (htrees m hm) .map u hu
    · obtain ⟨d, hd, hu⟩ := List.mem_flatMap.mp hu
      exact (hdefined d hd).value .list u hu

/-- A definition whose name has a point in it, and a reference whose name has a colon. -/
def dotted : Text := ['a', '.', 'b', ':', '=', '$', '(', 'S', ':', 'c', ')', '\n']

/-- Both names are printed as they are written. -/
theorem bare_names_dotted :
    ∃ converted, convert {} dotted = .ok converted ∧
      converted.output = "a.b = S:c\n".toList ∧ isIdentifier ['a', '.', 'b'] = false ∧
      AssignedIn (Makefile.parse dotted).statements ['a', '.', 'b'] ∧
      isIdentifier ['S', ':', 'c'] = false ∧
      ReferredIn (Makefile.parse dotted).statements ['S', ':', 'c'] := by
  have herrors : ¬ Makefile.Fault.limit ≤ (Makefile.parse dotted).errors.length := by
    decide +kernel
  have h : convert {} dotted = .ok
      ⟨(toBlueprint {} dotted (Makefile.parse dotted).statements).print,
        (Makefile.parse dotted).errors⟩ := by
    unfold convert
    exact if_neg herrors
  obtain ⟨hprinted, -, hnames, hreferences⟩ := bare_names h
  have hfile : (toBlueprint {} dotted (Makefile.parse dotted).statements).print =
        "a.b = S:c\n".toList ∧
      (∃ d ∈ (toBlueprint {} dotted (Makefile.parse dotted).statements).assignments,
        d.name = ['a', '.', 'b']) ∧
      ∃ u ∈ (toBlueprint {} dotted (Makefile.parse dotted).statements).uses,
        u.name = ['S', ':', 'c'] := by decide +kernel
  obtain ⟨htext, ⟨d, hd, hname⟩, u, hu, huse⟩ := hfile
  have hassigned := (hnames d hd).resolve_left (by rw [hname]; decide)
  have hreferred := hreferences u hu
  rw [hname] at hassigned
  rw [huse] at hreferred
  exact ⟨_, h, hprinted.trans htext, by decide, hassigned, by decide, hreferred⟩

end MakeBlueprint.Conversion
