import MakeBlueprint.Proofs.Coercion.Refusals
import MakeBlueprint.Proofs.Typing.Tree

/-!
# Conversions are well typed

Whatever a makefile says, the modules that come out of it are well typed. The invariant is `Sound`:
the open module and the finished ones are well typed, every variable of the file is recorded as a
list, and every comment is copied or reports a problem that arises (`Problem.Arises`).

* `typed_of_writes`: an assignment only writes typed properties under paths for properties.
* `Sound.ofAssignment_of_assign_error`: the reasons for which an assignment is refused
  (`Refusal.OfAssignment`).
* `sound_step`, `sound_run`: the invariant holds along every run.
* `toBlueprint_typed`: so it holds of the file, and no sum of different kinds and no path through a
  property is ever reported.
-/

namespace MakeBlueprint.Conversion

open Blueprint (Comment Kind Path Property Value)
open Makefile (Assignment Phrase Scope Statement)

/-! ## Typed writes -/

/-- **A write of a value of the kind of its name**, under a path for properties. -/
structure Write.Typed (w : Write) : Prop where
  place : w.path ∈ propertyPaths
  kind : propertyKind? w.name = some w.value.kind
  value : w.value.WellTyped

variable {path : Path} {name : Text} {kind : Kind} {value : Value} {append : Bool} {scope : Scope}
  {body : Phrase.Body} {ws : List Write} {cause : Refusal}

theorem typed_of_has (hpath : path ∈ propertyPaths) (hkind : propertyKind? name = some kind)
    (hv : value.Has kind) : (⟨path, name, value, append⟩ : Write).Typed :=
  ⟨hpath, by rw [hkind, hv.2], hv.1⟩

theorem typed_directoryWrites {ownName othersName : Text} {own others : Value} {append' : Bool}
    (hpath : path ∈ propertyPaths) (hownKind : (ownName, Kind.list) ∈ specialKinds)
    (hothersKind : (othersName, Kind.list) ∈ specialKinds) (hown : own.Has .list)
    (hothers : others.Has .list) :
    ∀ w ∈ directoryWrites path ownName othersName own others append append', w.Typed := by
  intro w hw
  rcases eq_of_mem_directoryWrites hw with rfl | rfl
  · exact typed_of_has hpath (propertyKind?_of_mem_specialKinds _ hownKind) hown
  · exact typed_of_has hpath (propertyKind?_of_mem_specialKinds _ hothersKind) hothers

theorem propertyKind?_enabledName : propertyKind? State.enabledName = some .bool :=
  propertyKind?_of_mem_specialKinds (State.enabledName, .bool) (by decide)

theorem typed_hostWrites (items : List Value) : ∀ w ∈ hostWrites items, w.Typed := by
  intro w hw
  obtain ⟨system, hsystem, on, rfl⟩ := exists_system_of_mem_hostWrites hw
  refine typed_of_has ?_ propertyKind?_enabledName (Value.Has.bool on)
  apply List.mem_append_right
  apply List.mem_cons_of_mem
  exact List.mem_map.mpr ⟨system, hsystem, rfl⟩

/-- The name of an output and the suffix of one are strings. -/
theorem has_stemProperty (hv : value.Has .string) :
    propertyKind? (State.stemProperty value).1 = some .string ∧
      (State.stemProperty value).2.Has .string := by
  have hstem : propertyKind? ("stem" : String) = some .string :=
    propertyKind?_of_mem_specialKinds ("stem".toList, .string) (by decide)
  have hsuffix : propertyKind? ("suffix" : String) = some .string :=
    propertyKind?_of_mem_specialKinds ("suffix".toList, .string) (by decide)
  unfold State.stemProperty
  split
  · next var varKind right sumKind =>
    split
    · obtain ⟨hw, hk⟩ := hv
      cases hw with
      | binary _ _ _ _ hright _ hrightKind _ => exact ⟨hsuffix, hright, hrightKind.trans hk⟩
    · exact ⟨hstem, hv⟩
  · exact ⟨hstem, hv⟩

theorem armPath_mem : armPath ∈ propertyPaths := by decide +kernel

/-- **An assignment only writes typed properties.** -/
theorem typed_of_writes (hpath : path ∈ propertyPaths)
    (h : writes scope name path body append = .ok ws) : ∀ w ∈ ws, w.Typed := by
  cases writesCase_of_writes h with
  | dropped => exact fun w hw => absurd hw List.not_mem_nil
  | armMode value hm hvalue =>
    intro w hw
    rw [List.mem_singleton.mp hw]
    have hkind : propertyKind? armModeProperty = some .string :=
      propertyKind?_of_mem_standardProperties
        ("LOCAL_ARM_MODE_HACK".toList, armModeProperty, .string) (by decide)
    exact typed_of_has armPath_mem hkind (has_coerceString hvalue)
  | property property kind value hm hvalue =>
    intro w hw
    rw [List.mem_singleton.mp hw]
    have hrow := mem_of_ofName_property hm
    exact typed_of_has hpath (propertyKind?_of_mem_standardProperties _ hrow)
      (has_coerce (kind_ne_map_of_mem_standardProperties _ hrow) hvalue)
  | localIncludeDirs value own others hm hvalue hparts
  | exportIncludeDirs value own others hm hvalue hparts =>
    obtain ⟨hown, hothers⟩ := has_parts_of_coerceList hvalue hparts
    exact typed_directoryWrites hpath (by decide) (by decide) hown hothers
  | stem value hm hvalue =>
    intro w hw
    rw [List.mem_singleton.mp hw]
    obtain ⟨hkind, hhas⟩ := has_stemProperty (has_coerceString hvalue)
    exact typed_of_has hpath hkind hhas
  | hostOs items => exact typed_hostWrites items

/-- **The reasons to refuse an assignment**: one in its text, its name, no open module for a
property, or a sum of booleans. -/
inductive Refusal.OfAssignment (name : Text) (body : Phrase.Body) : Refusal → Prop
  | text {cause : Refusal} (h : cause.StemsFrom body) : OfAssignment name body cause
  | name : OfAssignment name body (.unsupportedAssignment name)
  | outside (w : Write) (hw : w.Typed) :
      OfAssignment name body (.outsideModule (Path.dotted (w.path ++ [w.name])))
  | booleans : OfAssignment name body (.unsupportedAddition (.noSum .bool))

theorem Refusal.OfAssignment.arises (h : cause.OfAssignment name body) : cause.Arises := by
  cases h with
  | text h => exact h.arises
  | name | outside => trivial
  | booleans => rfl

/-! ## Changes of values -/

theorem kind_ne_map_of_propertyKind? (h : propertyKind? name = some kind) : kind ≠ .map := by
  have hall : ∀ row ∈ propertyKinds, row.2 ≠ .map := by decide +kernel
  exact hall _ (mem_of_lookup h)

theorem hasSum_or_bool (h : kind ≠ .map) : kind.HasSum ∨ kind = .bool := by
  cases kind with
  | string => exact Or.inl (Or.inl rfl)
  | list => exact Or.inl (Or.inr rfl)
  | bool => exact Or.inr rfl
  | map => exact absurd rfl h

/-- A value is appended to another one if they have a sum. -/
theorem changed_append_iff {old v : Value} :
    State.changed true value (some old) = .ok v ↔ add old value = .ok v := by
  change (add old value).mapError Refusal.unsupportedAddition = .ok v ↔ _
  cases add old value with
  | error cause => exact ⟨nofun, nofun⟩
  | ok sum => exact Iff.rfl

/-- A value is added to one of its kind, unless both are booleans. -/
theorem changed_of_has {old : Value} (hk : kind ≠ .map) (hv : value.Has kind)
    (ho : old.Has kind) :
    (∃ v, State.changed append value (some old) = .ok v ∧ v.Has kind) ∨
      State.changed append value (some old) = .error (.unsupportedAddition (.noSum .bool)) := by
  unfold State.changed
  cases append with
  | false => exact Or.inl ⟨value, rfl, hv⟩
  | true =>
    rcases hasSum_or_bool hk with hs | rfl
    · obtain ⟨v, hadd, hh⟩ := exists_add_same ho hv hs
      exact Or.inl ⟨v, changed_append_iff.mpr hadd, hh⟩
    · refine Or.inr ?_
      change (add old value).mapError Refusal.unsupportedAddition = _
      rw [add_bool ho.2 hv.2]
      rfl

/-! ## The invariant -/

/-- **The problems that conversions report.** -/
def Problem.Arises : Problem → Prop
  | .refused cause => cause.Arises
  | _ => True

theorem Problem.arises_of_ne {problem : Problem} (h : ∀ cause, problem ≠ .refused cause) :
    problem.Arises := by
  cases problem with
  | refused cause => exact absurd rfl (h cause)
  | _ => trivial

/-- A comment is copied from a statement, or reports a problem that arises. -/
def Explained (sts : List Statement) (c : Comment) : Prop :=
  (∃ st ∈ sts, ∃ text, st.content = .comment text ∧ c.lines = copied text) ∨
    ∃ problem : Problem, ∃ quoted, problem.Arises ∧ c.lines = problem.report quoted

namespace State

variable {sts : List Statement} {s t : State} {quoted : Text} {options : Options} {source : Text}

/-- **The invariant of a conversion** of some statements. -/
structure Sound (sts : List Statement) (s : State) : Prop where
  draft : ∀ d, s.draft = some d → TypedLevel [] d.properties
  modules : ∀ m ∈ s.file.modules, TypedLevel [] m.properties
  globals : ∀ row ∈ s.globals, row.2 = .list
  frames : WellFramed s
  comments : ∀ c ∈ s.file.comments, Explained sts c

theorem sound_start (sts : List Statement) : Sound sts start where
  draft _ h := by cases h
  modules _ h := absurd h List.not_mem_nil
  globals _ h := absurd h List.not_mem_nil
  frames := wellFramed_start
  comments _ h := absurd h List.not_mem_nil

theorem Sound.moveTo (h : Sound sts s) (lines : Span) : Sound sts (s.moveTo lines) :=
  ⟨h.draft, h.modules, h.globals, h.frames.congr rfl rfl, h.comments⟩

theorem Sound.comment (h : Sound sts s) {lines : List Text}
    (hlines : Explained sts ⟨lines, s.line⟩) : Sound sts (s.comment lines) where
  draft := h.draft
  modules := h.modules
  globals := h.globals
  frames := h.frames.congr rfl rfl
  comments c hc := by
    rcases List.mem_append.mp hc with hc | hc
    · exact h.comments c hc
    · rw [List.mem_singleton.mp hc]
      exact hlines

theorem Sound.diagnose (h : Sound sts s) (quoted : Text) {problem : Problem}
    (hproblem : problem.Arises) : Sound sts (s.diagnose quoted problem) :=
  h.comment (Or.inr ⟨problem, quoted, hproblem, rfl⟩)

/-! ## Writes -/

theorem typedLevel_of_write {w : Write} {d : Draft} {properties : List Property}
    (hd : TypedLevel [] d.properties) (hw : w.Typed)
    (h : Property.update s.line .notAMap w.name (changed w.append w.value) w.path d.properties =
      .ok properties) : TypedLevel [] properties := by
  have hk := kind_ne_map_of_propertyKind? hw.kind
  refine (typedLevel_update hd hw.place hw.kind ?_ ?_ h).1
  · intro v hv
    cases hv
    exact ⟨hw.value, rfl⟩
  · intro old v ho hv
    rcases changed_of_has hk ⟨hw.value, rfl⟩ ho with ⟨u, hu, hh⟩ | he
    · rw [hu] at hv
      cases hv
      exact hh
    · rw [he] at hv
      cases hv

theorem Sound.write (h : Sound sts s) {w : Write} (hw : w.Typed) (ht : s.write w = .ok t) :
    Sound sts t := by
  obtain ⟨d, properties, hd, hp, rfl⟩ := setProperty_eq_ok ht
  refine ⟨fun e he => ?_, h.modules, h.globals, h.frames.congr rfl rfl, h.comments⟩
  cases he
  exact typedLevel_of_write (h.draft d hd) hw hp

theorem Sound.writes (h : Sound sts s) {ws : List Write} (hws : ∀ w ∈ ws, w.Typed)
    (ht : ws.foldlM State.write s = .ok t) : Sound sts t :=
  foldlM_keeps (P := Sound sts) (fun w hw _ _ hb hc => hb.write (hws w hw) hc) h ht

/-- A typed write is refused outside modules and where it adds up booleans. -/
theorem Sound.cases_of_write_error (h : Sound sts s) {w : Write} (hw : w.Typed)
    (he : s.write w = .error cause) :
    cause = .outsideModule (Path.dotted (w.path ++ [w.name])) ∨
      cause = .unsupportedAddition (.noSum .bool) := by
  have hk := kind_ne_map_of_propertyKind? hw.kind
  unfold State.write setProperty at he
  split at he
  · cases he
    exact Or.inl rfl
  · next d hd =>
    rcases change_of_update_error (h.draft d hd) hw.place hw.kind (map_eq_error he) with
      ⟨old, ho, hc⟩ | hc
    · rcases changed_of_has hk ⟨hw.value, rfl⟩ ho with ⟨v, hv, -⟩ | hb
      · rw [hv] at hc
        cases hc
      · rw [hb] at hc
        cases hc
        exact Or.inr rfl
    · cases hc

theorem Sound.ofAssignment_of_writes_error (h : Sound sts s) {ws : List Write}
    (hws : ∀ w ∈ ws, w.Typed) (he : ws.foldlM State.write s = .error cause) :
    cause.OfAssignment name body := by
  obtain ⟨w, hw, u, hu, hc⟩ := exists_of_foldlM_eq_error (P := Sound sts)
    (fun w hw _ _ hb hc => hb.write (hws w hw) hc) h he
  rcases hu.cases_of_write_error (hws w hw) hc with rfl | rfl
  · exact .outside w (hws w hw)
  · exact .booleans

/-! ## Variables of the file -/

/-- A variable of the file is a list, so a list can always be added to it. -/
theorem Sound.exists_total (h : Sound sts s) (name : Text) (append : Bool) (hv : value.Has .list) :
    ∃ total, changed true value ((s.knownKind name append).map fun k => Value.var name k) =
      .ok total ∧ total.Has .list := by
  cases hk : s.knownKind name append with
  | none => exact ⟨value, rfl, hv⟩
  | some k =>
    have hlist : k = .list := by
      unfold knownKind at hk
      split at hk
      · exact h.globals _ (mem_of_lookup hk)
      · cases hk
    subst hlist
    obtain ⟨v, hadd, hh⟩ := exists_add_same (Value.Has.var name .list) hv (.inr rfl)
    exact ⟨v, changed_append_iff.mpr hadd, hh⟩

theorem Sound.setGlobal (h : Sound sts s) (scope : Scope) (hv : value.Has .list)
    (ht : s.setGlobal name value append = .ok t) : Sound sts { t with scope } := by
  have hk := kept_setGlobal scope ht
  obtain ⟨total, htotal, rfl⟩ := setGlobal_eq_ok ht
  refine ⟨h.draft, ?_, ?_, h.frames.congr rfl rfl, h.comments⟩
  · intro m hm
    rw [hk.modules] at hm
    exact h.modules m hm
  · intro row hrow
    rcases List.mem_cons.mp hrow with rfl | hrow
    · obtain ⟨v, hv, hh⟩ := h.exists_total name append hv
      rw [htotal] at hv
      cases hv
      exact hh.2
    · exact h.globals row hrow

theorem Sound.ofAssignment_of_assignGlobal_error (h : Sound sts s)
    (he : s.assignGlobal name body append = .error cause) : cause.OfAssignment name body := by
  rcases bind_eq_error he with hl | ⟨list, hl, he⟩
  · exact .text (stemsFrom_of_coerceList_error hl)
  · rcases bind_eq_error he with hs | ⟨u, -, he⟩
    · obtain ⟨total, htotal, -⟩ :=
        h.exists_total name append (has_coerceList hl)
      have hc : changed true list ((s.knownKind name append).map fun k => Value.var name k) =
        .error cause := map_eq_error hs
      rw [htotal] at hc
      cases hc
    · cases he

/-- **Why an assignment is refused.** -/
theorem Sound.ofAssignment_of_assign_error (h : Sound sts s) (hpath : path ∈ propertyPaths)
    (he : s.assign name path body append = .error cause) : cause.OfAssignment name body := by
  by_cases hg : Meaning.ofName name = .global
  · rw [assign_of_global hg] at he
    exact h.ofAssignment_of_assignGlobal_error he
  · rw [assign_eq_writes hg] at he
    rcases bind_eq_error he with hw | ⟨ws, hw, he⟩
    · rcases stemsFrom_of_writes_error hw with hstems | rfl
      · exact .text hstems
      · exact .name
    · exact h.ofAssignment_of_writes_error (typed_of_writes hpath hw) he

/-! ## Steps -/

theorem mem_propertyPaths_of_mem_places (h : WellFramed s) (hpath : path ∈ s.places) :
    path ∈ propertyPaths := by
  rcases h.mem_places hpath with rfl | hp | hp
  · exact List.mem_cons_self
  · exact List.mem_append_left _ (List.mem_append_left _ (List.mem_cons_of_mem _ hp))
  · exact List.mem_append_left _ (List.mem_append_right _ hp)

theorem Sound.assignmentCase {a : Assignment} (h : Sound sts s)
    (hc : AssignmentCase s quoted a t) : Sound sts t := by
  have hbefore : ∀ {before}, before = s ∨ before = s.diagnose quoted .suffixInConditional →
      Sound sts before ∧ before.scope = s.scope := by
    rintro before (rfl | rfl)
    · exact ⟨h, rfl⟩
    · exact ⟨h.diagnose quoted trivial, rfl⟩
  cases hc with
  | skipped problem hproblem =>
    refine h.diagnose quoted (Problem.arises_of_ne ?_)
    rintro cause rfl
    simp at hproblem
  | written before t name path ws hb hpath hws hwrite =>
    have htyped := typed_of_writes (mem_propertyPaths_of_mem_places h.frames hpath) hws
    exact (hbefore hb).1.writes htyped hwrite
  | global before t name evaluated list hb hlist hset =>
    exact (hbefore hb).1.setGlobal _ (has_coerceList hlist) hset
  | refused before name path cause hb hpath hcause =>
    have hs := (hbefore hb).1
    have hplace := mem_propertyPaths_of_mem_places h.frames hpath
    exact hs.diagnose quoted (hs.ofAssignment_of_assign_error hplace hcause).arises

theorem typed_disable (hpath : path ∈ branchPaths) :
    (⟨path, enabledName, .bool false, false⟩ : Write).Typed := by
  refine typed_of_has ?_ propertyKind?_enabledName (Value.Has.bool false)
  exact List.mem_append_left _ (List.mem_append_right _ hpath)

theorem Sound.disable (h : Sound sts s) (hpath : path ∈ branchPaths) :
    Sound sts (s.disable quoted path) := by
  unfold State.disable
  split
  · next t ht => exact h.write (typed_disable hpath) ht
  · next cause he =>
    rcases h.cases_of_write_error (typed_disable hpath) he with rfl | rfl
    · exact h.diagnose quoted trivial
    · exact h.diagnose quoted rfl

theorem Sound.disabled (h : Sound sts s) : Sound sts (s.disabled quoted) :=
  disabled_keeps h fun _ ht path hpath =>
    ht.disable (h.frames.mem_branchPaths_of_mem_otherPaths path hpath)

theorem Sound.closeModule (h : Sound sts s) (moduleType : Text) :
    Sound sts (s.closeModule quoted moduleType) := by
  cases hd : s.draft with
  | none =>
    rw [closeModule_of_none quoted moduleType hd]
    exact h.diagnose quoted trivial
  | some d =>
    obtain ⟨e, he, hclose⟩ := closeModule_of_isSome quoted moduleType (by rw [hd]; rfl)
    have hs : Sound sts (s.disabled quoted) := h.disabled
    rw [hclose]
    refine ⟨?_, ?_, hs.globals, hs.frames.congr rfl rfl, hs.comments⟩
    · intro e hn
      cases hn
    · intro m hm
      rw [modules_define_module] at hm
      rcases List.mem_append.mp hm with hm | hm
      · exact hs.modules m hm
      · rw [List.mem_singleton.mp hm]
        exact hs.draft e he

theorem Sound.dropModule (h : Sound sts s) : Sound sts (s.dropModule options) := by
  unfold State.dropModule
  split
  · exact h
  · have hdrop : Sound sts { s with draft := none } := by
      refine ⟨?_, h.modules, h.globals, h.frames.congr rfl rfl, h.comments⟩
      intro d hn
      cases hn
    simp only
    split
    · exact hdrop.diagnose _ trivial
    · exact hdrop

theorem Sound.openModule (h : Sound sts s) : Sound sts (s.openModule options quoted) := by
  have hs : Sound sts (s.dropModule options) := h.dropModule
  refine ⟨fun d hd => ?_, hs.modules, hs.globals, hs.frames.congr rfl rfl, hs.comments⟩
  cases hd
  exact typedLevel_nil []

theorem Sound.sameButPile (h : Sound sts s) (ht : SameButPile quoted s t)
    (hframes : WellFramed t) : Sound sts t := by
  obtain ⟨u, hu, he⟩ := ht
  have hs : Sound sts u := by
    rcases hu with rfl | ⟨problem, hproblem, rfl⟩
    · exact h
    · refine h.diagnose quoted (Problem.arises_of_ne ?_)
      rintro cause rfl
      simp at hproblem
  rw [he] at hframes ⊢
  exact ⟨hs.draft, hs.modules, hs.globals, hframes, hs.comments⟩

/-- **A step keeps the invariant.** -/
theorem sound_step (h : Sound sts s) {st : Statement} (hst : st ∈ sts) :
    Sound sts (s.step options source st) := by
  have hm : Sound sts (s.moveTo st.lines) := h.moveTo st.lines
  have hframes : WellFramed (s.step options source st) := wellFramed_step h.frames st
  have hcase := stepCase options source s st
  generalize s.step options source st = t at hcase hframes
  cases hcase with
  | copies text hc => exact hm.comment (Or.inl ⟨st, hst, text, hc, rfl⟩)
  | assigns a t hc ht => exact hm.assignmentCase ht
  | opens hc => exact hm.openModule
  | builds moduleType hc => exact hm.closeModule moduleType
  | begins holds condition hc => exact hm.sameButPile (sameButPile_beginConditional _ _) hframes
  | turns hc => exact hm.sameButPile sameButPile_otherBranch hframes
  | ends hc => exact hm.sameButPile sameButPile_endConditional hframes
  | unsupported problem hc hproblem =>
    refine hm.diagnose _ (Problem.arises_of_ne ?_)
    rintro cause rfl
    simp at hproblem

/-- **A run keeps the invariant.** -/
theorem sound_run (h : Sound sts s) : Sound sts (s.run options source sts) :=
  run_keeps (P := Sound sts) (fun _ _ hst hs => sound_step hs hst) h

theorem Sound.finish (h : Sound sts s) (options : Options) :
    (∀ m ∈ (s.finish options).modules, TypedLevel [] m.properties) ∧
      ∀ c ∈ (s.finish options).comments, Explained sts c := by
  unfold State.finish
  split
  · exact ⟨h.modules, h.comments⟩
  · have hline : Sound sts { s with line := s.line + 1 } :=
      ⟨h.draft, h.modules, h.globals, h.frames.congr rfl rfl, h.comments⟩
    have hdrop : Sound sts ({ s with line := s.line + 1 }.dropModule options) := hline.dropModule
    exact ⟨hdrop.modules, hdrop.comments⟩

end State

/-! ## Messages -/

/-- **A message that reports no type error.** The one addition that it may report to be impossible
is that of two booleans. -/
structure SoundMessage (message : Text) : Prop where
  sum : ¬ "cannot add ".toList <+: message
  map : ∀ name, message ≠ (Refusal.notAMap name).message
  addition : "unsupported addition: ".toList <+: message →
    message = "unsupported addition: cannot add bool values".toList

/-- Three letters are enough to tell type errors from the other messages. -/
theorem soundMessage_of_letters {message : Text} (hsum : message[0]? ≠ some 'c')
    (hmap : message[2]? ≠ some 'o')
    (haddition : message[13]? = some 'd' →
      message = "unsupported addition: cannot add bool values".toList) :
    SoundMessage message := by
  refine ⟨?_, ?_, ?_⟩
  · rintro ⟨rest, rfl⟩
    exact hsum rfl
  · rintro name rfl
    exact hmap rfl
  · rintro ⟨rest, rfl⟩
    exact haddition rfl

theorem soundMessage_of_arises (h : cause.Arises) : SoundMessage cause.message := by
  cases cause with
  | mismatchedKinds => exact h.elim
  | noSum => exact h.elim
  | notAMap => exact h.elim
  | unsupportedAddition cause =>
    subst h
    exact soundMessage_of_letters (by decide) (by decide) fun _ => rfl
  | _ =>
    refine soundMessage_of_letters ?_ ?_ ?_
    all_goals
      intro h
      cases h

theorem Problem.Arises.soundMessage {problem : Problem} (h : problem.Arises) :
    SoundMessage problem.message := by
  cases problem with
  | refused cause => exact soundMessage_of_arises h
  | _ =>
    refine soundMessage_of_letters ?_ ?_ ?_
    all_goals
      intro h
      cases h

/-- **Conversions are well typed.** The modules of a file are well typed, and a comment is copied
from the makefile or reports a problem that is no type error. -/
theorem toBlueprint_typed (options : Options) (source : Text) (sts : List Statement) :
    (∀ m ∈ (toBlueprint options source sts).modules, TypedLevel [] m.properties) ∧
      ∀ c ∈ (toBlueprint options source sts).comments,
        (∃ st ∈ sts, ∃ text, st.content = .comment text ∧ c.lines = copied text) ∨
          ∃ (problem : Problem) (quoted : Text),
            SoundMessage problem.message ∧ c.lines = problem.report quoted := by
  have hrun : State.Sound sts (State.start.run options source sts) :=
    State.sound_run (State.sound_start sts)
  obtain ⟨hmodules, hcomments⟩ := hrun.finish options
  refine ⟨hmodules, ?_⟩
  intro c hc
  rcases hcomments c hc with hcopied | ⟨problem, quoted, harises, hlines⟩
  · exact Or.inl hcopied
  · exact Or.inr ⟨problem, quoted, harises.soundMessage, hlines⟩

end MakeBlueprint.Conversion
