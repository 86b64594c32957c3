import MakeBlueprint.Proofs.Conversion.Frame
import MakeBlueprint.Proofs.Conversion.Meaning

/-!
# The conditionals around a statement

The pile of conditionals only ever holds conditions of the vocabulary, and the conditional that
properties are put under is one of the pile: `wellFramed_step`, and `Reachable.wellFramed` for all
states that a makefile can lead to. So the branch that a property is put under has one of the paths
of the vocabulary, `WellFramed.mem_branchPaths`.
-/

namespace MakeBlueprint.Conversion

open Blueprint (Path)
open Makefile (Statement)

/-- The branches that the vocabulary knows. -/
def knownBranches : List Branches := conditions.map Prod.snd

/-- The paths of branches. -/
def branchPaths : List Path :=
  knownBranches.flatMap fun b => b.whenTrue.toList ++ b.whenFalse.toList

theorem mem_knownBranches_of_ofCondition {condition : Text} {b : Branches}
    (h : Branches.ofCondition? condition = some b) : b ∈ knownBranches := by
  rcases List.mem_append.mp (mem_of_lookup h) with hm | hm
  · exact List.mem_map.mpr ⟨_, hm, rfl⟩
  · obtain ⟨row, hrow, he⟩ := List.mem_map.mp hm
    cases he
    exact List.mem_map.mpr ⟨row, hrow, rfl⟩

/-- A branch that is read or not read has a path of the vocabulary. -/
theorem mem_branchPaths_of_path {c : Conditional} (h : c.branches ∈ knownBranches) {path : Path}
    (hpath : c.path = some path ∨ c.otherPath = some path) : path ∈ branchPaths := by
  apply List.mem_flatMap.mpr
  refine ⟨c.branches, h, ?_⟩
  unfold Conditional.path Conditional.otherPath at hpath
  rw [List.mem_append, Option.mem_toList, Option.mem_toList]
  split at hpath
  · exact hpath
  · exact hpath.symm

namespace State

variable {s t : State} {quoted : Text} {options : Options} {source : Text}

/-- **The pile of conditionals is in order.** -/
structure WellFramed (s : State) : Prop where
  /-- Every conditional has branches that the vocabulary knows. -/
  known : ∀ c, some c ∈ s.conditionals → c.branches ∈ knownBranches
  /-- The conditional that properties are put under is on the pile. -/
  assigning : ∀ i, s.assigning = some i → ∃ c, s.conditionals[i]? = some (some c)

theorem WellFramed.congr (h : WellFramed s) (hc : t.conditionals = s.conditionals)
    (ha : t.assigning = s.assigning) : WellFramed t := by
  refine ⟨?_, ?_⟩
  · rw [hc]
    exact h.known
  · rw [hc, ha]
    exact h.assigning

theorem Kept.wellFramed (h : Kept s t) (hs : WellFramed s) : WellFramed t :=
  hs.congr h.conditionals h.assigning

theorem wellFramed_start : WellFramed start where
  known _ h := absurd h List.not_mem_nil
  assigning _ h := by cases h

/-! ## Directives -/

/-- Giving up a module only touches the module and the comments. -/
theorem dropModule_eq (s : State) (options : Options) : s.dropModule options =
    { s with
      draft := none
      file := { s.file with comments := (s.dropModule options).file.comments } } := by
  unfold dropModule
  split
  · next h =>
    rw [← h]
  · split <;> rfl

/-- Giving up a module at the end of a makefile only adds comments. -/
theorem definitions_finish (s : State) (options : Options) :
    (s.finish options).definitions = s.file.definitions := by
  unfold finish
  split
  · rfl
  · rw [dropModule_eq]

theorem wellFramed_openModule (hs : WellFramed s) : WellFramed (s.openModule options quoted) := by
  unfold openModule
  rw [dropModule_eq]
  exact hs.congr rfl rfl

theorem wellFramed_closeModule (hs : WellFramed s) (moduleType : Text) :
    WellFramed (s.closeModule quoted moduleType) := by
  have hclosed := closed_closeModule s quoted moduleType
  exact hs.congr hclosed.conditionals hclosed.assigning

theorem getElem?_append_of_some {α : Type} {as bs : List α} {i : Nat} {a : α}
    (h : as[i]? = some a) : (as ++ bs)[i]? = some a := by
  rw [List.getElem?_append_left (List.getElem?_eq_some_iff.mp h).1, h]

theorem wellFramed_beginConditional (hs : WellFramed s) (holds : Bool) (condition : Text) :
    WellFramed (s.beginConditional quoted holds condition) := by
  obtain ⟨hknown, hassigning⟩ := hs
  have hkeep : ∀ {frame : Option Conditional} (i : Nat), s.assigning = some i →
      ∃ c, (s.conditionals ++ [frame])[i]? = some (some c) := by
    intro frame i hi
    obtain ⟨c, hc⟩ := hassigning i hi
    exact ⟨c, getElem?_append_of_some hc⟩
  unfold beginConditional
  split
  · refine ⟨fun c hc => ?_, hkeep⟩
    rcases List.mem_append.mp hc with hc | hc
    · exact hknown c hc
    · cases List.mem_singleton.mp hc
  · next branches hb =>
    have hknown' : ∀ c, some c ∈ s.conditionals ++ [some (⟨branches, holds⟩ : Conditional)] →
        c.branches ∈ knownBranches := by
      intro c hc
      rcases List.mem_append.mp hc with hc | hc
      · exact hknown c hc
      · cases List.mem_singleton.mp hc
        exact mem_knownBranches_of_ofCondition hb
    simp only
    split
    · exact ⟨hknown', hkeep⟩
    · split
      · exact ⟨hknown', hkeep⟩
      · refine ⟨hknown', fun i hi => ?_⟩
        cases hi
        exact ⟨_, List.getElem?_concat_length⟩

/-- The pile before its last place, and the last place. -/
theorem conditionals_eq_of_getLast? {frame : Option Conditional}
    (h : s.conditionals.getLast? = some frame) :
    s.conditionals = s.conditionals.dropLast ++ [frame] := by
  obtain ⟨pile, hp⟩ := List.getLast?_eq_some_iff.mp h
  rw [hp, List.dropLast_concat]

/-- A place of the pile is the last one or lies before it. -/
theorem getElem?_dropLast_or {frame : Option Conditional} {i : Nat} {c : Conditional}
    (h : s.conditionals.getLast? = some frame) (hi : s.conditionals[i]? = some (some c)) :
    s.conditionals.dropLast[i]? = some (some c) ∨
      i = s.conditionals.dropLast.length ∧ frame = some c := by
  rw [conditionals_eq_of_getLast? h] at hi
  by_cases hlt : i < s.conditionals.dropLast.length
  · rw [List.getElem?_append_left hlt] at hi
    exact Or.inl hi
  · have hbound := (List.getElem?_eq_some_iff.mp hi).1
    rw [List.length_append, List.length_singleton] at hbound
    have he : i = s.conditionals.dropLast.length := by omega
    rw [he, List.getElem?_concat_length] at hi
    exact Or.inr ⟨he, Option.some.inj hi⟩

theorem wellFramed_otherBranch (hs : WellFramed s) : WellFramed (s.otherBranch quoted) := by
  unfold otherBranch
  split
  · exact hs.congr rfl rfl
  · exact hs
  · next c hlast =>
    have hmem : some c ∈ s.conditionals := List.mem_of_getLast? hlast
    refine ⟨fun e he => ?_, fun i hi => ?_⟩
    · rcases List.mem_append.mp he with he | he
      · exact hs.known e (List.dropLast_subset _ he)
      · cases List.mem_singleton.mp he
        exact hs.known c hmem
    · obtain ⟨e, he⟩ := hs.assigning i hi
      rcases getElem?_dropLast_or hlast he with hd | ⟨rfl, -⟩
      · exact ⟨e, getElem?_append_of_some hd⟩
      · exact ⟨c.flip, List.getElem?_concat_length⟩

theorem wellFramed_endConditional (hs : WellFramed s) : WellFramed (s.endConditional quoted) := by
  have hknown : ∀ c, some c ∈ s.conditionals.dropLast → c.branches ∈ knownBranches :=
    fun c hc => hs.known c (List.dropLast_subset _ hc)
  unfold endConditional
  split
  · exact hs.congr rfl rfl
  · next hlast =>
    refine ⟨hknown, fun i hi => ?_⟩
    obtain ⟨e, he⟩ := hs.assigning i hi
    rcases getElem?_dropLast_or hlast he with hd | ⟨-, hn⟩
    · exact ⟨e, hd⟩
    · cases hn
  · next c hlast =>
    refine ⟨hknown, fun i hi => ?_⟩
    simp only at hi
    split at hi
    · cases hi
    · next hne =>
      obtain ⟨e, he⟩ := hs.assigning i hi
      rcases getElem?_dropLast_or hlast he with hd | ⟨rfl, -⟩
      · exact ⟨e, hd⟩
      · exact absurd hi hne

/-- An `endif` takes the last conditional off the pile. Properties are put under none if it was
that one. -/
theorem endConditional_eq (quoted : Text) (hs : WellFramed s) (hne : s.conditionals ≠ []) :
    s.endConditional quoted =
      { s with
        conditionals := s.conditionals.dropLast
        assigning := if s.assigning = some s.conditionals.dropLast.length then none
          else s.assigning } := by
  unfold endConditional
  split
  · next hlast => exact absurd (List.getLast?_eq_none_iff.mp hlast) hne
  · next hlast =>
    have hassigning : s.assigning ≠ some s.conditionals.dropLast.length := by
      intro hi
      obtain ⟨c, hc⟩ := hs.assigning _ hi
      rw [conditionals_eq_of_getLast? hlast, List.dropLast_concat,
        List.getElem?_concat_length] at hc
      cases hc
    rw [if_neg hassigning]
  · rfl

/-- `t` is `s` up to the pile and a report. -/
def SameButPile (quoted : Text) (s t : State) : Prop :=
  ∃ u, (u = s ∨ ∃ problem ∈ [Problem.unsupportedConditional, .nestedConditional, .strayElse,
      .strayEnd], u = s.diagnose quoted problem) ∧
    t = { u with conditionals := t.conditionals, assigning := t.assigning }

theorem sameButPile_beginConditional (holds : Bool) (condition : Text) :
    SameButPile quoted s (s.beginConditional quoted holds condition) := by
  unfold beginConditional
  split
  · exact ⟨_, Or.inr ⟨.unsupportedConditional, by simp, rfl⟩, rfl⟩
  · simp only
    split
    · exact ⟨s, Or.inl rfl, rfl⟩
    · split
      · exact ⟨_, Or.inr ⟨.nestedConditional, by simp, rfl⟩, rfl⟩
      · exact ⟨s, Or.inl rfl, rfl⟩

theorem sameButPile_otherBranch : SameButPile quoted s (s.otherBranch quoted) := by
  unfold otherBranch
  split
  · exact ⟨_, Or.inr ⟨.strayElse, by simp, rfl⟩, rfl⟩
  · exact ⟨s, Or.inl rfl, rfl⟩
  · exact ⟨s, Or.inl rfl, rfl⟩

theorem sameButPile_endConditional : SameButPile quoted s (s.endConditional quoted) := by
  unfold endConditional
  split
  · exact ⟨_, Or.inr ⟨.strayEnd, by simp, rfl⟩, rfl⟩
  · exact ⟨s, Or.inl rfl, rfl⟩
  · exact ⟨s, Or.inl rfl, rfl⟩

/-! ## Steps and runs -/

/-- **A step keeps the pile in order.** -/
theorem wellFramed_step (hs : WellFramed s) (st : Statement) :
    WellFramed (s.step options source st) := by
  have hm : WellFramed (s.moveTo st.lines) := hs.congr rfl rfl
  have hcase := stepCase options source s st
  generalize s.step options source st = t at hcase
  cases hcase with
  | copies text h => exact hm.congr rfl rfl
  | assigns a t h ht => exact ht.kept.wellFramed hm
  | opens h => exact wellFramed_openModule hm
  | builds moduleType h => exact wellFramed_closeModule hm moduleType
  | begins holds condition h => exact wellFramed_beginConditional hm holds condition
  | turns h => exact wellFramed_otherBranch hm
  | ends h => exact wellFramed_endConditional hm
  | unsupported problem h hproblem => exact hm.congr rfl rfl

/-- A run keeps the pile in order. -/
theorem wellFramed_run (hs : WellFramed s) (sts : List Statement) :
    WellFramed (s.run options source sts) :=
  run_keeps (fun _ st _ h => wellFramed_step h st) hs

/-- **Every state of a run has its pile in order.** -/
theorem Reachable.wellFramed (h : Reachable options source s) : WellFramed s :=
  h.keeps (fun _ st hs => wellFramed_step hs st) wellFramed_start

/-- The conditional that properties are put under, where there is one. -/
theorem WellFramed.conditional? (hs : WellFramed s) {i : Nat} (hi : s.assigning = some i) :
    ∃ c, s.conditional? = some c ∧ s.conditionals[i]? = some (some c) := by
  obtain ⟨c, hc⟩ := hs.assigning i hi
  refine ⟨c, ?_, hc⟩
  unfold State.conditional?
  rw [hi, Option.bind_some, hc, Option.join_some]

/-- The branch that properties are put under has a path of the vocabulary. -/
theorem WellFramed.mem_branchPaths (hs : WellFramed s) {c : Conditional}
    (hc : s.conditional? = some c) {path : Path} (hpath : c.path = some path) :
    path ∈ branchPaths := by
  obtain ⟨i, -, hjoin⟩ := Option.bind_eq_some_iff.mp hc
  have hget : s.conditionals[i]? = some (some c) := Option.join_eq_some_iff.mp hjoin
  exact mem_branchPaths_of_path (hs.known c (List.mem_of_getElem? hget)) (.inl hpath)

/-- The paths that an assignment can be put under are those of suffixes and branches. -/
theorem WellFramed.mem_places (hs : WellFramed s) {path : Path} (h : path ∈ s.places) :
    path = [] ∨ path ∈ suffixes.map Prod.snd ∨ path ∈ branchPaths := by
  rcases List.mem_append.mp h with h | h
  · rcases List.mem_cons.mp h with rfl | h
    · exact Or.inl rfl
    · exact Or.inr (Or.inl h)
  · obtain ⟨c, hc, hpath⟩ := Option.bind_eq_some_iff.mp (Option.mem_toList.mp h)
    exact Or.inr (Or.inr (hs.mem_branchPaths hc hpath))

/-- A module is switched off under paths of branches. -/
theorem WellFramed.mem_branchPaths_of_mem_otherPaths (hs : WellFramed s) :
    ∀ path ∈ s.otherPaths, path ∈ branchPaths := by
  intro path hp
  obtain ⟨frame, hframe, hc⟩ := List.mem_filterMap.mp hp
  obtain ⟨c, rfl, hother⟩ := Option.bind_eq_some_iff.mp hc
  exact mem_branchPaths_of_path (hs.known c hframe) (.inr hother)

end State

end MakeBlueprint.Conversion
