import MakeBlueprint.Proofs.Conversion.Modules

/-!
# Invariants of property trees

The properties of a module are an empty tree into which assignments write, and in which building the
module switches it off. What the empty tree has and both keep (`KeptByWrites`) is true of the open
module and of all finished ones after every run: `treesHave_run`.
-/

namespace MakeBlueprint.Conversion

open Blueprint (Path Property)
open Makefile (Assignment Statement)

/-- A write into a property tree. -/
def Write.into (w : Write) (line : Nat) (ps : List Property) : Except Refusal (List Property) :=
  Property.update line .notAMap w.name (State.changed w.append w.value) w.path ps

/-- The write that switches a module off under a path. -/
def disabling (path : Path) : Write := ⟨path, State.enabledName, .bool false, false⟩

/-- **What trees have from the start and keep**, whatever some statements write. -/
structure KeptByWrites (sts : List Statement) (Q : List Property → Prop) : Prop where
  empty : Q []
  assigns : ∀ st ∈ sts, ∀ a, st.content = .assignment a → ∀ scope name path ws,
    writes scope name path a.value.body (a.op == .append) = .ok ws →
    ∀ w ∈ ws, ∀ line ps qs, Q ps → w.into line ps = .ok qs → Q qs
  disables : ∀ path line ps qs, Q ps → (disabling path).into line ps = .ok qs → Q qs

namespace State

variable {Q : List Property → Prop} {sts : List Statement} {s t : State} {quoted : Text}
  {options : Options} {source : Text} {w : Write}

/-- The trees of the open module and of the finished ones. -/
def trees (s : State) : List (List Property) :=
  s.draft.toList.map Draft.properties ++ s.file.modules.map Blueprint.Module.properties

/-- All trees have a property. -/
def TreesHave (Q : List Property → Prop) (s : State) : Prop := ∀ ps ∈ s.trees, Q ps

theorem treesHave_iff : TreesHave Q s ↔
    (∀ d, s.draft = some d → Q d.properties) ∧ ∀ m ∈ s.file.modules, Q m.properties := by
  unfold TreesHave trees
  simp only [List.mem_append, List.mem_map, Option.mem_toList]
  constructor
  · intro h
    exact ⟨fun d hd => h _ (.inl ⟨d, hd, rfl⟩), fun m hm => h _ (.inr ⟨m, hm, rfl⟩)⟩
  · rintro ⟨hdraft, hmodules⟩ ps (⟨d, hd, rfl⟩ | ⟨m, hm, rfl⟩)
    · exact hdraft d hd
    · exact hmodules m hm

theorem TreesHave.same (h : TreesHave Q s) (hdraft : t.draft = s.draft)
    (hmodules : t.file.modules = s.file.modules) : TreesHave Q t := by
  rw [treesHave_iff, hdraft, hmodules]
  exact treesHave_iff.mp h

theorem TreesHave.write (h : TreesHave Q s)
    (hw : ∀ line ps qs, Q ps → w.into line ps = .ok qs → Q qs) (ht : s.write w = .ok t) :
    TreesHave Q t := by
  obtain ⟨d, properties, hd, hp, rfl⟩ := setProperty_eq_ok ht
  obtain ⟨hdraft, hmodules⟩ := treesHave_iff.mp h
  refine treesHave_iff.mpr ⟨fun e he => ?_, hmodules⟩
  cases he
  exact hw s.line d.properties properties (hdraft d hd) hp

theorem TreesHave.assignment {a : Assignment} (h : TreesHave Q s)
    (hw : ∀ scope name path ws, writes scope name path a.value.body (a.op == .append) = .ok ws →
      ∀ w ∈ ws, ∀ line ps qs, Q ps → w.into line ps = .ok qs → Q qs)
    (hcase : AssignmentCase s quoted a t) : TreesHave Q t := by
  have hbefore : ∀ {before}, before = s ∨ before = s.diagnose quoted .suffixInConditional →
      TreesHave Q before := by
    rintro before (rfl | rfl)
    · exact h
    · exact h.same rfl rfl
  cases hcase with
  | skipped problem hproblem => exact h.same rfl rfl
  | written before t name path ws hb hpath hws hwrite =>
    refine foldlM_keeps (P := TreesHave Q) (fun w hmem u v hu hv => ?_) (hbefore hb) hwrite
    exact hu.write (hw _ _ _ _ hws w hmem) hv
  | global before t name evaluated list hb hlist hset =>
    have hkept := kept_setGlobal before.scope hset
    obtain ⟨total, -, rfl⟩ := setGlobal_eq_ok hset
    exact (hbefore hb).same rfl hkept.modules
  | refused before name path cause hb hpath hcause => exact (hbefore hb).same rfl rfl

theorem TreesHave.disabled (h : TreesHave Q s)
    (hdisables : ∀ path line ps qs, Q ps → (disabling path).into line ps = .ok qs → Q qs) :
    TreesHave Q (s.disabled quoted) := by
  refine disabled_keeps h fun t ht path _ => ?_
  unfold disable
  split
  · next u hu => exact ht.write (w := disabling path) (hdisables path) hu
  · exact ht.same rfl rfl

theorem TreesHave.closeModule (h : TreesHave Q s) (moduleType : Text)
    (hdisables : ∀ path line ps qs, Q ps → (disabling path).into line ps = .ok qs → Q qs) :
    TreesHave Q (s.closeModule quoted moduleType) := by
  cases hd : s.draft with
  | none =>
    rw [closeModule_of_none quoted moduleType hd]
    exact h.same rfl rfl
  | some d =>
    obtain ⟨e, he, hclose⟩ := closeModule_of_isSome quoted moduleType (by rw [hd]; rfl)
    have hdisabled : TreesHave Q (s.disabled quoted) := h.disabled hdisables
    obtain ⟨hdraft, hmodules⟩ := treesHave_iff.mp hdisabled
    rw [hclose]
    refine treesHave_iff.mpr ⟨fun f hf => (by cases hf), fun m hm => ?_⟩
    rw [modules_define_module] at hm
    rcases List.mem_append.mp hm with hm | hm
    · exact hmodules m hm
    · rw [List.mem_singleton.mp hm]
      exact hdraft e he

theorem TreesHave.sameButPile (h : TreesHave Q s) (ht : SameButPile quoted s t) :
    TreesHave Q t := by
  obtain ⟨u, hu, he⟩ := ht
  have hs : TreesHave Q u := by
    rcases hu with rfl | ⟨problem, -, rfl⟩
    · exact h
    · exact h.same rfl rfl
  rw [he]
  exact hs.same rfl rfl

/-- A step keeps what all trees have. -/
theorem treesHave_step (hkept : KeptByWrites sts Q) (h : TreesHave Q s) {st : Statement}
    (hst : st ∈ sts) : TreesHave Q (s.step options source st) := by
  have hm : TreesHave Q (s.moveTo st.lines) := h.same rfl rfl
  have hcase := stepCase options source s st
  generalize s.step options source st = t at hcase
  cases hcase with
  | copies text hc => exact hm.same rfl rfl
  | assigns a t hc ht => exact hm.assignment (hkept.assigns st hst a hc) ht
  | opens hc =>
    have hmodules := (treesHave_iff.mp hm).2
    refine treesHave_iff.mpr ⟨fun d hd => ?_, fun m hmem => hmodules m ?_⟩
    · cases hd
      exact hkept.empty
    · rw [← modules_dropModule _ options]
      exact hmem
  | builds moduleType hc => exact hm.closeModule moduleType hkept.disables
  | begins holds condition hc => exact hm.sameButPile (sameButPile_beginConditional _ _)
  | turns hc => exact hm.sameButPile sameButPile_otherBranch
  | ends hc => exact hm.sameButPile sameButPile_endConditional
  | unsupported problem hc hproblem => exact hm.same rfl rfl

/-- **A run keeps what all trees have.** -/
theorem treesHave_run (options : Options) (source : Text) (hkept : KeptByWrites sts Q) :
    TreesHave Q (start.run options source sts) :=
  run_keeps (P := TreesHave Q) (fun _ _ hst hs => treesHave_step hkept hs hst)
    fun _ hps => absurd hps List.not_mem_nil

end State

end MakeBlueprint.Conversion
