import MakeBlueprint.Proofs.Conversion.Modules
import MakeBlueprint.Proofs.Property.Update

/-!
# The lines of a file are in order

Every statement is converted on a line of its own, behind the lines of all earlier statements, and
what it adds to the file stands on that line. Nothing else enforces the order of lines that the
printer relies on.

* `File.InOrder`: the order of the lines of a file.
* `Between.update`: a property that is written comes last, or keeps the line that it has.
* `State.Ordered`: the invariant, for a line that everything finished ends on or before.
* `ordered_step`, `Reachable.ordered`: every state of a run is in order.
* `inOrder_toBlueprint`: **so is every file**.
-/

namespace MakeBlueprint.Blueprint

/-- Properties that stand in the order of their lines, behind one line and up to another. -/
structure Property.Between (first last : Nat) (ps : List Property) : Prop where
  sorted : ps.Pairwise fun p q => p.line ≤ q.line
  inside : ∀ p ∈ ps, first < p.line ∧ p.line ≤ last

/-- **The lines of a module are in order.** -/
structure Module.InOrder (m : Module) : Prop where
  extent : m.line < m.endLine
  properties : Property.Between m.line m.endLine m.properties

/-- **The lines of a file are in order.** -/
structure File.InOrder (f : File) : Prop where
  comments : f.comments.Pairwise fun c d => c.line ≤ d.line
  definitions : f.definitions.Pairwise fun d e => d.endLine < e.endLine
  modules : ∀ m ∈ f.modules, m.InOrder
  /-- Every module ends before the next one begins. -/
  apart : f.modules.Pairwise fun m n => m.endLine < n.line

variable {f : File} {ps qs : List Property} {first last : Nat}

/-! ## Properties -/

namespace Property

theorem between_nil (first last : Nat) : Between first last [] :=
  ⟨List.Pairwise.nil, fun _ hp => absurd hp List.not_mem_nil⟩

theorem between_iff_lines : Between first last ps ↔
    (ps.map Property.line).Pairwise (· ≤ ·) ∧
      ∀ n ∈ ps.map Property.line, first < n ∧ n ≤ last := by
  rw [List.pairwise_map, List.forall_mem_map]
  exact ⟨fun h => ⟨h.sorted, h.inside⟩, fun h => ⟨h.1, h.2⟩⟩

theorem Between.mono {last' : Nat} (h : Between first last ps) (hlast : last ≤ last') :
    Between first last' ps where
  sorted := h.sorted
  inside p hp := ⟨(h.inside p hp).1, Nat.le_trans (h.inside p hp).2 hlast⟩

/-- A change on the last line keeps the order, since a new property comes last. -/
theorem Between.update {ε : Type} {notAMap : Text → ε} {name : Text} {path : Path}
    {change : Option Value → Except ε Value} (h : Between first last ps) (hlast : first < last)
    (hupdate : update last notAMap name change path ps = .ok qs) : Between first last qs := by
  rw [between_iff_lines] at h ⊢
  rcases lines_update hupdate with hsame | hadded
  · rw [hsame]
    exact h
  · obtain ⟨hsorted, hinside⟩ := h
    rw [hadded, List.pairwise_append]
    refine ⟨⟨hsorted, List.pairwise_singleton _ _, fun n hn m hm => ?_⟩, fun n hn => ?_⟩
    · rw [List.mem_singleton.mp hm]
      exact (hinside n hn).2
    · rcases List.mem_append.mp hn with hn | hn
      · exact hinside n hn
      · rw [List.mem_singleton.mp hn]
        exact ⟨hlast, Nat.le_refl last⟩

end Property

/-! ## Files -/

namespace File

theorem mem_modules {m : Module} : m ∈ f.modules ↔ .module m ∈ f.definitions := by
  unfold modules
  rw [List.mem_filterMap]
  constructor
  · rintro ⟨d, hd, he⟩
    cases d with
    | assignment a => cases he
    | module n =>
      cases he
      exact hd
  · exact fun hm => ⟨_, hm, rfl⟩

theorem InOrder.comment (hf : f.InOrder) {c : Comment} (hline : ∀ d ∈ f.comments, d.line ≤ c.line) :
    InOrder { f with comments := f.comments ++ [c] } where
  comments := by
    rw [List.pairwise_append]
    refine ⟨hf.comments, List.pairwise_singleton _ _, fun d hd e he => ?_⟩
    rw [List.mem_singleton.mp he]
    exact hline d hd
  definitions := hf.definitions
  modules := hf.modules
  apart := hf.apart

/-- A definition that ends behind all others keeps the definitions in order. -/
theorem InOrder.pairwise_concat (hf : f.InOrder) {d : Definition}
    (hline : ∀ e ∈ f.definitions, e.endLine < d.endLine) :
    (f.definitions ++ [d]).Pairwise fun d e => d.endLine < e.endLine := by
  rw [List.pairwise_append]
  refine ⟨hf.definitions, List.pairwise_singleton _ _, fun e he d' hd' => ?_⟩
  rw [List.mem_singleton.mp hd']
  exact hline e he

end File

end MakeBlueprint.Blueprint

namespace MakeBlueprint.Conversion

open Blueprint (Path Property Value)
open Makefile (Assignment Statement)

namespace State

variable {s t : State} {past : Nat} {quoted name moduleType : Text} {path : Path} {value : Value}
  {append : Bool} {options : Options} {source : Text} {st : Statement} {sts : List Statement}

/-! ## The invariant -/

/-- **The lines of a state are in order**, and everything finished ends on or before a line. -/
structure Ordered (past : Nat) (s : State) : Prop where
  file : s.file.InOrder
  comments : ∀ c ∈ s.file.comments, c.line ≤ s.line
  definitions : ∀ d ∈ s.file.definitions, d.endLine ≤ past
  opened : ∀ d, s.draft = some d → d.line ≤ past
  properties : ∀ d, s.draft = some d → Property.Between d.line s.line d.properties
  modules : ∀ d, s.draft = some d → ∀ m ∈ s.file.modules, m.endLine < d.line

theorem ordered_start : Ordered start.line start where
  file := ⟨.nil, .nil, fun _ hm => absurd hm List.not_mem_nil, .nil⟩
  comments _ hc := absurd hc List.not_mem_nil
  definitions _ hd := absurd hd List.not_mem_nil
  opened _ hd := by cases hd
  properties _ hd := by cases hd
  modules _ hd := by cases hd

theorem Ordered.same (h : Ordered past s) (hfile : t.file = s.file) (hline : t.line = s.line)
    (hdraft : t.draft = s.draft) : Ordered past t where
  file := hfile ▸ h.file
  comments := by
    rw [hfile, hline]
    exact h.comments
  definitions := hfile ▸ h.definitions
  opened := hdraft ▸ h.opened
  properties := by
    rw [hdraft, hline]
    exact h.properties
  modules := by
    rw [hdraft, hfile]
    exact h.modules

/-- What is finished before a line is finished before any later one. -/
theorem Ordered.mono {past' : Nat} (h : Ordered past s) (hpast : past ≤ past') :
    Ordered past' s where
  file := h.file
  comments := h.comments
  definitions d hd := Nat.le_trans (h.definitions d hd) hpast
  opened d hd := Nat.le_trans (h.opened d hd) hpast
  properties := h.properties
  modules := h.modules

/-- The current line may move on. -/
theorem Ordered.later (h : Ordered past s) {line : Nat} (hline : s.line ≤ line) :
    Ordered past { s with line } where
  file := h.file
  comments c hc := Nat.le_trans (h.comments c hc) hline
  definitions := h.definitions
  opened := h.opened
  properties d hd := (h.properties d hd).mono hline
  modules := h.modules

theorem lt_line_moveTo (s : State) (lines : Span) : s.line < (s.moveTo lines).line := by
  unfold moveTo
  dsimp only
  split <;> omega

theorem Ordered.moveTo (h : Ordered past s) (lines : Span) : Ordered past (s.moveTo lines) :=
  (h.later (Nat.le_of_lt (lt_line_moveTo s lines))).same rfl rfl rfl

/-! ## What is added -/

theorem Ordered.comment (h : Ordered past s) (lines : List Text) : Ordered past (s.comment lines) where
  file := h.file.comment h.comments
  comments := List.forall_mem_append.mpr
    ⟨h.comments, List.forall_mem_singleton.mpr (Nat.le_refl s.line)⟩
  definitions := h.definitions
  opened := h.opened
  properties := h.properties
  modules := h.modules

theorem Ordered.setProperty (h : Ordered past s) (hpast : past < s.line)
    (hset : s.setProperty path name value append = .ok t) : Ordered past t := by
  obtain ⟨d, properties, hd, hupdate, rfl⟩ := setProperty_eq_ok hset
  have hopened := h.opened d hd
  refine ⟨h.file, h.comments, h.definitions, ?_, ?_, ?_⟩
  · rintro _ ⟨⟩
    exact hopened
  · rintro _ ⟨⟩
    exact (h.properties d hd).update (by omega) hupdate
  · rintro _ ⟨⟩
    exact h.modules d hd

theorem Ordered.writes (h : Ordered past s) (hpast : past < s.line) {ws : List Write}
    (hws : ws.foldlM State.write s = .ok t) : Ordered past t := by
  have hstep : ∀ w ∈ ws, ∀ u v : State, Ordered past u ∧ u.line = s.line → u.write w = .ok v →
      Ordered past v ∧ v.line = s.line := by
    rintro w - u v ⟨hu, hline⟩ hw
    refine ⟨hu.setProperty (by omega) hw, ?_⟩
    rw [(sameButProperties_of_setProperty hw).rest]
    exact hline
  exact (foldlM_keeps hstep ⟨h, rfl⟩ hws).1

/-- A variable of the file is defined on the current line. -/
theorem Ordered.setGlobal (h : Ordered past s) (hpast : past < s.line)
    (hset : s.setGlobal name value append = .ok t) : Ordered s.line t := by
  obtain ⟨total, -, rfl⟩ := setGlobal_eq_ok hset
  have hbefore : ∀ d ∈ s.file.definitions, d.endLine < s.line := fun d hd =>
    Nat.lt_of_le_of_lt (h.definitions d hd) hpast
  have hmodules := modules_define_assignment s
    ⟨name, value, if (s.knownKind name append).isSome then .append else .set, s.line⟩
  have h := h.mono (Nat.le_of_lt hpast)
  refine ⟨⟨h.file.comments, h.file.pairwise_concat hbefore, ?_, ?_⟩, h.comments, ?_, h.opened,
    h.properties, ?_⟩
  · exact hmodules.symm ▸ h.file.modules
  · exact hmodules.symm ▸ h.file.apart
  · exact List.forall_mem_append.mpr
      ⟨h.definitions, List.forall_mem_singleton.mpr (Nat.le_refl s.line)⟩
  · exact hmodules.symm ▸ h.modules

theorem Ordered.assignment {a : Assignment} (h : Ordered past s) (hpast : past < s.line)
    (ht : AssignmentCase s quoted a t) : Ordered s.line t := by
  have hbefore : ∀ {before : State},
      before = s ∨ before = s.diagnose quoted .suffixInConditional → Ordered past before := by
    rintro before (rfl | rfl)
    · exact h
    · exact h.comment _
  have hline : ∀ {before : State},
      before = s ∨ before = s.diagnose quoted .suffixInConditional → before.line = s.line := by
    rintro before (rfl | rfl) <;> rfl
  cases ht with
  | skipped problem => exact (h.comment _).mono (Nat.le_of_lt hpast)
  | written before t name path ws hb hpath hws hwrite =>
    exact ((hbefore hb).writes (hline hb ▸ hpast) hwrite).mono (Nat.le_of_lt hpast)
  | global before t name evaluated list hb hlist hset =>
    have hdefined := (hbefore hb).setGlobal (hline hb ▸ hpast) hset
    rw [hline hb] at hdefined
    exact hdefined.same rfl rfl rfl
  | refused before name path cause hb => exact ((hbefore hb).comment _).mono (Nat.le_of_lt hpast)

/-! ## Modules and conditionals -/

theorem Ordered.dropModule (h : Ordered past s) (options : Options) :
    Ordered past (s.dropModule options) := by
  unfold State.dropModule
  split
  · exact h
  · have hdropped : Ordered past { s with draft := none } :=
      ⟨h.file, h.comments, h.definitions, by rintro _ ⟨⟩, by rintro _ ⟨⟩, by rintro _ ⟨⟩⟩
    dsimp only
    split
    · exact hdropped.comment _
    · exact hdropped

theorem line_dropModule (s : State) (options : Options) :
    (s.dropModule options).line = s.line := by
  rw [dropModule_eq]

theorem Ordered.endLine_le (h : Ordered past s) : ∀ m ∈ s.file.modules, m.endLine ≤ past :=
  fun _ hm => h.definitions _ (Blueprint.File.mem_modules.mp hm)

/-- A module is begun on the current line. -/
theorem Ordered.openModule (h : Ordered past s) (hpast : past < s.line) (quoted : Text) :
    Ordered s.line (s.openModule options quoted) := by
  have hdropped := (h.dropModule options).mono (Nat.le_of_lt hpast)
  have hmodules := modules_dropModule s options
  refine ⟨hdropped.file, hdropped.comments, hdropped.definitions, ?_, ?_, ?_⟩
  · rintro _ ⟨⟩
    exact Nat.le_refl s.line
  · rintro _ ⟨⟩
    exact Property.between_nil _ _
  · rintro _ ⟨⟩ m hm
    exact Nat.lt_of_le_of_lt (h.endLine_le m (hmodules ▸ hm)) hpast

theorem Ordered.disable (h : Ordered past s) (hpast : past < s.line) :
    Ordered past (s.disable quoted path) := by
  unfold State.disable
  split
  · next t ht => exact h.setProperty hpast ht
  · exact h.comment _

theorem Ordered.disabled (h : Ordered past s) (hpast : past < s.line) (quoted : Text) :
    Ordered past (s.disabled quoted) := by
  refine (disabled_keeps (P := fun t => Ordered past t ∧ past < t.line) ⟨h, hpast⟩ ?_).1
  rintro t ⟨ht, hline⟩ path -
  exact ⟨ht.disable hline, (kept_disable quoted t path).line.symm ▸ hline⟩

/-- The open module becomes a definition that ends on the current line. -/
theorem Ordered.emit (h : Ordered past s) (hpast : past < s.line) {d : Draft}
    (hd : s.draft = some d) (moduleType : Text) :
    Ordered s.line ({ s with draft := none }.define
      (.module ⟨moduleType, d.properties, d.line, s.line⟩)) := by
  have hmodules := modules_define_module { s with draft := none }
    ⟨moduleType, d.properties, d.line, s.line⟩
  have hbefore : ∀ e ∈ s.file.definitions, e.endLine < s.line := fun e he =>
    Nat.lt_of_le_of_lt (h.definitions e he) hpast
  have hnew : Blueprint.Module.InOrder ⟨moduleType, d.properties, d.line, s.line⟩ :=
    ⟨Nat.lt_of_le_of_lt (h.opened d hd) hpast, h.properties d hd⟩
  refine ⟨⟨h.file.comments, h.file.pairwise_concat hbefore, ?_, ?_⟩, h.comments, ?_, by rintro _ ⟨⟩,
    by rintro _ ⟨⟩, by rintro _ ⟨⟩⟩
  · rw [hmodules]
    exact List.forall_mem_append.mpr ⟨h.file.modules, List.forall_mem_singleton.mpr hnew⟩
  · rw [hmodules, List.pairwise_append]
    refine ⟨h.file.apart, List.pairwise_singleton _ _, fun m hm n hn => ?_⟩
    rw [List.mem_singleton.mp hn]
    exact h.modules d hd m hm
  · exact List.forall_mem_append.mpr
      ⟨(h.mono (Nat.le_of_lt hpast)).definitions, List.forall_mem_singleton.mpr (Nat.le_refl s.line)⟩

theorem Ordered.closeModule (h : Ordered past s) (hpast : past < s.line) :
    Ordered s.line (s.closeModule quoted moduleType) := by
  cases hd : s.draft with
  | none =>
    rw [closeModule_of_none quoted moduleType hd]
    exact (h.comment _).mono (Nat.le_of_lt hpast)
  | some d =>
    obtain ⟨e, he, hclose⟩ := closeModule_of_isSome quoted moduleType (by rw [hd]; rfl)
    have hline : (s.disabled quoted).line = s.line := (kept_disabled quoted s).line
    rw [hclose, ← hline]
    exact (h.disabled hpast quoted).emit (hline.symm ▸ hpast) he moduleType

theorem Ordered.sameButPile (h : Ordered past s) (ht : SameButPile quoted s t) :
    Ordered past t := by
  obtain ⟨u, hu, he⟩ := ht
  rw [he]
  rcases hu with rfl | ⟨problem, -, rfl⟩
  · exact h.same rfl rfl rfl
  · exact (h.comment _).same rfl rfl rfl

theorem SameButPile.line (h : SameButPile quoted s t) : t.line = s.line := by
  obtain ⟨u, hu, he⟩ := h
  rw [he]
  rcases hu with rfl | ⟨problem, -, rfl⟩ <;> rfl

/-! ## Steps and runs -/

theorem line_step (options : Options) (source : Text) (s : State) (st : Statement) :
    (s.step options source st).line = (s.moveTo st.lines).line := by
  have hcase := stepCase options source s st
  generalize s.step options source st = t at hcase
  cases hcase with
  | copies text h => rfl
  | assigns a t h ht => exact ht.kept.line
  | opens h => exact line_dropModule _ options
  | builds moduleType h => exact (closed_closeModule _ _ _).line
  | begins holds condition h => exact (sameButPile_beginConditional _ _).line
  | turns h => exact sameButPile_otherBranch.line
  | ends h => exact sameButPile_endConditional.line
  | unsupported problem h hproblem => rfl

/-- **A step keeps the lines in order**: what it finishes ends on its own line. -/
theorem ordered_step (h : Ordered s.line s) (st : Statement) :
    Ordered (s.step options source st).line (s.step options source st) := by
  have hpast := lt_line_moveTo s st.lines
  have hm : Ordered s.line (s.moveTo st.lines) := h.moveTo st.lines
  have hnow : ∀ {t : State}, Ordered s.line t → Ordered (s.moveTo st.lines).line t := fun ht =>
    ht.mono (Nat.le_of_lt hpast)
  rw [line_step]
  have hcase := stepCase options source s st
  generalize s.step options source st = t at hcase
  cases hcase with
  | copies text h => exact hnow (hm.comment _)
  | assigns a t h ht => exact hm.assignment hpast ht
  | opens h => exact hm.openModule hpast _
  | builds moduleType h => exact hm.closeModule hpast
  | begins holds condition h => exact hnow (hm.sameButPile (sameButPile_beginConditional _ _))
  | turns h => exact hnow (hm.sameButPile sameButPile_otherBranch)
  | ends h => exact hnow (hm.sameButPile sameButPile_endConditional)
  | unsupported problem h hproblem => exact hnow (hm.comment _)

/-- **The lines of every state of a run are in order.** -/
theorem Reachable.ordered (h : Reachable options source s) : Ordered s.line s :=
  h.keeps (P := fun s => Ordered s.line s) (fun _ st hs => ordered_step hs st) ordered_start

/-- The lines of the file at the end of a makefile are in order. -/
theorem Ordered.finish (h : Ordered past s) (options : Options) : (s.finish options).InOrder := by
  unfold State.finish
  split
  · exact h.file
  · exact ((h.later (Nat.le_succ s.line)).dropModule options).file

end State

/-- **The lines of every file are in order.** -/
theorem inOrder_toBlueprint (options : Options) (source : Text) (sts : List Statement) :
    (toBlueprint options source sts).InOrder :=
  (State.Reachable.ordered ⟨sts, rfl⟩).finish options

end MakeBlueprint.Conversion
