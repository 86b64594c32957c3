import MakeBlueprint.Proofs.Conversion.Ordered
import MakeBlueprint.Proofs.Lifecycle.Run

/-!
# A conversion only adds

What is in a file stays there as further statements are converted. So the file of the beginning of a
makefile is the beginning of the file, up to the report of a module that is open where the beginning
ends.

* `grows_step`, `grows_run`: definitions and comments are added at the end.
* `comments_finish`: what the end of a makefile adds.
* `opener_before`: the open module quotes the statement that began it.
* `toBlueprint_append_only`: **the files of a makefile and of its beginning**, whose lines are in
  order.
-/

namespace MakeBlueprint.Blueprint

/-- One file is another with definitions and comments added at the end. -/
structure File.Grows (f g : File) : Prop where
  definitions : f.definitions <+: g.definitions
  comments : f.comments <+: g.comments

variable {f g h : File}

theorem File.Grows.refl (f : File) : f.Grows f := ⟨List.prefix_rfl, List.prefix_rfl⟩

theorem File.Grows.trans (hfg : f.Grows g) (hgh : g.Grows h) : f.Grows h :=
  ⟨hfg.definitions.trans hgh.definitions, hfg.comments.trans hgh.comments⟩

end MakeBlueprint.Blueprint

namespace MakeBlueprint.Conversion

open Blueprint (Path)
open Makefile (Assignment Statement)

namespace State

variable {s t : State} {quoted : Text} {options : Options} {source : Text} {sts : List Statement}

/-! ## Nothing is taken away -/

theorem grows_comment (s : State) (lines : List Text) : s.file.Grows (s.comment lines).file :=
  ⟨List.prefix_rfl, List.prefix_append _ _⟩

theorem grows_define (s : State) (d : Blueprint.Definition) : s.file.Grows (s.define d).file :=
  ⟨List.prefix_append _ _, List.prefix_rfl⟩

theorem SameButProperties.grows (h : SameButProperties s t) : s.file.Grows t.file := by
  rw [h.rest]
  exact .refl _

theorem SameButPile.grows (h : SameButPile quoted s t) : s.file.Grows t.file := by
  obtain ⟨u, hu, he⟩ := h
  rw [he]
  rcases hu with rfl | ⟨problem, -, rfl⟩
  · exact .refl _
  · exact grows_comment s _

theorem AssignmentCase.grows {a : Assignment} (h : AssignmentCase s quoted a t) :
    s.file.Grows t.file := by
  have hbefore : ∀ {before : State},
      before = s ∨ before = s.diagnose quoted .suffixInConditional → s.file.Grows before.file := by
    rintro before (rfl | rfl)
    · exact .refl _
    · exact grows_comment s _
  cases h with
  | skipped problem => exact grows_comment s _
  | written before t name path ws hb hpath hws hwrite =>
    exact (hbefore hb).trans (sameButProperties_of_writes hwrite).grows
  | global before t name evaluated list hb hlist hset =>
    obtain ⟨total, -, rfl⟩ := setGlobal_eq_ok hset
    exact (hbefore hb).trans (grows_define before _)
  | refused before name path cause hb => exact (hbefore hb).trans (grows_comment before _)

theorem grows_dropModule (s : State) (options : Options) :
    s.file.Grows (s.dropModule options).file := by
  unfold dropModule
  split
  · exact .refl _
  · dsimp only
    split
    · exact grows_comment s _
    · exact .refl _

theorem grows_disable (quoted : Text) (s : State) (path : Path) :
    s.file.Grows (s.disable quoted path).file := by
  unfold disable
  split
  · next t ht => exact (sameButProperties_of_setProperty ht).grows
  · exact grows_comment s _

theorem grows_disabled (quoted : Text) (s : State) : s.file.Grows (s.disabled quoted).file :=
  disabled_keeps (P := fun t => s.file.Grows t.file) (.refl _) fun t h path _ =>
    h.trans (grows_disable quoted t path)

theorem grows_closeModule (s : State) (quoted moduleType : Text) :
    s.file.Grows (s.closeModule quoted moduleType).file := by
  cases hd : s.draft with
  | none =>
    rw [closeModule_of_none quoted moduleType hd]
    exact grows_comment s _
  | some d =>
    obtain ⟨e, -, hclose⟩ := closeModule_of_isSome quoted moduleType (by rw [hd]; rfl)
    rw [hclose]
    exact (grows_disabled quoted s).trans (grows_define { s.disabled quoted with draft := none } _)

/-- **A step only adds** definitions and comments. -/
theorem grows_step (options : Options) (source : Text) (s : State) (st : Statement) :
    s.file.Grows (s.step options source st).file := by
  change (s.moveTo st.lines).file.Grows _
  have hcase := stepCase options source s st
  generalize s.step options source st = t at hcase
  cases hcase with
  | copies text h => exact grows_comment _ _
  | assigns a t h ht => exact ht.grows
  | opens h => exact grows_dropModule _ options
  | builds moduleType h => exact grows_closeModule _ _ moduleType
  | begins holds condition h => exact (sameButPile_beginConditional holds condition).grows
  | turns h => exact sameButPile_otherBranch.grows
  | ends h => exact sameButPile_endConditional.grows
  | unsupported problem h hproblem => exact grows_comment _ _

theorem grows_run (options : Options) (source : Text) (s : State) (sts : List Statement) :
    s.file.Grows (s.run options source sts).file :=
  run_keeps (P := fun t => s.file.Grows t.file)
    (fun t st _ ht => ht.trans (grows_step options source t st)) (.refl _)

/-! ## The end of a makefile -/

/-- The report of the module that is left over, on a line of its own. -/
def leftOver (s : State) (options : Options) : List Blueprint.Comment :=
  match s.draft with
  | none => []
  | some d =>
    if options.reportUnclosed then [⟨Problem.neverClosed.report d.openedBy, s.line + 1⟩] else []

theorem comments_finish (s : State) (options : Options) :
    (s.finish options).comments = s.file.comments ++ s.leftOver options := by
  unfold finish leftOver dropModule
  cases hd : s.draft with
  | none => exact (List.append_nil _).symm
  | some d =>
    simp only [Option.isNone_some, Bool.false_eq_true, if_false]
    split
    · rfl
    · exact (List.append_nil _).symm

/-- **The open module quotes the statement that began it**, which is the last event. -/
theorem opener_before {n : Nat} (options : Options) (source : Text) (hn : n ≤ sts.length)
    {line : Nat} {opener : Text} (hd : (before options source sts n).header = some (line, opener)) :
    ∃ i st, Pending (events options source start sts) i n ∧ sts[i]? = some st ∧
      opener = st.quote source := by
  induction n with
  | zero => cases hd
  | succ n ih =>
    obtain ⟨st, hst⟩ : ∃ st, sts[n]? = some st := ⟨_, List.getElem?_eq_getElem hn⟩
    have hevent := @event_at options source sts st n hst
    rw [before_succ hst] at hd
    cases he : ModuleEvent.of? (before options source sts n).scope st.content with
    | none =>
      rw [he] at hevent
      rw [(idle_step he).header] at hd
      obtain ⟨i, opened, hi, hopened, hquote⟩ := ih (Nat.le_of_succ_le hn) hd
      exact ⟨i, opened, (pending_succ_of_none hevent).mpr hi, hopened, hquote⟩
    | some e =>
      rw [he] at hevent
      rcases step_of_event he with ⟨rfl, hopen⟩ | ⟨moduleType, rfl, hclose⟩
      · unfold header at hd
        rw [hopen, draft_openModule] at hd
        cases hd
        exact ⟨n, st, pending_succ_of_opens hevent, hst, rfl⟩
      · unfold header at hd
        rw [hclose, (closed_closeModule _ _ _).draft] at hd
        cases hd

end State

open State

/-- **A conversion only adds.** The definitions of a makefile stay as further statements follow, and
so do its comments, up to the report of a module that is open at its end. The lines of every file are
in order. -/
theorem toBlueprint_append_only (options : Options) (source : Text) (sts : List Statement) :
    (∀ rest : List Statement,
      (toBlueprint options source sts).definitions <+:
          (toBlueprint options source (sts ++ rest)).definitions ∧
        ∃ kept, kept <+: (toBlueprint options source (sts ++ rest)).comments ∧
          (((options.reportUnclosed = true →
                ∀ i, ¬ Pending (events options source start sts) i sts.length) ∧
              (toBlueprint options source sts).comments = kept) ∨
            ∃ i st line, options.reportUnclosed = true ∧
              Pending (events options source start sts) i sts.length ∧ sts[i]? = some st ∧
              (toBlueprint options source sts).comments =
                kept ++ [⟨Problem.neverClosed.report (st.quote source), line⟩])) ∧
      (toBlueprint options source sts).InOrder := by
  refine ⟨fun rest => ?_, inOrder_toBlueprint options source sts⟩
  have hgrows := grows_run options source (start.run options source sts) rest
  have hstate := before_length options source sts
  unfold toBlueprint
  rw [run_append, definitions_finish, definitions_finish, comments_finish, comments_finish]
  refine ⟨hgrows.definitions, _, hgrows.comments.trans (List.prefix_append _ _), ?_⟩
  unfold leftOver
  split
  · next hd =>
    have hnone := (collected_before options source (Nat.le_refl sts.length)).2 (hstate ▸ hd)
    exact .inl ⟨fun _ => hnone, List.append_nil _⟩
  · next d hd =>
    split
    · next hreport =>
      have hheader : (before options source sts sts.length).header = some (d.line, d.openedBy) := by
        unfold header
        rw [hstate, hd]
        rfl
      obtain ⟨i, st, hi, hst, hquote⟩ := opener_before options source (Nat.le_refl _) hheader
      rw [hquote]
      exact .inr ⟨i, st, _, hreport, hi, hst, rfl⟩
    · next hreport => exact .inl ⟨fun h => absurd h hreport, List.append_nil _⟩

end MakeBlueprint.Conversion
