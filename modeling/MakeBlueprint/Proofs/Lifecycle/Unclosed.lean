import MakeBlueprint.Proofs.Conversion.Recast
import MakeBlueprint.Proofs.Ordering

/-!
# Reports of modules that are never closed

Whether modules that are never closed are reported is asked in the middle of a conversion, whenever
one module gives way to the next. The answer makes no difference to anything but the report: two
conversions with different answers run side by side, and their states are the same up to comments.

* `GivenUp`: the module that is begun at a place is never built, told by the events alone.
* `Parallel`: the two states, with the comments of both told by one list of notes.
* `Parallel.perform`, `Parallel.dropModule`: how statements and reports keep them so.
* `parallel_before`: the two conversions before every statement, which have the same events
  (`events_of_silent`).
* `toBlueprint_unclosed`: **the two files**.
-/

namespace MakeBlueprint.Conversion

open Blueprint (Comment)
open Makefile (Content Statement)

/-! ## Modules that are given up -/

/-- **The module that is begun at a place is given up before another**: there another one is begun,
and no event lies between the two. -/
def GivenUpBefore (es : List (Option ModuleEvent)) (n i : Nat) : Prop :=
  ∃ j < n, Pending es i j ∧ es[j]? = some (some .opens)

/-- **The module that is begun at a place is given up**: behind it no module is built before the next
one is begun or the makefile ends. -/
def GivenUp (es : List (Option ModuleEvent)) (i : Nat) : Prop :=
  GivenUpBefore es es.length i ∨ Pending es i es.length

section

variable {es : List (Option ModuleEvent)} {i j n : Nat}

theorem givenUpBefore_succ_of_opens (hn : es[n]? = some (some .opens)) :
    GivenUpBefore es (n + 1) i ↔ GivenUpBefore es n i ∨ Pending es i n := by
  constructor
  · rintro ⟨j, hj, hpending, hopens⟩
    by_cases he : j = n
    · exact .inr (he ▸ hpending)
    · exact .inl ⟨j, by omega, hpending, hopens⟩
  · rintro (⟨j, hj, hpending, hopens⟩ | hpending)
    · exact ⟨j, by omega, hpending, hopens⟩
    · exact ⟨n, by omega, hpending, hn⟩

theorem givenUpBefore_succ_of_ne (hn : es[n]? ≠ some (some .opens)) :
    GivenUpBefore es (n + 1) i ↔ GivenUpBefore es n i := by
  constructor
  · rintro ⟨j, hj, hpending, hopens⟩
    have hne : j ≠ n := by
      rintro rfl
      exact hn hopens
    exact ⟨j, by omega, hpending, hopens⟩
  · rintro ⟨j, hj, hpending, hopens⟩
    exact ⟨j, by omega, hpending, hopens⟩

/-- A module that was given up earlier was begun earlier than the one that is open. -/
theorem GivenUpBefore.lt_of_pending (h : GivenUpBefore es n j) (hi : Pending es i n) : j < i := by
  obtain ⟨k, hk, hpending, hopens⟩ := h
  have hbefore := hpending.before
  by_contra hle
  have hquiet := hi.quiet k (by omega) hk
  rw [hopens] at hquiet
  cases hquiet

end

/-! ## Notes -/

/-- A comment, with the place where the module was begun if it reports that one was given up. -/
structure Note where
  comment : Comment
  begun : Option Nat := none

namespace Note

/-- All comments of notes. -/
def all (notes : List Note) : List Comment := notes.map comment

/-- The comments of notes that report no module that was given up. -/
def others (notes : List Note) : List Comment :=
  (notes.filter fun note => note.begun.isNone).map comment

/-- The places of notes. -/
def places (notes : List Note) : List Nat := notes.filterMap begun

/-- Comments that report no module that was given up. -/
def plain (comments : List Comment) : List Note := comments.map fun c => ⟨c, none⟩

variable (notes : List Note) (comments : List Comment) (c : Comment) (i : Nat)

theorem all_plain : all (notes ++ plain comments) = all notes ++ comments := by
  unfold all plain
  rw [List.map_append, List.map_map]
  exact congrArg _ (List.map_id comments)

theorem others_plain : others (notes ++ plain comments) = others notes ++ comments := by
  have hplain : (plain comments).filter (fun note => note.begun.isNone) = plain comments := by
    refine List.filter_eq_self.mpr fun note hnote => ?_
    obtain ⟨d, -, rfl⟩ := List.mem_map.mp hnote
    rfl
  unfold others
  rw [List.filter_append, hplain, List.map_append]
  unfold plain
  rw [List.map_map]
  exact congrArg _ (List.map_id comments)

theorem places_plain : places (notes ++ plain comments) = places notes := by
  have hplain : (plain comments).filterMap begun = [] := by
    refine List.filterMap_eq_nil_iff.mpr fun note hnote => ?_
    obtain ⟨d, -, rfl⟩ := List.mem_map.mp hnote
    rfl
  unfold places
  rw [List.filterMap_append, hplain, List.append_nil]

theorem all_report : all (notes ++ [⟨c, some i⟩]) = all notes ++ [c] := List.map_append

theorem others_report : others (notes ++ [⟨c, some i⟩]) = others notes := by
  unfold others
  rw [List.filter_append]
  exact congrArg _ (List.append_nil _)

theorem places_report : places (notes ++ [⟨c, some i⟩]) = places notes ++ [i] :=
  List.filterMap_append

end Note

/-- **Notes report modules that were given up**: each of them once, in the order in which they were
begun, and each as the statement that began it. -/
structure Reports (source : Text) (sts : List Statement) (given : Nat → Prop)
    (notes : List Note) : Prop where
  sorted : (Note.places notes).Pairwise (· < ·)
  mem : ∀ i, i ∈ Note.places notes ↔ given i
  quoted : ∀ note ∈ notes, ∀ i, note.begun = some i → ∃ st, sts[i]? = some st ∧
    note.comment.lines = Problem.neverClosed.report (st.quote source)

section

variable {source : Text} {sts : List Statement} {given given' : Nat → Prop} {notes : List Note}

theorem Reports.congr (h : Reports source sts given notes) (hgiven : ∀ i, given' i ↔ given i) :
    Reports source sts given' notes :=
  ⟨h.sorted, fun i => (h.mem i).trans (hgiven i).symm, h.quoted⟩

theorem Reports.plain (h : Reports source sts given notes) (comments : List Comment) :
    Reports source sts given (notes ++ Note.plain comments) where
  sorted := by
    rw [Note.places_plain]
    exact h.sorted
  mem := by
    rw [Note.places_plain]
    exact h.mem
  quoted note hnote i hi := by
    rcases List.mem_append.mp hnote with hnote | hnote
    · exact h.quoted note hnote i hi
    · obtain ⟨c, -, rfl⟩ := List.mem_map.mp hnote
      cases hi

/-- A module that was begun behind all others is reported last. -/
theorem Reports.report (h : Reports source sts given notes) {i : Nat} {st : Statement}
    (hlast : ∀ j, given j → j < i) (hst : sts[i]? = some st) (line : Nat) :
    Reports source sts (fun j => given j ∨ j = i)
      (notes ++ [⟨⟨Problem.neverClosed.report (st.quote source), line⟩, some i⟩]) where
  sorted := by
    rw [Note.places_report, List.pairwise_append]
    refine ⟨h.sorted, List.pairwise_singleton _ _, fun j hj k hk => ?_⟩
    rw [List.mem_singleton.mp hk]
    exact hlast j ((h.mem j).mp hj)
  mem j := by
    rw [Note.places_report, List.mem_append, List.mem_singleton, h.mem]
  quoted note hnote j hj := by
    rcases List.mem_append.mp hnote with hnote | hnote
    · exact h.quoted note hnote j hj
    · cases List.mem_singleton.mp hnote
      cases hj
      exact ⟨st, hst, rfl⟩

end

namespace State

variable {source quoted : Text} {sts : List Statement} {st : Statement} {notes : List Note}
  {u shown silent : State} {n : Nat}

/-! ## Two conversions -/

/-- **The states of two conversions side by side**, of which only one reports modules that are given
up. Both are the same state, with their own comments in front of its none. -/
structure Parallel (notes : List Note) (u shown silent : State) : Prop where
  bare : u.file.comments = []
  shown : shown = u.recast (Note.all notes) id
  silent : silent = u.recast (Note.others notes) id

theorem parallel_start : Parallel [] start start start := ⟨rfl, rfl, rfl⟩

theorem draft_recast (earlier : List Comment) (s : State) :
    (s.recast earlier id).draft = s.draft := by
  unfold recast
  cases s.draft <;> rfl

theorem Parallel.scope (h : Parallel notes u shown silent) :
    shown.scope = u.scope ∧ silent.scope = u.scope := by
  obtain ⟨-, rfl, rfl⟩ := h
  exact ⟨rfl, rfl⟩

theorem Parallel.draft (h : Parallel notes u shown silent) : shown.draft = u.draft := by
  rw [h.shown, draft_recast]

/-- The state without its comments. -/
def withoutComments (s : State) : State := { s with file := { s.file with comments := [] } }

theorem recast_eq_withoutComments (earlier : List Comment) (s : State) :
    s.recast earlier id = s.withoutComments.recast (earlier ++ s.file.comments) id := by
  unfold recast withoutComments
  simp only [List.append_nil]

theorem Parallel.moveTo (h : Parallel notes u shown silent) (lines : Span) :
    Parallel notes (u.moveTo lines) (shown.moveTo lines) (silent.moveTo lines) := by
  obtain ⟨hbare, rfl, rfl⟩ := h
  exact ⟨hbare, rfl, rfl⟩

theorem Parallel.nextLine (h : Parallel notes u shown silent) :
    Parallel notes { u with line := u.line + 1 } { shown with line := shown.line + 1 }
      { silent with line := silent.line + 1 } := by
  obtain ⟨hbare, rfl, rfl⟩ := h
  exact ⟨hbare, rfl, rfl⟩

/-- **A statement that begins no module** adds the same comments to both. -/
theorem Parallel.perform (h : Parallel notes u shown silent) (quoted : Text) {content : Content}
    (hopens : ModuleEvent.of? u.scope content ≠ some .opens) :
    ∃ comments v, Parallel (notes ++ Note.plain comments) v
      (shown.perform { reportUnclosed := true } quoted content)
      (silent.perform { reportUnclosed := false } quoted content) := by
  obtain ⟨-, rfl, rfl⟩ := h
  refine ⟨(u.perform { reportUnclosed := true } quoted content).file.comments,
    (u.perform { reportUnclosed := true } quoted content).withoutComments, ⟨rfl, ?_, ?_⟩⟩
  · rw [perform_recast _ _ _ _ hopens, recast_eq_withoutComments, Note.all_plain]
  · rw [perform_recast _ _ _ _ hopens, recast_eq_withoutComments, Note.others_plain]

/-- **A module that is given up** is reported in one of them. -/
theorem Parallel.dropModule (h : Parallel notes u shown silent) {d : Draft}
    (hd : u.draft = some d) (i : Nat) :
    Parallel (notes ++ [⟨⟨Problem.neverClosed.report d.openedBy, u.line⟩, some i⟩])
      { u with draft := none } (shown.dropModule { reportUnclosed := true })
      (silent.dropModule { reportUnclosed := false }) := by
  obtain ⟨hbare, rfl, rfl⟩ := h
  refine ⟨hbare, ?_, ?_⟩
  · unfold State.dropModule
    rw [draft_recast, hd, Note.all_report]
    simp only [if_true, diagnose, comment, recast, hbare, List.append_nil, Option.map_none]
  · unfold State.dropModule
    rw [draft_recast, hd, Note.others_report]
    rfl

theorem Parallel.dropModule_of_none (h : Parallel notes u shown silent) (hd : u.draft = none) :
    Parallel notes { u with draft := none } (shown.dropModule { reportUnclosed := true })
      (silent.dropModule { reportUnclosed := false }) := by
  have hsame : { u with draft := none } = u := by
    rw [← hd]
  obtain ⟨hbare, rfl, rfl⟩ := h
  unfold State.dropModule
  rw [draft_recast, draft_recast, hd, hsame]
  exact ⟨hbare, rfl, rfl⟩

/-- **A module is begun** in both, once the one before is given up. -/
theorem Parallel.openModule (hline : Parallel notes u shown silent) {notes' : List Note}
    (h : Parallel notes' { u with draft := none } (shown.dropModule { reportUnclosed := true })
      (silent.dropModule { reportUnclosed := false })) :
    Parallel notes' { u with draft := some ⟨[], u.line, quoted⟩ }
      (shown.openModule { reportUnclosed := true } quoted)
      (silent.openModule { reportUnclosed := false } quoted) := by
  obtain ⟨hbare, hshown, hsilent⟩ := h
  unfold State.openModule
  rw [hshown, hsilent, hline.shown, hline.silent]
  exact ⟨hbare, rfl, rfl⟩

/-! ## Runs side by side -/

/-- The events of the conversion that reports modules that are given up. -/
def shownEvents (source : Text) (sts : List Statement) : List (Option ModuleEvent) :=
  events { reportUnclosed := true } source start sts

/-- **The module that is open is given up** in states that are on the line of the next statement or
behind all of them. -/
theorem parallel_dropModule (hn : n ≤ sts.length) (h : Parallel notes u shown silent)
    (hd : u.draft = (before { reportUnclosed := true } source sts n).draft)
    (hnotes : Reports source sts (GivenUpBefore (shownEvents source sts) n) notes) :
    ∃ notes', Parallel notes' { u with draft := none }
        (shown.dropModule { reportUnclosed := true })
        (silent.dropModule { reportUnclosed := false }) ∧
      Reports source sts (fun i => GivenUpBefore (shownEvents source sts) n i ∨
        Pending (shownEvents source sts) i n) notes' := by
  cases hopen : u.draft with
  | none =>
    have hnone := (collected_before { reportUnclosed := true } source hn).2 (hd ▸ hopen)
    refine ⟨notes, h.dropModule_of_none hopen, hnotes.congr fun i => ?_⟩
    exact ⟨fun hi => hi.resolve_right (hnone i), .inl⟩
  | some d =>
    have hheader : (before { reportUnclosed := true } source sts n).header =
        some (d.line, d.openedBy) := by
      unfold header
      rw [← hd, hopen]
      rfl
    obtain ⟨i, st, hi, hst, hquote⟩ := opener_before _ source hn hheader
    refine ⟨_, h.dropModule hopen i, ?_⟩
    rw [hquote]
    refine (hnotes.report (fun j hj => hj.lt_of_pending hi) hst u.line).congr fun j => ?_
    refine or_congr_right ⟨fun hj => hj.unique hi, ?_⟩
    rintro rfl
    exact hi

/-- **The two conversions before a statement.** -/
theorem parallel_before (source : Text) (hn : n ≤ sts.length) :
    ∃ notes u, Parallel notes u (before { reportUnclosed := true } source sts n)
        (before { reportUnclosed := false } source sts n) ∧
      Reports source sts (GivenUpBefore (shownEvents source sts) n) notes := by
  induction n with
  | zero =>
    refine ⟨[], start, parallel_start, .nil, fun i => ?_, fun _ hnote => absurd hnote List.not_mem_nil⟩
    constructor
    · intro hi
      exact absurd hi List.not_mem_nil
    · rintro ⟨j, hj, -⟩
      exact absurd hj (Nat.not_lt_zero j)
  | succ n ih =>
    obtain ⟨notes, u, hparallel, hnotes⟩ := ih (Nat.le_of_succ_le hn)
    obtain ⟨st, hst⟩ : ∃ st, sts[n]? = some st := ⟨_, List.getElem?_eq_getElem hn⟩
    have hmoved := hparallel.moveTo st.lines
    have hevent : (shownEvents source sts)[n]? = some (ModuleEvent.of? u.scope st.content) := by
      unfold shownEvents
      rw [event_at hst, hparallel.scope.1]
    rw [before_succ hst, before_succ hst, step_eq_perform, step_eq_perform]
    by_cases hopens : ModuleEvent.of? u.scope st.content = some .opens
    · obtain ⟨notes', hdropped, hnotes'⟩ :=
        parallel_dropModule (Nat.le_of_succ_le hn) hmoved hparallel.draft.symm hnotes
      rw [hopens] at hevent
      rw [perform_of_opens _ (by rw [hmoved.scope.1]; exact hopens),
        perform_of_opens _ (by rw [hmoved.scope.2]; exact hopens)]
      exact ⟨notes', _, hmoved.openModule hdropped,
        hnotes'.congr fun i => givenUpBefore_succ_of_opens hevent⟩
    · obtain ⟨comments, v, hperform⟩ := hmoved.perform (st.quote source) hopens
      refine ⟨_, v, hperform, (hnotes.plain comments).congr fun i => ?_⟩
      refine givenUpBefore_succ_of_ne ?_
      rw [hevent]
      exact fun he => hopens (Option.some.inj he)

/-- Both conversions have the same events. -/
theorem events_of_silent (source : Text) (sts : List Statement) :
    events { reportUnclosed := false } source start sts = shownEvents source sts := by
  refine List.ext_getElem? fun n => ?_
  cases hst : sts[n]? with
  | none =>
    unfold shownEvents
    rw [getElem?_events, getElem?_events, hst]
    rfl
  | some st =>
    have hn : n < sts.length := (List.getElem?_eq_some_iff.mp hst).1
    obtain ⟨notes, u, hparallel, -⟩ := parallel_before source (Nat.le_of_lt hn)
    obtain ⟨hshown, hsilent⟩ := hparallel.scope
    unfold shownEvents
    rw [event_at hst, event_at hst, hshown, hsilent]

theorem Parallel.file (h : Parallel notes u shown silent) :
    silent.file.definitions = shown.file.definitions ∧ Note.all notes = shown.file.comments ∧
      Note.others notes = silent.file.comments := by
  obtain ⟨hbare, rfl, rfl⟩ := h
  unfold recast
  rw [hbare]
  exact ⟨rfl, (List.append_nil _).symm, (List.append_nil _).symm⟩

theorem finish_eq_dropModule (s : State) (options : Options) :
    s.finish options = ({ s with line := s.line + 1 }.dropModule options).file := by
  unfold finish dropModule
  cases s.draft <;> rfl

end State

open State

/-- **Reports of modules that are never closed make no other difference.** Whether they are reported
or not, a makefile has the same definitions. Without the reports its comments are the others, as they
are, in the same order and on the same lines. There is one report for each module that is begun and
given up, in their order, and it quotes the statement that began the module. -/
theorem toBlueprint_unclosed (source : Text) (sts : List Statement) :
    let shown := toBlueprint { reportUnclosed := true } source sts
    let silent := toBlueprint { reportUnclosed := false } source sts
    silent.definitions = shown.definitions ∧
      events { reportUnclosed := false } source start sts =
        events { reportUnclosed := true } source start sts ∧
      ∃ notes : List Note, Note.all notes = shown.comments ∧ Note.others notes = silent.comments ∧
        Reports source sts (GivenUp (events { reportUnclosed := true } source start sts)) notes := by
  obtain ⟨notes, u, hparallel, hnotes⟩ := parallel_before source (Nat.le_refl sts.length)
  have hlength : (shownEvents source sts).length = sts.length := length_events start sts
  obtain ⟨notes', hdropped, hnotes'⟩ :=
    parallel_dropModule (Nat.le_refl _) hparallel.nextLine hparallel.draft.symm hnotes
  rw [before_length, before_length] at hdropped
  obtain ⟨hdefinitions, hall, hothers⟩ := hdropped.file
  unfold toBlueprint
  rw [finish_eq_dropModule, finish_eq_dropModule]
  refine ⟨hdefinitions, events_of_silent source sts, notes', hall, hothers, ?_⟩
  refine hnotes'.congr fun i => ?_
  unfold GivenUp
  rw [← hlength]
  rfl

end MakeBlueprint.Conversion
