import MakeBlueprint.Proofs.Printing.Lines
import MakeBlueprint.Proofs.Reading.Breaks
import MakeBlueprint.Proofs.Typing.Conversion

/-!
# Comments stay in their lines

A comment of a file repeats makefile text: that of a comment, the source of a statement that is
reported, or what a refusal says of a value. The first two are cut into lines. A refusal is put on
one line as it is, and it holds a line feed when the value does, which only escaped line breaks that
are taken for names of references bring about (`Phrase.Body.HoldsBreak`).

* `Refusal.OfAssignment.stemsFrom`: a line feed in a refusal comes from the text that is refused.
* `Marked`: every line of a comment begins with two slashes, and a line feed in it is that of a
  refusal. `marked_step`, `marked_run`: this holds along every run.
* `comments_contained`: so the comments of a file stay in their lines unless some value holds a
  line break, and then **what is printed besides comments does not depend on them**.
-/

namespace MakeBlueprint.Text

/-! ## Lines -/

variable {c : Char} {t piece : Text}

theorem not_of_mem_split {p : Char → Bool} (h : piece ∈ split p t) (hc : c ∈ piece) :
    p c = false := by
  induction t generalizing piece with
  | nil =>
    rw [List.mem_singleton.mp h] at hc
    cases hc
  | cons d t ih =>
    rw [split] at h
    split at h
    · rcases List.mem_cons.mp h with rfl | h
      · cases hc
      · exact ih h hc
    · next hd =>
      obtain ⟨first, pieces, hpieces⟩ := List.exists_cons_of_ne_nil (split_ne_nil p t)
      rw [hpieces] at h ih
      rcases List.mem_cons.mp h with rfl | h
      · rcases List.mem_cons.mp hc with rfl | hc
        · exact Bool.eq_false_iff.mpr hd
        · exact ih List.mem_cons_self hc
      · exact ih (List.mem_cons_of_mem first h) hc

/-- A line holds a line feed at most at its end. -/
theorem exists_of_mem_linesWithBreaks (h : piece ∈ linesWithBreaks t) :
    ∃ w, '\n' ∉ w ∧ (piece = w ++ ['\n'] ∨ piece = w) := by
  induction t generalizing piece with
  | nil => cases h
  | cons d t ih =>
    rw [linesWithBreaks] at h
    split at h
    · next hd =>
      rcases List.mem_cons.mp h with rfl | h
      · exact ⟨[], List.not_mem_nil, .inl (by rw [hd]; rfl)⟩
      · exact ih h
    · next hd =>
      have hfirst : ∀ {w : Text}, '\n' ∉ w → '\n' ∉ d :: w := fun hw hmem =>
        (List.mem_cons.mp hmem).elim (fun heq => hd heq.symm) hw
      cases hlines : linesWithBreaks t with
      | nil =>
        rw [hlines] at h
        exact ⟨[d], hfirst List.not_mem_nil, .inr (List.mem_singleton.mp h)⟩
      | cons line lines =>
        rw [hlines] at h ih
        rcases List.mem_cons.mp h with rfl | h
        · obtain ⟨w, hw, rfl | rfl⟩ := ih List.mem_cons_self
          · exact ⟨d :: w, hfirst hw, .inl rfl⟩
          · exact ⟨d :: line, hfirst hw, .inr rfl⟩
        · exact ih (List.mem_cons_of_mem line h)

theorem newline_not_mem_withoutBreak (h : '\n' ∉ t) : '\n' ∉ withoutBreak (t ++ ['\n']) := by
  have hreverse : (t ++ ['\n']).reverse = '\n' :: t.reverse := by simp
  rw [← List.mem_reverse] at h
  unfold withoutBreak
  rw [hreverse]
  split
  · next r heq =>
    rw [(List.cons.inj heq).2] at h
    exact fun hmem => h (List.mem_cons_of_mem _ (List.mem_reverse.mp hmem))
  · next r hne heq =>
    rw [(List.cons.inj heq).2] at h
    exact fun hmem => h (List.mem_reverse.mp hmem)
  · next hne => exact absurd rfl (hne _)

/-- A line without its line break holds no line feed. -/
theorem newline_not_mem_of_mem_lines (h : piece ∈ lines t) : '\n' ∉ piece := by
  obtain ⟨line, hline, rfl⟩ := List.mem_map.mp h
  obtain ⟨w, hw, rfl | rfl⟩ := exists_of_mem_linesWithBreaks hline
  · exact newline_not_mem_withoutBreak hw
  · rwa [withoutBreak_of_not_mem hw]

theorem not_mem_join {separator : Text} {texts : List Text} (hseparator : c ∉ separator)
    (h : ∀ t ∈ texts, c ∉ t) : c ∉ join separator texts := by
  induction texts with
  | nil => exact List.not_mem_nil
  | cons t texts ih =>
    have ht : c ∉ t := h t List.mem_cons_self
    have hrest := ih fun u hu => h u (List.mem_cons_of_mem t hu)
    cases texts with
    | nil => simpa [join] using ht
    | cons u texts =>
      unfold join at hrest ⊢
      rw [List.intercalate_cons_cons, List.mem_append, List.mem_append]
      rintro ((hmem | hmem) | hmem)
      · exact ht hmem
      · exact hseparator hmem
      · exact hrest hmem

end MakeBlueprint.Text

namespace MakeBlueprint.Conversion

open Blueprint (Comment Path commentMark)
open Makefile (Assignment Phrase Statement)

/-! ## Messages -/

variable {name : Text} {path : Path} {body : Phrase.Body} {append : Bool} {cause : Refusal}

/-- A line feed in a message is in what stands behind the fixed words. -/
theorem newline_mem_of_append {fixed rest : Text} (hfixed : '\n' ∉ fixed)
    (hmem : '\n' ∈ fixed ++ rest) : '\n' ∈ rest :=
  (List.mem_append.mp hmem).resolve_left hfixed

/-- A refusal with a line feed repeats one that the refused text has. -/
theorem Refusal.StemsFrom.newline_mem (h : cause.StemsFrom body) (hmem : '\n' ∈ cause.message) :
    '\n' ∈ body.dump := by
  cases h with
  | computedName r hr =>
    have hname := newline_mem_of_append (by decide) hmem
    exact Phrase.Body.newline_mem_dump_of_mem_references hr hname
  | _ => exact newline_mem_of_append (by decide) hmem

theorem newline_not_mem_propertyKinds : ∀ row ∈ propertyKinds, '\n' ∉ row.1 := by decide +kernel

theorem newline_not_mem_propertyPaths : ∀ path ∈ propertyPaths, ∀ name ∈ path, '\n' ∉ name := by
  decide +kernel

/-- The names of properties hold no line feeds. -/
theorem newline_not_mem_outsideModule {w : Write} (hw : w.Typed) :
    '\n' ∉ (Refusal.outsideModule (Path.dotted (w.path ++ [w.name]))).message := by
  have hdotted : '\n' ∉ Path.dotted (w.path ++ [w.name]) := by
    refine Text.not_mem_join (by decide) fun t ht => ?_
    rcases List.mem_append.mp ht with ht | ht
    · exact newline_not_mem_propertyPaths w.path hw.place t ht
    · rw [List.mem_singleton.mp ht]
      exact newline_not_mem_propertyKinds _ (mem_of_lookup hw.kind)
  intro hmem
  rcases List.mem_append.mp hmem with hmem | hmem
  · exact hdotted (newline_mem_of_append (by decide) hmem)
  · exact absurd hmem (by decide)

/-- **A line feed in a refusal comes from the text that is refused.** -/
theorem Refusal.OfAssignment.stemsFrom (h : cause.OfAssignment name body) (hname : '\n' ∉ name)
    (hmem : '\n' ∈ cause.message) : cause.StemsFrom body := by
  cases h with
  | text h => exact h
  | name => exact absurd (newline_mem_of_append (by decide) hmem) hname
  | outside w hw => exact absurd hmem (newline_not_mem_outsideModule hw)
  | booleans => exact absurd hmem (by decide)

/-- All other messages are one line. -/
theorem newline_not_mem_message {problem : Problem} (h : ∀ cause, problem ≠ .refused cause) :
    '\n' ∉ problem.message := by
  cases problem with
  | refused cause => exact absurd rfl (h cause)
  | _ => decide

/-! ## The invariant -/

/-- A message is that of a refusal for a reason in the text of an assignment, which holds a line
feed. -/
def BrokenBy (sts : List Statement) (message : Text) : Prop :=
  ∃ a ∈ Makefile.assignments sts, a.target = none ∧ '\n' ∈ a.value.body.dump ∧
    ∃ cause : Refusal, cause.StemsFrom a.value.body ∧ message = cause.message

/-- **The lines of comments**: they begin with two slashes, and a line feed in one is that of the
message of a refusal. -/
def MarkedLine (sts : List Statement) (line : Text) : Prop :=
  commentMark <+: line ∧
    ('\n' ∈ line → ∃ message, BrokenBy sts message ∧ line = problemMark ++ message)

variable {sts : List Statement}

theorem markedLine_of_not_mem {line : Text} (hmark : commentMark <+: line) (hbreak : '\n' ∉ line) :
    MarkedLine sts line := ⟨hmark, fun hmem => absurd hmem hbreak⟩

theorem markedLine_copied (text : Text) : ∀ line ∈ copied text, MarkedLine sts line := by
  intro line hline
  obtain ⟨piece, hpiece, rfl⟩ := List.mem_map.mp hline
  refine markedLine_of_not_mem (List.prefix_append _ piece) fun hmem => ?_
  have hbreak := Text.not_of_mem_split hpiece (newline_mem_of_append (by decide) hmem)
  exact absurd hbreak (by decide)

/-- The source of a statement is cut into lines, and the message in front of it is not. -/
theorem markedLine_report {problem : Problem} (quoted : Text)
    (h : '\n' ∈ problem.message → BrokenBy sts problem.message) :
    ∀ line ∈ problem.report quoted, MarkedLine sts line := by
  intro line hline
  rcases List.mem_cons.mp hline with rfl | hline
  · exact ⟨⟨_, rfl⟩, fun hmem => ⟨_, h (newline_mem_of_append (by decide) hmem), rfl⟩⟩
  · obtain ⟨piece, hpiece, rfl⟩ := List.mem_map.mp hline
    refine markedLine_of_not_mem ⟨_, rfl⟩ fun hmem => ?_
    exact Text.newline_not_mem_of_mem_lines hpiece (newline_mem_of_append (by decide) hmem)

namespace State

variable {s t : State} {quoted : Text} {options : Options} {source : Text}

/-- **The invariant of comments** in a conversion of some statements. -/
def Marked (sts : List Statement) (s : State) : Prop :=
  ∀ c ∈ s.file.comments, ∀ line ∈ c.lines, MarkedLine sts line

theorem Marked.same (h : Marked sts s) (hsame : t.file.comments = s.file.comments) :
    Marked sts t := by
  unfold Marked
  rwa [hsame]

theorem Marked.comment (h : Marked sts s) {lines : List Text}
    (hlines : ∀ line ∈ lines, MarkedLine sts line) : Marked sts (s.comment lines) :=
  List.forall_mem_append.mpr ⟨h, List.forall_mem_singleton.mpr hlines⟩

/-- A problem whose message is fixed. -/
theorem Marked.diagnose (h : Marked sts s) (quoted : Text) {problem : Problem}
    (hproblem : ∀ cause, problem ≠ .refused cause) : Marked sts (s.diagnose quoted problem) :=
  h.comment (markedLine_report quoted fun hmem =>
    absurd hmem (newline_not_mem_message hproblem))

/-! ## Steps -/

theorem comments_of_assign (h : s.assign name path body append = .ok t) :
    t.file.comments = s.file.comments := by
  by_cases hg : Meaning.ofName name = .global
  · rw [assign_of_global hg] at h
    obtain ⟨list, -, h⟩ := bind_eq_ok h
    obtain ⟨u, hset, h⟩ := bind_eq_ok h
    obtain ⟨total, -, rfl⟩ := setGlobal_eq_ok hset
    cases h
    rfl
  · rw [assign_eq_writes hg] at h
    obtain ⟨ws, -, hw⟩ := bind_eq_ok h
    rw [(sameButProperties_of_writes hw).rest]

/-- A name without white characters holds no line feed, and loses no more than its end. -/
theorem newline_not_mem_baseName {written : Text} (h : written.any Text.isWhite = false) :
    '\n' ∉ baseName written := by
  obtain ⟨rest, hrest⟩ := baseName_prefix written
  intro hmem
  have hwritten : '\n' ∈ written := hrest ▸ List.mem_append_left rest hmem
  exact List.any_eq_false.mp h '\n' hwritten (by decide)

theorem Marked.assignment {a : Assignment} (h : Marked sts s) (hs : Sound sts s)
    (ha : a ∈ Makefile.assignments sts) : Marked sts (s.assignment quoted a) := by
  have hroute := assignmentRoute s quoted a
  generalize s.assignment quoted a = t at hroute
  cases hroute with
  | skipped problem hproblem => exact h.diagnose quoted (by rintro cause rfl; simp at hproblem)
  | handed before written place hbefore htarget hwritten hspace hplace =>
    have hmarked : Marked sts before ∧ Sound sts before := by
      rcases hbefore with rfl | rfl
      · exact ⟨h, hs⟩
      · exact ⟨h.diagnose quoted nofun, hs.diagnose quoted trivial⟩
    unfold assignOrReport
    split
    · next t ht => exact hmarked.1.same (comments_of_assign ht)
    · next cause hcause =>
      have hpath := mem_propertyPaths_of_mem_places hs.frames hplace
      have hreason := hmarked.2.ofAssignment_of_assign_error hpath hcause
      refine hmarked.1.comment (markedLine_report quoted fun hmem => ?_)
      have hstems := hreason.stemsFrom (newline_not_mem_baseName hspace) hmem
      exact ⟨a, ha, htarget, hstems.newline_mem hmem, cause, hstems, rfl⟩

/-- Switching a module off is refused with a message of one line. -/
theorem Marked.disable (h : Marked sts s) (hs : Sound sts s) (hpath : path ∈ branchPaths) :
    Marked sts (s.disable quoted path) := by
  unfold State.disable
  split
  · next t ht =>
    refine h.same ?_
    rw [(sameButProperties_of_setProperty ht).rest]
  · next cause he =>
    refine h.comment (markedLine_report quoted fun hmem => absurd hmem ?_)
    rcases hs.cases_of_write_error (typed_disable hpath) he with rfl | rfl
    · exact newline_not_mem_outsideModule (typed_disable hpath)
    · decide

theorem Marked.disabled (h : Marked sts s) (hs : Sound sts s) :
    Marked sts (s.disabled quoted) := by
  refine (disabled_keeps (P := fun t => Marked sts t ∧ Sound sts t) ⟨h, hs⟩ ?_).1
  rintro t ⟨ht, hsound⟩ path hpath
  have hbranch := hs.frames.mem_branchPaths_of_mem_otherPaths path hpath
  exact ⟨ht.disable hsound hbranch, hsound.disable hbranch⟩

theorem Marked.closeModule (h : Marked sts s) (hs : Sound sts s) (moduleType : Text) :
    Marked sts (s.closeModule quoted moduleType) := by
  cases hd : s.draft with
  | none =>
    rw [closeModule_of_none quoted moduleType hd]
    exact h.diagnose quoted nofun
  | some d =>
    obtain ⟨e, -, hclose⟩ := closeModule_of_isSome quoted moduleType (by rw [hd]; rfl)
    have hdisabled : Marked sts (s.disabled quoted) := h.disabled hs
    rw [hclose]
    exact hdisabled.same rfl

theorem Marked.dropModule (h : Marked sts s) (options : Options) :
    Marked sts (s.dropModule options) := by
  unfold State.dropModule
  split
  · exact h
  · dsimp only
    split
    · exact Marked.diagnose (h.same rfl) _ nofun
    · exact h.same rfl

theorem Marked.sameButPile (h : Marked sts s) (ht : SameButPile quoted s t) : Marked sts t := by
  obtain ⟨u, hu, he⟩ := ht
  have hs : Marked sts u := by
    rcases hu with rfl | ⟨problem, hproblem, rfl⟩
    · exact h
    · exact h.diagnose quoted (by rintro cause rfl; simp at hproblem)
  rw [he]
  exact hs.same rfl

/-- **A step keeps the invariant.** -/
theorem marked_step (h : Marked sts s) (hs : Sound sts s) {st : Statement} (hst : st ∈ sts) :
    Marked sts (s.step options source st) := by
  have hm : Marked sts (s.moveTo st.lines) := h.same rfl
  have hsm : Sound sts (s.moveTo st.lines) := hs.moveTo st.lines
  by_cases hassign : ∃ a, st.content = .assignment a
  · obtain ⟨a, ha⟩ := hassign
    rw [step_of_assignment ha]
    exact hm.assignment hsm (List.mem_filterMap.mpr ⟨st, hst, by rw [ha]⟩)
  · have hcase := stepCase options source s st
    generalize s.step options source st = t at hcase
    cases hcase with
    | copies text hc => exact hm.comment (markedLine_copied text)
    | assigns a t hc ht => exact absurd ⟨a, hc⟩ hassign
    | opens hc => exact (hm.dropModule options).same rfl
    | builds moduleType hc => exact hm.closeModule hsm moduleType
    | begins holds condition hc => exact hm.sameButPile (sameButPile_beginConditional _ _)
    | turns hc => exact hm.sameButPile sameButPile_otherBranch
    | ends hc => exact hm.sameButPile sameButPile_endConditional
    | unsupported problem hc hproblem =>
      exact hm.diagnose _ (by rintro cause rfl; simp at hproblem)

/-- **A run keeps the invariant.** -/
theorem marked_run (options : Options) (source : Text) (sts : List Statement) :
    Marked sts (start.run options source sts) :=
  (run_keeps (P := fun s => Sound sts s ∧ Marked sts s)
    (fun _ _ hst hs => ⟨sound_step hs.1 hst, marked_step hs.2 hs.1 hst⟩)
    ⟨sound_start sts, fun _ hc => absurd hc List.not_mem_nil⟩).2

theorem Marked.finish (h : Marked sts s) (options : Options) :
    ∀ c ∈ (s.finish options).comments, ∀ line ∈ c.lines, MarkedLine sts line := by
  unfold State.finish
  split
  · exact h
  · have hline : Marked sts { s with line := s.line + 1 } := h.same rfl
    exact hline.dropModule options

end State

/-! ## Files -/

/-- **Comments stay in their lines.** Every line of a comment begins with two slashes. One with a
line feed in it is the message of a refusal for a reason in an assigned value, and an escaped line
break is the name of a reference there. If there is no such value, the comments change nothing of
the code that is printed. -/
theorem comments_contained (options : Options) (source : Text) :
    let sts := (Makefile.parse source).statements
    let file := toBlueprint options source sts
    (∀ c ∈ file.comments, ∀ line ∈ c.lines, commentMark <+: line ∧
      ('\n' ∈ line → ∃ a ∈ Makefile.assignments sts, a.target = none ∧ a.value.body.HoldsBreak ∧
        ∃ cause : Refusal, cause.StemsFrom a.value.body ∧ line = problemMark ++ cause.message)) ∧
    ((∀ a ∈ Makefile.assignments sts, a.target = none → ¬ a.value.body.HoldsBreak) →
      Text.codeLines file.print = Text.codeLines { file with comments := [] }.print) := by
  intro sts file
  have hlines : ∀ c ∈ file.comments, ∀ line ∈ c.lines, commentMark <+: line ∧
      ('\n' ∈ line → ∃ a ∈ Makefile.assignments sts, a.target = none ∧ a.value.body.HoldsBreak ∧
        ∃ cause : Refusal, cause.StemsFrom a.value.body ∧
          line = problemMark ++ cause.message) := by
    intro c hc line hline
    obtain ⟨hmark, hbroken⟩ := (State.marked_run options source sts).finish options c hc line hline
    refine ⟨hmark, fun hmem => ?_⟩
    obtain ⟨message, ⟨a, ha, htarget, hdump, cause, hstems, rfl⟩, heq⟩ := hbroken hmem
    exact ⟨a, ha, htarget, Makefile.holdsBreak_of_mem_assignments ha hdump, cause, hstems, heq⟩
  refine ⟨hlines, fun hnone => Blueprint.codeLines_print fun c hc line hline => ?_⟩
  obtain ⟨hmark, hbroken⟩ := hlines c hc line hline
  refine ⟨hmark, fun hmem => ?_⟩
  obtain ⟨a, ha, htarget, hholds, -⟩ := hbroken hmem
  exact hnone a ha htarget hholds

/-- A boolean that goes on behind an escaped line break, which a dollar sign takes for a name. -/
def brokenBool : Text := "LOCAL_CLANG := a$\\\nb\n"

/-- The refusal repeats the line feed, and what stands behind it is a line of its own. -/
theorem comments_contained_brokenBool :
    let sts := (Makefile.parse brokenBool).statements
    let file := toBlueprint {} brokenBool sts
    (∃ c ∈ file.comments, ∃ line ∈ c.lines, '\n' ∈ line ∧
      ∃ a ∈ Makefile.assignments sts, a.target = none ∧ a.value.body.HoldsBreak ∧
        ∃ cause : Refusal, cause.StemsFrom a.value.body ∧ line = problemMark ++ cause.message) ∧
    Text.codeLines file.print = [['b', '\n']] ∧
    Text.codeLines { file with comments := [] }.print = [] := by
  intro sts file
  have hfile : (∃ c ∈ file.comments, ∃ line ∈ c.lines, '\n' ∈ line) ∧
      Text.codeLines file.print = [['b', '\n']] ∧
      Text.codeLines { file with comments := [] }.print = [] := by decide +kernel
  obtain ⟨⟨c, hc, line, hline, hmem⟩, hcode⟩ := hfile
  obtain ⟨-, hcause⟩ := (comments_contained {} brokenBool).1 c hc line hline
  exact ⟨⟨c, hc, line, hline, hmem, hcause hmem⟩, hcode⟩

end MakeBlueprint.Conversion
