import Mathlib.Data.List.TakeWhile
import MakeBlueprint.Blueprint.Printer
import MakeBlueprint.Proofs.Reading.Blocks

/-!
# The lines of a printed file

A file is printed in whole lines. Those of its comments stand between the others and leave them as
they are, if every line of a comment begins with two slashes and is one line
(`Comment.Contained`).

* `Text.codeLines`: the lines of a text that are neither empty nor comments; `codeLines_append`:
  they are told line by line.
* `codeLines_printWithComments`, `codeLines_arrange`: comments inside a module and between
  definitions add none of them.
* `codeLines_print`: **the code of a file is that of the file without its comments**.
-/

namespace MakeBlueprint.Text

variable {s t : Text}

/-- Whether a line is code: behind its indentation it is neither empty nor a comment. -/
def isCode (line : Text) : Bool :=
  match line.dropWhile (· == ' ') with
  | [] | ['\n'] | '/' :: '/' :: _ => false
  | _ => true

/-- The lines of code in a text, each with the line feed that ends it. -/
def codeLines (t : Text) : List Text := (linesWithBreaks t).filter isCode

/-- The text consists of whole lines. -/
def IsLines (t : Text) : Prop := t = [] ∨ EndsWithBreak t

theorem isLines_nil : IsLines [] := .inl rfl

theorem isLines_append (s : Text) (h : EndsWithBreak t) : IsLines (s ++ t) := by
  refine .inr ?_
  unfold EndsWithBreak at h ⊢
  rw [List.getLast?_append, h]
  rfl

theorem IsLines.append (hs : IsLines s) (ht : IsLines t) : IsLines (s ++ t) := by
  rcases ht with rfl | ht
  · rwa [List.append_nil]
  · exact isLines_append s ht

theorem isLines_flatMap {α : Type} {f : α → Text} {as : List α} (h : ∀ a ∈ as, IsLines (f a)) :
    IsLines (as.flatMap f) := by
  induction as with
  | nil => exact isLines_nil
  | cons a as ih =>
    rw [List.flatMap_cons]
    exact (h a List.mem_cons_self).append (ih fun b hb => h b (List.mem_cons_of_mem a hb))

/-- **Behind whole lines, code begins anew.** -/
theorem codeLines_append (hs : IsLines s) (t : Text) :
    codeLines (s ++ t) = codeLines s ++ codeLines t := by
  rcases hs with rfl | hs
  · rfl
  · unfold codeLines
    rw [linesWithBreaks_append hs, List.filter_append]

theorem codeLines_flatMap {α : Type} {f : α → Text} {as : List α} (h : ∀ a ∈ as, IsLines (f a)) :
    codeLines (as.flatMap f) = as.flatMap fun a => codeLines (f a) := by
  induction as with
  | nil => rfl
  | cons a as ih =>
    rw [List.flatMap_cons, codeLines_append (h a List.mem_cons_self),
      ih fun b hb => h b (List.mem_cons_of_mem a hb), List.flatMap_cons]

end MakeBlueprint.Text

namespace MakeBlueprint.Blueprint

open Text (IsLines codeLines)

/-- The start of a comment line. -/
def commentMark : Text := "//"

/-- **A comment that stays in its lines**: each begins with two slashes, and no line feed is in
it. -/
def Comment.Contained (c : Comment) : Prop := ∀ line ∈ c.lines, commentMark <+: line ∧ '\n' ∉ line

variable {cs : List Comment} {depth : Nat}

/-! ## Comments -/

theorem isLines_comment (c : Comment) : IsLines (c.print depth) :=
  Text.isLines_flatMap fun _ _ => Text.isLines_append _ rfl

/-- A line of a comment is no code, however far it is indented. -/
theorem codeLines_commentLine {line : Text} (hmark : commentMark <+: line) (hbreak : '\n' ∉ line) :
    codeLines (indentation depth ++ line ++ ['\n']) = [] := by
  obtain ⟨rest, rfl⟩ := hmark
  have hindented : '\n' ∉ indentation depth ++ (commentMark ++ rest) := by
    rw [List.mem_append, not_or]
    exact ⟨fun hmem => absurd (List.eq_of_mem_replicate hmem) (by decide), hbreak⟩
  have hskip : ((indentation depth ++ (commentMark ++ rest) ++ ['\n']).dropWhile (· == ' ')) =
      commentMark ++ rest ++ ['\n'] := by
    rw [List.append_assoc, List.dropWhile_append_of_pos]
    · rfl
    · exact fun c hc => beq_iff_eq.mpr (List.eq_of_mem_replicate hc)
  have hcomment : Text.isCode (indentation depth ++ (commentMark ++ rest) ++ ['\n']) = false := by
    unfold Text.isCode
    rw [hskip]
    rfl
  unfold codeLines
  rw [Text.linesWithBreaks_line hindented, List.filter_cons_of_neg (by rw [hcomment]; decide)]
  rfl

theorem codeLines_comment {c : Comment} (h : c.Contained) : codeLines (c.print depth) = [] := by
  have hlines : ∀ line ∈ c.lines, IsLines (indentation depth ++ line ++ ['\n']) := fun _ _ =>
    Text.isLines_append _ rfl
  unfold Comment.print
  rw [Text.codeLines_flatMap hlines, List.flatMap_eq_nil_iff]
  exact fun line hline => codeLines_commentLine (h line hline).1 (h line hline).2

/-- Comments are no code. -/
theorem codeLines_comments (h : ∀ c ∈ cs, c.Contained) :
    codeLines (cs.flatMap (Comment.print depth)) = [] := by
  rw [Text.codeLines_flatMap fun c _ => isLines_comment c, List.flatMap_eq_nil_iff]
  exact fun c hc => codeLines_comment (h c hc)

/-! ## Modules -/

theorem isLines_property (p : Property) : IsLines (p.print depth) := by
  obtain ⟨name, value, line⟩ := p
  exact Text.isLines_append _ rfl

theorem isLines_printWithComments (ps : List Property) (cs : List Comment) :
    IsLines (printWithComments ps cs) := by
  induction ps generalizing cs with
  | nil => exact Text.isLines_flatMap fun c _ => isLines_comment c
  | cons p ps ih =>
    exact ((Text.isLines_flatMap fun c _ => isLines_comment c).append (isLines_property p)).append
      (ih _)

/-- **Comments inside a module add no code.** -/
theorem codeLines_printWithComments (ps : List Property) (h : ∀ c ∈ cs, c.Contained) :
    codeLines (printWithComments ps cs) = codeLines (printWithComments ps []) := by
  induction ps generalizing cs with
  | nil => exact codeLines_comments h
  | cons p ps ih =>
    have habove : ∀ above : Comment → Bool,
        codeLines ((cs.takeWhile above).flatMap (Comment.print 1)) = [] := fun above =>
      codeLines_comments fun c hc => h c ((List.takeWhile_prefix above).subset hc)
    have hlines : ∀ above : Comment → Bool,
        IsLines ((cs.takeWhile above).flatMap (Comment.print 1)) := fun above =>
      Text.isLines_flatMap fun c _ => isLines_comment c
    rw [printWithComments, printWithComments,
      Text.codeLines_append ((hlines _).append (isLines_property p)),
      Text.codeLines_append (hlines _), habove,
      ih fun c hc => h c ((List.dropWhile_suffix _).subset hc)]
    exact (Text.codeLines_append (isLines_property p) (printWithComments ps [])).symm

theorem isLines_module (m : Module) (cs : List Comment) : IsLines (m.print cs) :=
  Text.isLines_append _ rfl

theorem codeLines_module (m : Module) (h : ∀ c ∈ cs, c.Contained) :
    codeLines (m.print cs) = codeLines (m.print []) := by
  have hheader : IsLines (m.moduleType ++ [' ', '{', '\n']) := Text.isLines_append _ rfl
  unfold Module.print
  rw [Text.codeLines_append (hheader.append (isLines_printWithComments _ _)),
    Text.codeLines_append hheader, codeLines_printWithComments _ h,
    Text.codeLines_append (hheader.append (isLines_printWithComments _ _)),
    Text.codeLines_append hheader]

/-! ## Files -/

theorem isLines_item (item : Item) : IsLines item.print := by
  cases item with
  | comment c => exact isLines_comment c
  | assignment a => exact Text.isLines_append _ rfl
  | module m cs => exact isLines_module m cs

theorem codeLines_printAfter (before : Item) (items : List Item) :
    codeLines (Item.printAfter before items) = items.flatMap fun item => codeLines item.print := by
  induction items generalizing before with
  | nil => rfl
  | cons item items ih =>
    rw [Item.printAfter, List.flatMap_cons, ← ih item]
    split
    · have hempty : IsLines ['\n'] := .inr rfl
      rw [List.append_assoc, Text.codeLines_append hempty, Text.codeLines_append (isLines_item item)]
      rfl
    · exact Text.codeLines_append (isLines_item item) _

/-- The code of items is that of each of them. -/
theorem codeLines_printAll (items : List Item) :
    codeLines (Item.printAll items) = items.flatMap fun item => codeLines item.print := by
  cases items with
  | nil => rfl
  | cons item items =>
    rw [Item.printAll, Text.codeLines_append (isLines_item item), codeLines_printAfter,
      List.flatMap_cons]

theorem codeLines_commentItems (h : ∀ c ∈ cs, c.Contained) :
    (cs.map Item.comment).flatMap (fun item => codeLines item.print) = [] := by
  rw [List.flatMap_eq_nil_iff]
  intro item hitem
  obtain ⟨c, hc, rfl⟩ := List.mem_map.mp hitem
  exact codeLines_comment (h c hc)

/-- **Comments between definitions add no code.** -/
theorem codeLines_arrange (ds : List Definition) (h : ∀ c ∈ cs, c.Contained) :
    (arrange ds cs).flatMap (fun item => codeLines item.print) =
      (arrange ds []).flatMap fun item => codeLines item.print := by
  induction ds generalizing cs with
  | nil => exact codeLines_commentItems h
  | cons d ds ih =>
    have habove : ∀ p : Comment → Bool, ∀ c ∈ cs.takeWhile p, c.Contained := fun p c hc =>
      h c ((List.takeWhile_prefix p).subset hc)
    have hrest : ∀ p : Comment → Bool, ∀ c ∈ cs.dropWhile p, c.Contained := fun p c hc =>
      h c ((List.dropWhile_suffix p).subset hc)
    unfold arrange
    dsimp only
    rw [List.flatMap_append, codeLines_commentItems (habove _), List.nil_append]
    cases d with
    | assignment a =>
      simp only [List.takeWhile_nil, List.dropWhile_nil, List.map_nil, List.nil_append]
      rw [List.flatMap_cons, List.flatMap_cons, ih (hrest _)]
    | module m =>
      have hinside : ∀ p q : Comment → Bool, ∀ c ∈ (cs.dropWhile p).takeWhile q, c.Contained :=
        fun p q c hc => hrest p c ((List.takeWhile_prefix q).subset hc)
      have hbehind : ∀ p q : Comment → Bool, ∀ c ∈ (cs.dropWhile p).dropWhile q, c.Contained :=
        fun p q c hc => hrest p c ((List.dropWhile_suffix q).subset hc)
      simp only [List.takeWhile_nil, List.dropWhile_nil, List.map_nil, List.nil_append]
      rw [List.flatMap_cons, List.flatMap_cons, ih (hbehind _ _)]
      exact congrArg (· ++ _) (codeLines_module m (hinside _ _))

/-- **The code of a file is that of the file without its comments.** -/
theorem codeLines_print {f : File} (h : ∀ c ∈ f.comments, c.Contained) :
    codeLines f.print = codeLines { f with comments := [] }.print := by
  have hsorted : ∀ c ∈ f.sortedComments, c.Contained := fun c hc =>
    h c (List.mem_mergeSort.mp hc)
  have hnone : ({ f with comments := [] } : File).sortedComments = [] := List.mergeSort_nil
  unfold File.print
  rw [codeLines_printAll, codeLines_printAll, codeLines_arrange _ hsorted, hnone]

end MakeBlueprint.Blueprint
