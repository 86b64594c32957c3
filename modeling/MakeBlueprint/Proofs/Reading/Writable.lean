import Mathlib.Data.List.Basic
import MakeBlueprint.Proofs.Reading.Blocks
import MakeBlueprint.Proofs.Reading.Phrases
import MakeBlueprint.Proofs.Reading.Trimming

/-!
# Statements that can be written

`Content.Writable` says of a statement that its makefile text stands for it. It asks for phrases
that fit their places and are trimmed as the reader trims them, and for a beginning of the line that
does not look like a directive.

* `FindsWritable`: what a reader adds can be written. It holds of all readers of plain texts that
  find no fault.
* `writable_of_mem_parse`: **every statement of a plain text without faults can be written**.
-/

namespace MakeBlueprint.Makefile

open Text (IsPlain)
open Token (lex kindOf textOf)
open Phrase (Body)

/-- A character that is not skipped in front of a statement. -/
def Visible (x : Char) : Prop := (kindOf x).isBlank = false ∧ kindOf x ≠ .newline

instance (x : Char) : Decidable (Visible x) := inferInstanceAs (Decidable (_ ∧ _))

/-- **The beginning of a line that is no directive.** The line goes on with some text. -/
def StartsLine (t : Text) : Prop :=
  ∃ u, wordKeyword? (t ++ u) = none ∧ ∀ x ∈ (t ++ u).head?, Visible x

namespace Phrase.Body

/-- The name of a variable or the target of a rule, at the start of a line. -/
structure IsHead (b : Body) : Prop where
  fits : Fits .head 0 b 0
  startsLine : StartsLine b.dump
  trimEnd : b.trimEnd = b

/-- Prerequisites, or what stands for the name of a variable behind a target. -/
structure IsPieces (b : Body) : Prop where
  fits : FitsPieces b
  head : ∀ x ∈ b.dump.head?, (kindOf x).isBlank = false
  trimEnd : b.trimEnd = b

/-- The value of an assignment. -/
structure IsValue (b : Body) : Prop where
  fits : Fits .line 0 b 0
  leadingWhite : b.leadingWhite = []
  trimEnd : b.trimEnd = b

/-- The arguments of a directive on one line. -/
structure IsArguments (b : Body) : Prop where
  fits : Fits .line 0 b 0
  head : ∀ x ∈ b.dump.head?, (kindOf x).isBlank = false ∧ (kindOf x).deniesDirective = false
  trimEnd : b.trimEnd = b

end Phrase.Body

/-- The name and the lines of a definition block, without the line that ends it. -/
structure IsBlock (t : Text) : Prop where
  plain : IsPlain t
  head : ∀ x ∈ t.head?, (kindOf x).isBlank = false ∧ (kindOf x).deniesDirective = false
  lines : ∃ first before, Text.linesWithBreaks (t ++ ['\n']) = first :: before ∧
    ∀ l ∈ before, isEndLine l = false

/-- **A statement that its makefile text stands for.** -/
inductive Content.Writable : Content → Prop
  | assignment {name value : Phrase} {op : AssignOp} (hname : name.body.IsHead)
      (hne : name.body ≠ .nil) (hvalue : value.body.IsValue) :
      Writable (.assignment ⟨name, op, value, none⟩)
  /-- A mark at the end of the name would be read as part of the operator. -/
  | targeted {target name value : Phrase} {op : AssignOp} (htarget : target.body.IsHead)
      (hname : name.body.IsPieces) (hne : name.body ≠ .nil)
      (hmark : op = .recursive → name.body.endsWith '+' = false ∧ name.body.endsWith '?' = false)
      (hvalue : value.body.IsValue) : Writable (.assignment ⟨name, op, value, some target⟩)
  | rule {target prerequisites : Phrase} {recipe : Text} (htarget : target.body.IsHead)
      (hprerequisites : prerequisites.body.IsPieces) (hrecipe : IsPlain recipe)
      (hlast : recipe.getLast? ≠ some '\n') : Writable (.rule ⟨target, prerequisites, recipe⟩)
  | reference {r : Reference} (hfits : Fits .head 0 (.ofReference r) 0) : Writable (.reference r)
  | alone {keyword : Keyword} {pos : Nat} (hkeyword : keyword ∈ [.elseBranch, .endIf, .endDefine]) :
      Writable (.directive ⟨keyword, ⟨pos, .nil⟩⟩)
  | directive {keyword : Keyword} {arguments : Phrase}
      (hkeyword : keyword ∉ [.define, .elseBranch, .endIf, .endDefine])
      (harguments : arguments.body.IsArguments) : Writable (.directive ⟨keyword, arguments⟩)
  | define {pos : Nat} {text : Text} (hblock : IsBlock text) :
      Writable (.directive ⟨.define, .ofText pos text⟩)

/-! ## Parts of phrases -/

/-- What is left of an assigned name is its beginning. -/
theorem exists_append_takeMark (op : AssignOp) (name : Phrase) :
    ∃ w, (op.takeMark name).2.trimEnd.body ++ w = name.body := by
  have hdropped : ∃ w, name.dropLast.trimEnd.body ++ w = name.body := by
    obtain ⟨v, hv⟩ := name.body.dropLast.exists_append_trimEnd
    obtain ⟨w, hw⟩ := name.body.exists_append_dropLast
    refine ⟨v ++ w, ?_⟩
    rw [← Body.append_assoc]
    exact (congrArg (· ++ w) hv).trans hw
  unfold AssignOp.takeMark
  split
  · exact hdropped
  · split
    · exact hdropped
    · exact name.body.exists_append_trimEnd

theorem takeMark_recursive {op : AssignOp} {name : Phrase}
    (h : (op.takeMark name).1 = .recursive) :
    (op.takeMark name).2 = name ∧ name.body.endsWith '+' = false ∧
      name.body.endsWith '?' = false := by
  unfold AssignOp.takeMark at h ⊢
  split at h
  · cases h
  · next hplus =>
    split at h
    · cases h
    · next hquestion =>
      have h : op = .recursive := h
      rw [if_neg hplus, if_neg hquestion]
      exact ⟨rfl, by simpa [h] using hplus, by simpa [h] using hquestion⟩

namespace Cursor

variable {c d mid : Cursor} {s u : Text} {keyword : Keyword} {head body : Body}

theorem isHead_of_fits {w : Body} (hfits : Fits .head 0 (body ++ w) 0) (htrim : body.trimEnd = body)
    (hkeyword : wordKeyword? ((body ++ w).dump ++ u) = none)
    (hvisible : ∀ x ∈ ((body ++ w).dump ++ u).head?, Visible x) : body.IsHead := by
  obtain ⟨depth, hbody, -⟩ := hfits.cut
  refine ⟨hbody.depth_head ▸ hbody, ⟨w.dump ++ u, ?_⟩, htrim⟩
  rw [Body.dump_append, List.append_assoc] at hkeyword hvisible
  exact ⟨hkeyword, hvisible⟩

/-! ## What a reader finds -/

/-- The cursor stands in front of a plain text. -/
def InPlain (c : Cursor) : Prop := ∃ s, c.rest = lex s ∧ IsPlain s

/-- **What a reader finds in a plain text can be written**, and it stops in a plain text. -/
structure FindsWritable (c d : Cursor) : Prop where
  inPlain : d.InPlain
  comments : d.comments = c.comments
  statements : ∃ ss, d.statements = c.statements ++ ss ∧ ∀ s ∈ ss, s.1.Writable

theorem findsWritable_upTo (c : Cursor) (v : Text) (hu : IsPlain u) :
    FindsWritable c (c.upTo v u) :=
  ⟨⟨u, rfl, hu⟩, rfl, [], (List.append_nil _).symm, fun _ h => absurd h List.not_mem_nil⟩

theorem FindsWritable.refl (hc : c.InPlain) : FindsWritable c c :=
  ⟨hc, rfl, [], (List.append_nil _).symm, fun _ h => absurd h List.not_mem_nil⟩

theorem FindsWritable.trans (h : FindsWritable c mid) (h' : FindsWritable mid d) :
    FindsWritable c d := by
  obtain ⟨ss, hss, hwritable⟩ := h.statements
  obtain ⟨ss', hss', hwritable'⟩ := h'.statements
  refine ⟨h'.inPlain, h'.comments.trans h.comments, ss ++ ss', ?_, ?_⟩
  · rw [hss', hss, List.append_assoc]
  · exact List.forall_mem_append.mpr ⟨hwritable, hwritable'⟩

theorem FindsWritable.record {content : Content} (h : FindsWritable c d)
    (hcontent : content.Writable) (start : Nat) : FindsWritable c (d.record content start) := by
  obtain ⟨ss, hss, hwritable⟩ := h.statements
  refine ⟨h.inPlain, h.comments, ss ++ [(content, d.spanFrom start)], ?_, ?_⟩
  · rw [← List.append_assoc, ← hss]
    rfl
  · exact List.forall_mem_append.mpr ⟨hwritable, List.forall_mem_singleton.mpr hcontent⟩

theorem findsWritable_advance (hc : c.InPlain) (n : Nat) : FindsWritable c (c.advance n) := by
  obtain ⟨s, hs, hplain⟩ := hc
  obtain ⟨v, u, rfl, heq⟩ := exists_advance_eq hs hplain n
  rw [heq]
  exact findsWritable_upTo c v (Text.isPlain_append.mp hplain).2

/-- Behind blanks is a text that begins with no blank. -/
theorem findsWritable_skipBlanks (hc : c.rest = lex s) (hplain : IsPlain s) :
    FindsWritable c c.skipBlanks ∧ ∃ u, c.skipBlanks.rest = lex u ∧ IsPlain u ∧
      u = s.dropWhile fun x => (kindOf x).isBlank := by
  have hblanks : c.skipBlanks =
      c.upTo (s.takeWhile fun x => (kindOf x).isBlank) (s.dropWhile fun x => (kindOf x).isBlank) :=
    skipWhile_eq rfl hc hplain
  have hplainBehind := Text.isPlain_dropWhile hplain fun x => (kindOf x).isBlank
  exact ⟨hblanks ▸ findsWritable_upTo c _ hplainBehind, _, congrArg Cursor.rest hblanks,
    hplainBehind, rfl⟩

/-! ## Directives -/

/-- The text of a directive: its keyword, and what does not deny it. -/
theorem exists_of_keyword?_eq (hc : c.rest = lex s) (hplain : IsPlain s)
    (h : c.keyword? = some keyword) :
    ∃ u, s = keyword.text ++ u ∧ c.advance 1 = c.upTo keyword.text u ∧
      ∀ x ∈ (u.dropWhile fun x => (kindOf x).isBlank).head?,
        (kindOf x).deniesDirective = false := by
  obtain ⟨ts, hcons⟩ := exists_of_keyword h
  obtain ⟨u, hs, rfl⟩ := Token.exists_of_lex_cons hplain (hc.symm.trans hcons)
  have hs : s = keyword.text ++ u := hs
  subst hs
  have htext : textOf [Token.mk .identifier keyword.text] = keyword.text := List.append_nil _
  have hone : c.rest = [Token.mk .identifier keyword.text] ++ lex u := hcons
  have hplainRest := (Text.isPlain_append.mp hplain).2
  refine ⟨u, rfl, (advance_tokens hone).trans (by rw [htext]), fun x hx => ?_⟩
  obtain ⟨v, hv⟩ := List.head?_eq_some_iff.mp hx
  have hplainBehind : IsPlain (x :: v) := hv ▸ Text.isPlain_dropWhile hplainRest _
  obtain ⟨w, ts, hlex⟩ := Token.exists_lex_cons hplainBehind
  unfold keyword? at h
  rw [hcons] at h
  dsimp only at h
  rw [(Token.skip_lex (rfl : Token.Kind.isBlank .identifier = false) hplainRest).2, hv, hlex] at h
  dsimp only [List.head?_cons] at h
  split at h
  · cases h
  · next hdenies => simpa using hdenies

theorem mem_head?_trimEnd {x : Char} (h : x ∈ body.trimEnd.dump.head?) :
    x ∈ (body.dump ++ u).head? := by
  obtain ⟨w, hw⟩ := body.exists_append_trimEnd
  rw [← hw, Body.dump_append]
  exact List.mem_head?_append_of_mem_head? (List.mem_head?_append_of_mem_head? h)

/-- The name and the lines of a definition block. -/
theorem isBlock_of_blockEnd? {text : Text} {size : Nat} (hplain : IsPlain s)
    (hhead : ∀ x ∈ s.head?, (kindOf x).isBlank = false ∧ (kindOf x).deniesDirective = false)
    (h : blockEnd? s = some (text, size)) : IsBlock (Text.withoutBreak text) := by
  unfold blockEnd? at h
  split at h
  · cases h
  · next first lines hlines =>
    obtain ⟨⟨before, last⟩, hsplit, heq⟩ := Option.map_eq_some_iff.mp h
    cases heq
    obtain ⟨after, rfl⟩ := exists_of_splitAtEndLine? hsplit
    have hcut : Text.linesWithBreaks s = (first :: before) ++ last :: after := hlines
    have hflat : s = (first :: before).flatten ++ (last :: after).flatten := by
      rw [← List.flatten_append, ← hcut, Text.flatten_linesWithBreaks]
    have hblock : Text.linesWithBreaks (first ++ before.flatten) = first :: before :=
      Text.linesWithBreaks_flatten hcut (List.cons_ne_nil _ _)
    obtain ⟨body, hbody⟩ := List.getLast?_eq_some_iff.mp
      (Text.endsWithBreak_flatten hcut (List.cons_ne_nil _ _) (List.cons_ne_nil _ _))
    have hbody : first ++ before.flatten = body ++ ['\n'] := hbody
    rw [List.flatten_cons, hbody] at hflat
    subst hflat
    have hplainBody := (Text.isPlain_append.mp (Text.isPlain_append.mp hplain).1).1
    have hreturn : '\r' ∉ body := fun hr => (hplainBody _ hr).2.2 rfl
    rw [hbody, Text.withoutBreak_line hreturn]
    refine ⟨hplainBody, fun x hx => hhead x ?_, first, before, ?_,
      notEndLine_of_splitAtEndLine? hsplit⟩
    · exact List.mem_head?_append_of_mem_head? (List.mem_head?_append_of_mem_head? hx)
    · rw [← hbody, hblock]

/-- A phrase up to the end of the line is read in plain text. -/
theorem exists_of_phrase_line (hc : c.rest = lex s) (hplain : IsPlain s)
    (hd : (c.phrase .line).2.faults = []) :
    ∃ u, s = (c.phrase .line).1.body.dump ++ u ∧ FindsWritable c (c.phrase .line).2 ∧
      Fits .line 0 (c.phrase .line).1.body 0 := by
  obtain ⟨depth, u, hs, hbehind, hfits, -⟩ := (reads_phrase .line c).fits hc hplain hd
  rw [hs] at hplain
  refine ⟨u, hs, ?_, hfits.depth_line ▸ hfits⟩
  rw [hbehind]
  exact findsWritable_upTo c _ (Text.isPlain_append.mp hplain).2

/-- The arguments of a definition. -/
theorem writable_defineArguments (hc : c.skipBlanks.rest = lex u) (hplain : IsPlain u)
    (hhead : ∀ x ∈ u.head?, (kindOf x).isBlank = false ∧ (kindOf x).deniesDirective = false)
    (hd : c.defineArguments.2.faults = []) :
    FindsWritable c.skipBlanks c.defineArguments.2 ∧
      (Content.directive ⟨.define, c.defineArguments.1⟩).Writable := by
  have htext : textOf c.skipBlanks.rest = u := by rw [hc, Token.textOf_lex]
  unfold defineArguments at hd ⊢
  dsimp only at hd ⊢
  rw [htext] at hd ⊢
  cases hend : blockEnd? u with
  | none =>
    rw [hend] at hd
    exact absurd hd (mt (ahead_advance _ _).faults_nil (faults_report_ne_nil _ _ _))
  | some block =>
    obtain ⟨text, size⟩ := block
    exact ⟨findsWritable_advance ⟨u, hc, hplain⟩ _,
      .define (isBlock_of_blockEnd? hplain hhead hend)⟩

/-- The arguments of a directive on one line. -/
theorem isArguments_phrase (hc : c.rest = lex u) (hplain : IsPlain u)
    (hhead : ∀ x ∈ u.head?, (kindOf x).isBlank = false ∧ (kindOf x).deniesDirective = false)
    (hd : (c.phrase .line).2.faults = []) :
    FindsWritable c (c.phrase .line).2 ∧ (c.phrase .line).1.trimEnd.body.IsArguments := by
  obtain ⟨v, rfl, hfinds, hfits⟩ := exists_of_phrase_line hc hplain hd
  refine ⟨hfinds, ?_, fun x hx => hhead x (mem_head?_trimEnd hx), Body.trimEnd_trimEnd _⟩
  obtain ⟨w, hw⟩ := (c.phrase .line).1.body.exists_append_trimEnd
  rw [← hw] at hfits
  exact hfits.cut_line.1

theorem directiveArguments_of_mem (h : keyword ∈ [.elseBranch, .endIf, .endDefine]) (c : Cursor) :
    c.directiveArguments keyword = (⟨c.offset, .nil⟩, c) := by
  simp only [List.mem_cons, List.not_mem_nil, or_false] at h
  rcases h with rfl | rfl | rfl <;> rfl

theorem directiveArguments_of_not_mem (h : keyword ∉ [.define, .elseBranch, .endIf, .endDefine])
    (c : Cursor) : c.directiveArguments keyword =
      ((c.skipBlanks.phrase .line).1.trimEnd, (c.skipBlanks.phrase .line).2) := by
  unfold directiveArguments
  cases keyword <;> first | rfl | simp at h

/-- **What a directive reads behind its keyword.** -/
theorem writable_directiveArguments (hc : c.rest = lex s) (hplain : IsPlain s)
    (hdenies : ∀ x ∈ (s.dropWhile fun x => (kindOf x).isBlank).head?,
      (kindOf x).deniesDirective = false)
    (hd : (c.directiveArguments keyword).2.faults = []) :
    FindsWritable c (c.directiveArguments keyword).2 ∧
      (Content.directive ⟨keyword, (c.directiveArguments keyword).1⟩).Writable := by
  obtain ⟨hskip, u, hu, hplainBehind, hblanks⟩ := findsWritable_skipBlanks hc hplain
  have hhead : ∀ x ∈ u.head?, (kindOf x).isBlank = false ∧ (kindOf x).deniesDirective = false := by
    rw [hblanks]
    exact fun x hx => ⟨Text.of_mem_head?_dropWhile hx, hdenies x hx⟩
  by_cases halone : keyword ∈ [.elseBranch, .endIf, .endDefine]
  · rw [directiveArguments_of_mem halone]
    exact ⟨.refl ⟨s, hc, hplain⟩, .alone halone⟩
  · by_cases hdefine : keyword = .define
    · subst hdefine
      obtain ⟨hfinds, hwritable⟩ := writable_defineArguments hu hplainBehind hhead hd
      exact ⟨hskip.trans hfinds, hwritable⟩
    · have hline : keyword ∉ [.define, .elseBranch, .endIf, .endDefine] := by
        rw [List.mem_cons, not_or]
        exact ⟨hdefine, halone⟩
      rw [directiveArguments_of_not_mem hline] at hd ⊢
      obtain ⟨hfinds, harguments⟩ := isArguments_phrase hu hplainBehind hhead hd
      exact ⟨hskip.trans hfinds, .directive hline harguments⟩

theorem findsWritable_directive (hc : c.InPlain) (hkeyword : c.keyword? = some keyword)
    (hd : (c.directive keyword).faults = []) : FindsWritable c (c.directive keyword) := by
  obtain ⟨s, hs, hplain⟩ := hc
  obtain ⟨u, rfl, hone, hdenies⟩ := exists_of_keyword?_eq hs hplain hkeyword
  have hplainRest := (Text.isPlain_append.mp hplain).2
  obtain ⟨hfinds, hwritable⟩ := writable_directiveArguments (congrArg Cursor.rest hone)
    hplainRest hdenies hd
  have hword : FindsWritable c (c.advance 1) := hone ▸ findsWritable_upTo c _ hplainRest
  exact (hword.trans hfinds).record hwritable _

/-! ## Assignments -/

theorem isValue_trim (h : Fits .line 0 body 0) : body.trimStart.trimEnd.IsValue := by
  rw [← body.leadingWhite_append_trimStart] at h
  have hbehind := h.cut_line.2
  refine ⟨?_, Body.leadingWhite_trimEnd body.leadingWhite_trimStart, Body.trimEnd_trimEnd _⟩
  obtain ⟨w, hw⟩ := body.trimStart.exists_append_trimEnd
  rw [← hw] at hbehind
  exact hbehind.cut_line.1

/-- An assignment can be written if its name can, whatever its value is. -/
theorem findsWritable_assignment {op : AssignOp} {target : Option Phrase} {name : Phrase}
    (hc : c.InPlain)
    (hwritable : ∀ value : Phrase, value.body.IsValue → (op.takeMark name).2.trimEnd.body ≠ .nil →
      (Content.assignment
        ⟨(op.takeMark name).2.trimEnd, (op.takeMark name).1, value, target⟩).Writable)
    (hd : (c.assignment op target name).faults = []) :
    FindsWritable c (c.assignment op target name) := by
  have hequals := findsWritable_advance hc 1
  obtain ⟨u, hu, hplain⟩ := hequals.inPlain
  have hvalue := (ahead_assignment_value op target name c).faults_nil hd
  obtain ⟨w, -, hfinds, hfits⟩ := exists_of_phrase_line hu hplain hvalue
  unfold assignment at hd ⊢
  dsimp only at hd ⊢
  split at hd
  · exact absurd hd (faults_report_ne_nil _ _ _)
  · next hempty =>
    rw [if_neg hempty]
    have hne : (op.takeMark name).2.trimEnd.body ≠ .nil := by simpa [Phrase.isEmpty] using hempty
    exact (hequals.trans hfinds).record (hwritable _ (isValue_trim hfits) hne) _

/-! ## Recipes -/

theorem findsWritable_recipeLine (hc : c.InPlain) :
    FindsWritable c c.recipeLine.2 ∧ IsPlain c.recipeLine.1 := by
  have hline : IsPlain (textOf c.line) := by
    obtain ⟨s, hs, hplain⟩ := hc
    have hsplit : textOf c.line ++ textOf (c.rest.dropWhile fun t => t.kind != .newline) = s := by
      unfold line
      rw [← Token.textOf_append, List.takeWhile_append_dropWhile, hs, Token.textOf_lex]
    rw [← hsplit] at hplain
    exact (Text.isPlain_append.mp hplain).1
  have hbreak : IsPlain ['\n'] := List.forall_mem_singleton.mpr (by decide)
  have hskip := findsWritable_advance hc c.line.length
  refine ⟨hskip.trans (findsWritable_advance hskip.inPlain 1), ?_⟩
  unfold recipeLine
  dsimp only
  split
  · exact hline
  · exact Text.isPlain_append.mpr ⟨hline, hbreak⟩

theorem findsWritable_skipBreak (hc : c.InPlain) : FindsWritable c c.skipBreak := by
  unfold skipBreak
  split
  · exact findsWritable_advance hc 1
  · exact .refl hc

theorem ReadsRecipe.findsWritable {lines : Text} (h : ReadsRecipe c lines d) (hc : c.InPlain)
    (hd : d.faults = []) : FindsWritable c d ∧ IsPlain lines := by
  induction h with
  | @line c d lines htab hrest ih =>
    have htabs := findsWritable_advance hc (c.breaks + 1)
    obtain ⟨hline, hplainText⟩ := findsWritable_recipeLine htabs.inPlain
    obtain ⟨hlines, hplainLines⟩ := ih hline.inPlain hd
    exact ⟨(htabs.trans hline).trans hlines, Text.isPlain_append.mpr ⟨hplainText, hplainLines⟩⟩
  | @directive c d lines keyword htab hkeyword hrest ih =>
    have hdirective := ((ahead_skipBreak _).trans hrest.ahead).faults_nil hd
    have hfinds := findsWritable_directive hc hkeyword hdirective
    have hskip := findsWritable_skipBreak hfinds.inPlain
    obtain ⟨hlines, hplainLines⟩ := ih hskip.inPlain hd
    exact ⟨(hfinds.trans hskip).trans hlines, hplainLines⟩
  | stop htab hkeyword => exact ⟨.refl hc, Text.isPlain_nil⟩

/-- The recipe of a rule ends with no line break. -/
theorem isPlain_recipeText {first lines : Text} (hfirst : IsPlain first) (hlines : IsPlain lines) :
    IsPlain (recipeText first lines) ∧ (recipeText first lines).getLast? ≠ some '\n' := by
  unfold recipeText Text.dropEndWhile
  constructor
  · intro x hx
    have hmem := (List.dropWhile_sublist _).subset (List.mem_reverse.mp hx)
    exact Text.isPlain_append.mpr ⟨hfirst, hlines⟩ x (List.mem_reverse.mp hmem)
  · rw [List.getLast?_reverse]
    intro hhead
    have hne := Text.of_mem_head?_dropWhile hhead
    cases hne

theorem findsWritable_recipe {target prerequisites : Phrase} {firstLine : Bool}
    (hc : c.InPlain) (htarget : target.body.IsHead) (hprerequisites : prerequisites.body.IsPieces)
    (hd : (c.recipe target prerequisites firstLine).faults = []) :
    FindsWritable c (c.recipe target prerequisites firstLine) := by
  obtain ⟨lines, d, hlines, heq⟩ := exists_recipe target prerequisites firstLine c
  rw [heq] at hd ⊢
  have hstart : FindsWritable c (recipeStart firstLine c).2 ∧
      IsPlain (recipeStart firstLine c).1 := by
    unfold recipeStart
    split
    · exact findsWritable_recipeLine hc
    · exact ⟨.refl hc, Text.isPlain_nil⟩
  obtain ⟨hfinds, hfirst⟩ := hstart
  obtain ⟨hbehind, hplainLines⟩ := hlines.findsWritable hfinds.inPlain hd
  obtain ⟨hplainText, hlast⟩ := isPlain_recipeText hfirst hplainLines
  -- The rule stands in front of what was found in its recipe.
  refine hfinds.trans ⟨hbehind.inPlain, hbehind.comments, _, rfl, List.forall_mem_cons.mpr ⟨?_, ?_⟩⟩
  · exact .rule htarget hprerequisites hplainText hlast
  · obtain ⟨ss, hss, hwritable⟩ := hbehind.statements
    rw [hss]
    exact hwritable

/-! ## Rules -/

theorem InPlain.ne_hash (hc : c.InPlain) : c.kindAt 0 ≠ some .hash := by
  intro hhash
  obtain ⟨s, hs, hplain⟩ := hc
  obtain ⟨x, u, rfl, hx⟩ := exists_of_kindAt_eq hs hplain hhash
  exact absurd (Token.eq_of_kindOf hx rfl) (Text.isPlain_cons.mp hplain).1.2.1

theorem OpensRecipe.findsWritable {firstLine : Bool} (h : OpensRecipe c firstLine d)
    (hc : c.InPlain) (hd : d.faults = []) : FindsWritable c d := by
  cases h with
  | semicolon hnext =>
    have hadvance := findsWritable_advance hc 1
    exact hadvance.trans (findsWritable_advance hadvance.inPlain _)
  | newline hnext => exact findsWritable_advance hc 1
  | comment hnext => exact absurd hnext hc.ne_hash
  | nothing hnext => exact .refl hc
  | unexpected kind hnext hkind => exact absurd hd (faults_report_ne_nil _ _ _)

/-- Prerequisites, or what stands for a name behind a target. -/
theorem ReadsPrerequisites.findsWritable (h : ReadsPrerequisites c.skipBlanks body d)
    (hc : c.InPlain) (hd : d.faults = []) : FindsWritable c d ∧ body.trimEnd.IsPieces := by
  obtain ⟨s, hs, hplain⟩ := hc
  obtain ⟨hskip, u, hu, hplainBehind, hblanks⟩ := findsWritable_skipBlanks hs hplain
  obtain ⟨v, rfl, rfl, hfits⟩ := h.fits hu hplainBehind hd
  have hplainRest := (Text.isPlain_append.mp hplainBehind).2
  refine ⟨hskip.trans (findsWritable_upTo _ _ hplainRest), ?_, fun x hx => ?_,
    Body.trimEnd_trimEnd _⟩
  · obtain ⟨w, hw⟩ := body.exists_append_trimEnd
    rw [← hw] at hfits
    exact hfits.cut
  · exact Text.of_mem_head?_dropWhile (hblanks ▸ mem_head?_trimEnd hx)

/-- The name in front of an operator behind a target. -/
theorem writable_targeted {target name value : Phrase} {op : AssignOp}
    (htarget : target.body.IsHead) (hname : name.body.IsPieces) (hvalue : value.body.IsValue)
    (hne : (op.takeMark name).2.trimEnd.body ≠ .nil) :
    (Content.assignment ⟨(op.takeMark name).2.trimEnd, (op.takeMark name).1, value,
      some target⟩).Writable := by
  obtain ⟨w, hw⟩ := exists_append_takeMark op name
  refine .targeted htarget ⟨?_, fun x hx => hname.head x ?_, Body.trimEnd_trimEnd _⟩ hne
    (fun hop => ?_) hvalue
  · have hfits := hname.fits
    rw [← hw] at hfits
    exact hfits.cut
  · rw [← hw, Body.dump_append]
    exact List.mem_head?_append_of_mem_head? hx
  · obtain ⟨hsame, hmarks⟩ := takeMark_recursive hop
    have hbody : (op.takeMark name).2.trimEnd.body = name.body := by
      rw [hsame]
      exact hname.trimEnd
    rw [hbody]
    exact hmarks

theorem findsWritable_rule {target : Phrase} (hc : c.InPlain)
    (htarget : target.trimEnd.body.IsHead) (hd : (c.rule target).faults = []) :
    FindsWritable c (c.rule target) := by
  have hrule := readsRule_rule target c
  generalize c.rule target = d at hrule hd
  cases hrule with
  | @assignment mid body hbody hnext =>
    have hmid := ((ahead_advance _ 1).trans (ahead_assignment _ _ _ _)).faults_nil hd
    obtain ⟨hfinds, hname⟩ := hbody.findsWritable hc hmid
    exact hfinds.trans (findsWritable_assignment hfinds.inPlain
      (fun value hvalue hne => writable_targeted htarget hname hvalue hne) hd)
  | @simple mid body hbody hnext =>
    have hcolon := ((ahead_advance _ 1).trans (ahead_assignment _ _ _ _)).faults_nil hd
    obtain ⟨hfinds, hname⟩ := hbody.findsWritable hc ((ahead_advance _ 1).faults_nil hcolon)
    have hadvance := findsWritable_advance hfinds.inPlain 1
    exact (hfinds.trans hadvance).trans (findsWritable_assignment hadvance.inPlain
      (fun value hvalue hne => writable_targeted htarget hname hvalue hne) hd)
  | @recipe mid next body firstLine hbody hopens =>
    have hnext := (ahead_recipe _ _ _ _).faults_nil hd
    obtain ⟨hfinds, hprerequisites⟩ := hbody.findsWritable hc (hopens.ahead.faults_nil hnext)
    have hopened := hopens.findsWritable hfinds.inPlain hnext
    exact (hfinds.trans hopened).trans
      (findsWritable_recipe hopened.inPlain htarget hprerequisites hd)

/-! ## Statements -/

/-- The first phrase of a line that is no directive. -/
theorem isHead_of_reads (h : ReadsBody .head 0 c head mid) (hc : c.rest = lex s)
    (hplain : IsPlain s) (hvisible : ∀ x ∈ s.head?, Visible x) (hkeyword : c.keyword? = none)
    (hmid : mid.faults = []) :
    FindsWritable c mid ∧ Fits .head 0 head 0 ∧
      ∀ a w : Body, a ++ w = head → a.trimEnd = a → a.IsHead := by
  obtain ⟨depth, u, rfl, rfl, hfits, -⟩ := h.fits hc hplain hmid
  obtain rfl := hfits.depth_head
  rw [keyword?_eq hc hplain] at hkeyword
  refine ⟨findsWritable_upTo c _ (Text.isPlain_append.mp hplain).2, hfits, ?_⟩
  rintro a w rfl htrim
  exact isHead_of_fits hfits htrim hkeyword hvisible

theorem findsWritable_endLine (hc : c.InPlain) : FindsWritable c c.endLine := by
  unfold endLine
  rw [if_neg hc.ne_hash]
  exact findsWritable_advance hc 1

theorem ofReference_of_soleReference? {phrase : Phrase} {r : Reference}
    (h : phrase.soleReference? = some r) : phrase.body = .ofReference r := by
  obtain ⟨pos, body⟩ := phrase
  cases body with
  | nil => cases h
  | char => cases h
  | ref name m n d rest =>
    cases rest with
    | nil =>
      cases h
      rfl
    | char => cases h
    | ref => cases h

theorem findsWritable_noted {phrase : Phrase} (hc : c.InPlain) (hfits : Fits .head 0 phrase.body 0)
    (hd : (c.noted phrase).faults = []) : FindsWritable c (c.noted phrase) := by
  unfold noted at hd ⊢
  split at hd
  · next r hsole =>
    rw [ofReference_of_soleReference? hsole] at hfits
    exact (FindsWritable.refl hc).record (.reference hfits) _
  · split at hd
    · next hempty =>
      rw [if_pos hempty]
      exact .refl hc
    · exact absurd hd (faults_report_ne_nil _ _ _)

theorem findsWritable_statement (hc : c.rest = lex s) (hplain : IsPlain s)
    (hvisible : ∀ x ∈ s.head?, Visible x) (hd : c.statement.faults = []) :
    FindsWritable c c.statement := by
  have hstatement := readsStatement_statement c
  generalize c.statement = d at hstatement hd
  cases hstatement with
  | directive hkeyword => exact findsWritable_directive ⟨s, hc, hplain⟩ hkeyword hd
  | @assignment mid next head op hkeyword hhead hop =>
    have hnext := ((ahead_advance _ 1).trans (ahead_assignment _ _ _ _)).faults_nil hd
    obtain ⟨hfinds, -, hname⟩ := isHead_of_reads hhead hc hplain hvisible hkeyword
      (hop.ahead.faults_nil hnext)
    have hoperator : FindsWritable mid next := by
      cases hop with
      | recursive hequals => exact .refl hfinds.inPlain
      | conditional | simple | double => exact findsWritable_advance hfinds.inPlain _
    refine (hfinds.trans hoperator).trans (findsWritable_assignment hoperator.inPlain ?_ hd)
    intro value hvalue hne
    obtain ⟨w, hw⟩ := exists_append_takeMark op ⟨c.offset, head⟩
    exact .assignment (hname _ w hw (Body.trimEnd_trimEnd _)) hne hvalue
  | @rule mid next head hkeyword hhead hcolons =>
    have hnext := (ahead_rule _ _).faults_nil hd
    obtain ⟨hfinds, -, hname⟩ := isHead_of_reads hhead hc hplain hvisible hkeyword
      (hcolons.ahead.faults_nil hnext)
    have hbehind : FindsWritable mid next := by
      cases hcolons with
      | single | double => exact findsWritable_advance hfinds.inPlain _
    obtain ⟨w, hw⟩ := head.exists_append_trimEnd
    exact (hfinds.trans hbehind).trans (findsWritable_rule hbehind.inPlain
      (hname _ w hw (Body.trimEnd_trimEnd _)) hd)
  | @lone mid head hkeyword hhead hnext =>
    rw [loneLine_eq] at hd ⊢
    have hnoted := (ahead_endLine _).faults_nil hd
    obtain ⟨hfinds, hfits, -⟩ := isHead_of_reads hhead hc hplain hvisible hkeyword
      ((ahead_noted _ _).faults_nil hnoted)
    have hline := findsWritable_noted hfinds.inPlain hfits hnoted
    exact (hfinds.trans hline).trans (findsWritable_endLine hline.inPlain)
  | @expectedEquals mid head hkeyword hhead hquestion hequals =>
    have hreported := ((ahead_skipLine _).trans (ahead_advance _ 1)).faults_nil hd
    exact absurd hreported (faults_report_ne_nil _ _ _)
  | @unexpected mid head kind hkeyword hhead hnext hkind =>
    have hreported := ((ahead_skipLine _).trans (ahead_advance _ 1)).faults_nil hd
    exact absurd hreported (faults_report_ne_nil _ _ _)

/-! ## Texts -/

theorem exists_of_skipSpace (hc : c.InPlain) :
    FindsWritable c c.skipSpace ∧
      ∃ u, c.skipSpace.rest = lex u ∧ IsPlain u ∧ ∀ x ∈ u.head?, Visible x := by
  obtain ⟨s, hs, hplain⟩ := hc
  have hspace : c.skipSpace = c.upTo
      (s.takeWhile fun x => (kindOf x).isBlank || kindOf x == .newline)
      (s.dropWhile fun x => (kindOf x).isBlank || kindOf x == .newline) :=
    @skipWhile_eq _ _ (fun k => k.isBlank || k == .newline) rfl hs hplain
  have hplainBehind := Text.isPlain_dropWhile hplain
    fun x => (kindOf x).isBlank || kindOf x == .newline
  refine ⟨hspace ▸ findsWritable_upTo c _ hplainBehind, _, congrArg Cursor.rest hspace,
    hplainBehind, fun x hx => ?_⟩
  simpa [Visible] using Text.of_mem_head?_dropWhile hx

theorem ReadsLines.findsWritable (h : ReadsLines c d) (hc : c.InPlain) (hd : d.faults = []) :
    FindsWritable c d := by
  induction h with
  | done hrest => exact (exists_of_skipSpace hc).1
  | statement hrest hlines ih =>
    obtain ⟨hspace, u, hu, hplain, hvisible⟩ := exists_of_skipSpace hc
    have hstatement := findsWritable_statement hu hplain hvisible (hlines.ahead.faults_nil hd)
    exact (hspace.trans hstatement).trans (ih hstatement.inPlain hd)

end Cursor

/-- **Every statement of a plain text without faults can be written.** -/
theorem writable_of_mem_parse {t : Text} (hplain : IsPlain t) (herrors : (parse t).errors = [])
    {s : Statement} (hs : s ∈ (parse t).statements) : s.content.Writable := by
  have hfaults : (readText t).faults = [] := List.map_eq_nil_iff.mp herrors
  have hfinds := (Cursor.readsLines_readText t).findsWritable ⟨t, rfl, hplain⟩ hfaults
  obtain ⟨ss, hss, hwritable⟩ := hfinds.statements
  obtain ⟨p, hp, rfl⟩ := List.mem_map.mp hs
  rcases mem_interleave.mp hp with hmem | hmem
  · rw [hss] at hmem
    exact hwritable p hmem
  · rw [hfinds.comments] at hmem
    exact absurd hmem List.not_mem_nil

end MakeBlueprint.Makefile
