import MakeBlueprint.Proofs.Reading.Abreast.Statements

/-!
# Documents abreast

Two texts with paired tokens have the same statements and the same faults, in corresponding places.
In the second text no statement may begin with an escaped line break that is a blank in the first
(`beginnings`): that blank is skipped, and the line break is not.

* `IsRecipeLine.exists_rule`: the lines of recipes, in which the same holds of every such blank,
  belong to rules.
* `Abreast.readAll`: all statements are read abreast, by induction on their number.
* `forall₂_interleave`: comments fall between the same statements.
* `Paired.parse`: the statements and the errors of two texts.
-/

namespace MakeBlueprint.Makefile

open Text (byteSize)
open Token (textOf)

variable {A : Alignment} {source source' : Text} {c c' : Cursor}

namespace Cursor

/-- Where the statements begin that are read from a cursor on, well-formed or not. -/
def beginnings : Nat → Cursor → List Nat
  | 0, _ => []
  | fuel + 1, c =>
    if c.skipSpace.rest.isEmpty then []
    else c.skipSpace.read :: beginnings fuel c.skipSpace.statement

/-- A line of a recipe, when all statements are read from a cursor on. -/
inductive AnyLine : Cursor → Span → Prop
  | here {c : Cursor} {line : Span} (hrest : c.skipSpace.rest ≠ [])
      (hline : StatementLine c.skipSpace line) : AnyLine c line
  | later {c : Cursor} {line : Span} (hrest : c.skipSpace.rest ≠ [])
      (hline : AnyLine c.skipSpace.statement line) : AnyLine c line

/-- A statement with a line of a recipe is a rule. -/
theorem StatementLine.exists_rule {line : Span} (h : StatementLine c line) :
    ∃ r span, (.rule r, span) ∈ c.statement.statements := by
  obtain ⟨hkeyword, hhead, hcolons, hline⟩ := h
  rw [(ReadsStatement.rule hkeyword hhead hcolons).eq_statement]
  cases hline with
  | first hbody hopens | later hbody hopens hline =>
    rw [(ReadsRule.recipe hbody hopens).eq_rule]
    obtain ⟨lines, d, -, heq⟩ := exists_recipe _ _ _ _
    rw [heq]
    exact ⟨_, _, List.mem_append_right _ List.mem_cons_self⟩

theorem AnyLine.exists_rule {d : Cursor} {line : Span} (h : AnyLine c line)
    (hc : StandsIn source c) (hlines : ReadsLines c d) :
    ∃ r span, (.rule r, span) ∈ d.statements := by
  induction h with
  | @here c line hrest hline =>
    cases hlines with
    | done hnil => exact absurd hnil hrest
    | statement _ hlines =>
      obtain ⟨ss, cs, hfinds, -⟩ := hlines.findsAll (findsAll_statement (hc.advance _) hrest).stands
      obtain ⟨r, span, hmem⟩ := hline.exists_rule
      exact ⟨r, span, hfinds.statements ▸ List.mem_append_left _ hmem⟩
  | later hrest _ ih =>
    cases hlines with
    | done hnil => exact absurd hnil hrest
    | statement _ hlines => exact ih (findsAll_statement (hc.advance _) hrest).stands hlines

/-- What was found stays found. -/
theorem statements_readAll (fuel : Nat) (hc : StandsIn source c) :
    c.statements <+: (c.readAll fuel).statements := by
  induction fuel generalizing c with
  | zero => exact List.prefix_rfl
  | succ fuel ih =>
    have hskip : StandsIn source c.skipSpace := hc.advance _
    rw [readAll]
    split
    · exact List.prefix_rfl
    · next hrest =>
      have hne : c.skipSpace.rest ≠ [] := fun h => hrest (List.isEmpty_iff.mpr h)
      have hstatement := findsAll_statement hskip hne
      obtain ⟨ss, cs, hfinds, -⟩ := hstatement
      have hfirst : c.statements <+: c.skipSpace.statement.statements :=
        ⟨ss, hfinds.statements.symm⟩
      exact hfirst.trans (ih hfinds.stands)

end Cursor

/-- Where the statements of a text begin, well-formed or not. -/
def beginnings (source : Text) : List Nat :=
  (Cursor.start source).beginnings (Cursor.start source).rest.length

/-- A line of a recipe in a text. -/
def IsRecipeLine (source : Text) (line : Span) : Prop := (Cursor.start source).AnyLine line

open Cursor

/-- **There are no lines of recipes without rules.** -/
theorem IsRecipeLine.exists_rule {line : Span} (h : IsRecipeLine source line) :
    ∃ s ∈ (parse source).statements, ∃ r, s.content = .rule r := by
  obtain ⟨r, span, hmem⟩ :=
    AnyLine.exists_rule h (standsIn_start source) (readsLines_readText source)
  exact ⟨locate source (.rule r) span, List.mem_map_of_mem (mem_interleave.mpr (.inl hmem)), r, rfl⟩

/-- **All statements are read abreast.** -/
theorem Abreast.readAll (fuel : Nat) (h : Abreast A c c') (hc' : StandsIn source c')
    (hbegin : ∀ n ∈ c'.beginnings fuel, ¬ A.joins n)
    (hspares : ∀ s ∈ (c'.readAll fuel).statements, A.Spares s)
    (hlines : ∀ line, AnyLine c' line → ¬ A.JoinsIn line.start line.stop) :
    Abreast A (c.readAll fuel) (c'.readAll fuel) := by
  induction fuel generalizing c c' with
  | zero => exact h
  | succ fuel ih =>
    rw [Cursor.beginnings] at hbegin
    rw [Cursor.readAll] at hspares
    rw [Cursor.readAll, Cursor.readAll]
    -- A reader that skips to an escaped line break begins a statement there.
    have hawaits : ¬ A.Awaits (fun k => k.isBlank || k == .newline) c'.read c'.rest := by
      rw [awaits_iff]
      rintro ⟨hne, hjoin⟩
      have hrest : ¬ c'.skipSpace.rest.isEmpty = true := fun hnil => hne (List.isEmpty_iff.mp hnil)
      rw [if_neg hrest] at hbegin
      exact hbegin _ List.mem_cons_self hjoin
    have hskip : Abreast A c.skipSpace c'.skipSpace := h.skipWhile (.inr ⟨rfl, hawaits⟩)
    have hstands : StandsIn source c'.skipSpace := hc'.advance _
    have hnil := hskip.tokens.nil_iff
    simp only [List.isEmpty_iff, hnil] at hbegin hspares ⊢
    split
    · exact hskip
    · next hrest =>
      rw [if_neg hrest] at hbegin hspares
      have hbehind := (findsAll_statement hstands hrest).stands
      have hstatement := hskip.statement hstands
        (fun s hs => hspares s ((statements_readAll fuel hbehind).subset hs))
        (fun line hline => hlines line (.here hrest hline))
      exact ih hstatement hbehind (List.forall_mem_cons.mp hbegin).2 hspares
        fun line hline => hlines line (.later hrest hline)

/-! ## Comments -/

theorem forall₂_takeWhile {α β : Type} {R : α → β → Prop} {p : α → Bool} {q : β → Bool} {l : List α}
    {l' : List β} (h : List.Forall₂ R l l') (hpq : ∀ a b, R a b → p a = q b) :
    List.Forall₂ R (l.takeWhile p) (l'.takeWhile q) := by
  induction h with
  | nil => exact .nil
  | @cons a b l l' hab _ ih =>
    rw [List.takeWhile_cons, List.takeWhile_cons, hpq a b hab]
    split
    · exact .cons hab ih
    · exact .nil

theorem forall₂_dropWhile {α β : Type} {R : α → β → Prop} {p : α → Bool} {q : β → Bool} {l : List α}
    {l' : List β} (h : List.Forall₂ R l l') (hpq : ∀ a b, R a b → p a = q b) :
    List.Forall₂ R (l.dropWhile p) (l'.dropWhile q) := by
  induction h with
  | nil => exact .nil
  | @cons a b l l' hab hrest ih =>
    rw [List.dropWhile_cons, List.dropWhile_cons, hpq a b hab]
    split
    · exact ih
    · exact .cons hab hrest

/-- **Comments fall between the same statements** if partners start in the same order. -/
theorem forall₂_interleave {R : Content × Span → Content × Span → Prop}
    {ss ss' cs cs' : List (Content × Span)} (hss : List.Forall₂ R ss ss')
    (hcs : List.Forall₂ R cs cs')
    (horder : ∀ s s' k k', R s s' → R k k' →
      (k.2.start < s.2.start ↔ k'.2.start < s'.2.start)) :
    List.Forall₂ R (interleave ss cs) (interleave ss' cs') := by
  induction hss generalizing cs cs' with
  | nil => exact hcs
  | @cons s s' ss ss' hs _ ih =>
    have hbefore : ∀ k k', R k k' →
        decide (k.2.start < s.2.start) = decide (k'.2.start < s'.2.start) :=
      fun k k' hk => decide_eq_decide.mpr (horder s s' k k' hs hk)
    exact List.rel_append (forall₂_takeWhile hcs hbefore)
      (.cons hs (ih (forall₂_dropWhile hcs hbefore)))

theorem Alignment.matches_interleave {ss ss' cs cs' : List (Content × Span)}
    (hss : List.Forall₂ A.Matches ss ss') (hcs : List.Forall₂ A.Matches cs cs') :
    List.Forall₂ A.Matches (interleave ss cs) (interleave ss' cs') := by
  refine forall₂_interleave hss hcs fun s s' k k' hs hk => ?_
  rw [hk.span, hs.span]
  exact A.strictMono.lt_iff_lt.symm

/-! ## Documents -/

/-- Partners are members of their lists. -/
theorem forall₂_mem {α β : Type} {R : α → β → Prop} {l : List α} {l' : List β}
    (h : List.Forall₂ R l l') : List.Forall₂ (fun a b => a ∈ l ∧ b ∈ l' ∧ R a b) l l' := by
  have hright := (List.forall₂_and_left l' l).mpr ⟨fun b hb => hb, h.flip⟩
  exact (List.forall₂_and_left l l').mpr ⟨fun a ha => ha, hright.flip⟩

/-- **Texts with paired tokens are read abreast.** -/
theorem Paired.readText (h : Paired A 0 0 (Token.lex source) (Token.lex source'))
    (hbegin : ∀ n ∈ beginnings source', ¬ A.joins n)
    (hspares : ∀ s ∈ (parse source').statements, A.Spares (s.content, s.span))
    (hlines : ∀ line, IsRecipeLine source' line → ¬ A.JoinsIn line.start line.stop) :
    Abreast A (readText source) (readText source') := by
  have hend := (h.drop (Token.lex source).length).place
  rw [List.take_length, h.length_eq, List.take_length, Token.textOf_lex, Token.textOf_lex,
    Nat.zero_add, Nat.zero_add] at hend
  have hstart : Abreast A (start source) (start source') := ⟨h, hend, .nil, .nil, .nil⟩
  have hlength : (start source).rest.length = (start source').rest.length := h.length_eq
  unfold Makefile.readText
  dsimp only
  rw [hlength]
  refine hstart.readAll _ (standsIn_start source') hbegin (fun s hs => ?_) hlines
  refine hspares (locate source' s.1 s.2) (List.mem_map_of_mem ?_)
  exact mem_interleave.mpr (.inl hs)

/-- **Texts with paired tokens have the same statements and the same errors**, in corresponding
places. -/
theorem Paired.parse (h : Paired A 0 0 (Token.lex source) (Token.lex source'))
    (hbegin : ∀ n ∈ beginnings source', ¬ A.joins n)
    (hspares : ∀ s ∈ (parse source').statements, A.Spares (s.content, s.span))
    (hlines : ∀ line, IsRecipeLine source' line → ¬ A.JoinsIn line.start line.stop) :
    List.Forall₂ (fun s s' => A.Matches (s.content, s.span) (s'.content, s'.span))
      (parse source).statements (parse source').statements ∧
    List.Forall₂ (fun e e' => e'.message = e.message ∧ e'.offset = A.place e.offset)
      (parse source).errors (parse source').errors := by
  have hread := h.readText hbegin hspares hlines
  have hmessage : ∀ {cause cause' : Cause}, cause'.mapPos forget = cause.mapPos forget →
      cause'.message = cause.message := fun hcause => by
    rw [← Cause.message_mapPos forget, hcause, Cause.message_mapPos]
  constructor
  · exact List.forall₂_map_left_iff.mpr (List.forall₂_map_right_iff.mpr
      (Alignment.matches_interleave hread.statements hread.comments))
  · exact List.forall₂_map_left_iff.mpr (List.forall₂_map_right_iff.mpr
      (hread.faults.imp fun _ _ hf => ⟨hmessage hf.cause, hf.offset⟩))

end MakeBlueprint.Makefile
