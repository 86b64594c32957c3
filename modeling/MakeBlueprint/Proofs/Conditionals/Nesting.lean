import MakeBlueprint.Makefile.Document
import MakeBlueprint.Proofs.Conditionals.Switches

/-!
# Nested conditionals

Makefiles nest conditionals, and an `else` that has another conditional behind it on its line goes
on with the same conditional: the two share one `endif`. `Nested` is that grammar over the
statements of a makefile, and it counts the conditionals that go on in this way.

The conversion knows no such lines. It reads the second conditional as one of its own, for which no
`endif` is left, and reports nothing.

* `length_nestAll_nested`: what is nested leaves one conditional standing for every `else` that goes
  on with another, by induction over the grammar.
* `pile_of_nested`: so without such lines the pile is empty behind the last `endif`, and a module
  that is begun there is not switched off by what was nested before.
-/

namespace MakeBlueprint.Conversion

open Blueprint (Value)
open Makefile (Content Directive Keyword Statement parse)

/-! ## The grammar of conditionals -/

/-- The keyword of a directive. -/
def keywordOf? : Content → Option Keyword
  | .directive d => some d.keyword
  | _ => none

/-- Whether a statement begins a conditional. -/
def begins (st : Statement) : Bool := (keywordOf? st.content).any beginsConditional

/-- Whether a statement begins or ends a conditional, or goes to another branch of it. -/
def steers (st : Statement) : Bool :=
  begins st || keywordOf? st.content == some .elseBranch || keywordOf? st.content == some .endIf

mutual

/-- **Statements with nested conditionals**, and how often an `else` goes on with another
conditional in them. -/
inductive Nested : Nat → List Statement → Prop
  | nil : Nested 0 []
  | plain (n : Nat) (st : Statement) (sts : List Statement) (hst : steers st = false)
      (hsts : Nested n sts) : Nested n (st :: sts)
  | conditional (l m n : Nat) (st : Statement) (body tail sts : List Statement)
      (hst : begins st = true) (hbody : Nested l body) (htail : Ends m tail)
      (hsts : Nested n sts) : Nested (l + m + n) (st :: body ++ tail ++ sts)

/-- **The end of a conditional**: its other branches, and its `endif`. -/
inductive Ends : Nat → List Statement → Prop
  | ends (st : Statement) (hst : keywordOf? st.content = some .endIf) : Ends 0 [st]
  /-- An `else` with no other conditional behind it on its line. -/
  | turns (l m : Nat) (st : Statement) (body tail : List Statement)
      (hst : keywordOf? st.content = some .elseBranch)
      (hline : ∀ next ∈ body.head?, begins next = true → next.lines.start ≠ st.lines.stop)
      (hbody : Nested l body) (htail : Ends m tail) : Ends (l + m) (st :: body ++ tail)
  /-- An `else` that goes on with the conditional behind it on its line. -/
  | continues (l m : Nat) (st next : Statement) (body tail : List Statement)
      (hst : keywordOf? st.content = some .elseBranch) (hnext : begins next = true)
      (hline : next.lines.start = st.lines.stop) (hbody : Nested l body) (htail : Ends m tail) :
      Ends (l + m + 1) (st :: next :: body ++ tail)

end

/-! ## What nested conditionals leave standing -/

variable {fs : List Standing} {st : Statement} {sts : List Statement} {n : Nat}

theorem exists_directive {k : Keyword} (h : keywordOf? st.content = some k) :
    ∃ d, st.content = .directive d ∧ d.keyword = k := by
  unfold keywordOf? at h
  split at h
  · next d hd => exact ⟨d, hd, Option.some.inj h⟩
  · cases h

theorem nest_of_not_steers (h : steers st = false) : nest fs st.content = fs := by
  unfold steers begins at h
  cases hc : st.content with
  | directive d =>
    rw [hc] at h
    simp only [keywordOf?, Option.any_some, Bool.or_eq_false_iff, beq_eq_false_iff_ne, ne_eq,
      Option.some.injEq] at h
    obtain ⟨⟨hbegins, helse⟩, hend⟩ := h
    simp [nest, hbegins, helse, hend]
  | _ => rfl

theorem length_nest_of_begins (fs : List Standing) (h : begins st = true) :
    (nest fs st.content).length = fs.length + 1 := by
  unfold begins at h
  cases hk : keywordOf? st.content with
  | none =>
    rw [hk] at h
    cases h
  | some k =>
    rw [hk, Option.any_some] at h
    obtain ⟨d, hd, rfl⟩ := exists_directive hk
    rw [hd, nest_of_begins fs h]
    rfl

theorem length_nest_of_else (fs : List Standing) (h : keywordOf? st.content = some .elseBranch) :
    (nest fs st.content).length = fs.length := by
  obtain ⟨d, hd, hk⟩ := exists_directive h
  rw [hd]
  cases fs <;> simp [nest, hk, beginsConditional]

theorem length_nest_of_endIf (fs : List Standing) (h : keywordOf? st.content = some .endIf) :
    (nest fs st.content).length = fs.length - 1 := by
  obtain ⟨d, hd, hk⟩ := exists_directive h
  rw [hd]
  simp [nest, hk, beginsConditional]

mutual

/-- **Nested conditionals leave one standing** for every `else` that goes on with another. -/
theorem length_nestAll_nested {n : Nat} {sts : List Statement} :
    Nested n sts → ∀ fs : List Standing, (nestAll fs sts).length = fs.length + n
  | .nil, _ => rfl
  | .plain n st sts hst hsts, fs => by
    rw [nestAll_cons, nest_of_not_steers hst]
    exact length_nestAll_nested hsts fs
  | .conditional l m n st body tail sts hst hbody htail hsts, fs => by
    have hfirst := length_nest_of_begins fs hst
    have hinside := length_nestAll_nested hbody (nest fs st.content)
    have hend := length_nestAll_ends htail (nestAll (nest fs st.content) body) (by omega)
    rw [List.cons_append, List.cons_append, nestAll_cons, nestAll_append, nestAll_append,
      length_nestAll_nested hsts]
    omega

/-- The end of a conditional takes it off, and leaves those of its branches standing. -/
theorem length_nestAll_ends {n : Nat} {sts : List Statement} :
    Ends n sts → ∀ fs : List Standing, 0 < fs.length →
      (nestAll fs sts).length + 1 = fs.length + n
  | .ends st hst, fs, hfs => by
    rw [nestAll_cons, nestAll_nil, length_nest_of_endIf fs hst]
    omega
  | .turns l m st body tail hst hline hbody htail, fs, hfs => by
    have hturned := length_nest_of_else fs hst
    have hinside := length_nestAll_nested hbody (nest fs st.content)
    have hend := length_nestAll_ends htail (nestAll (nest fs st.content) body) (by omega)
    rw [List.cons_append, nestAll_cons, nestAll_append]
    omega
  | .continues l m st next body tail hst hnext hline hbody htail, fs, hfs => by
    -- The conditional behind the `else` is one more, and the only `endif` takes off one.
    have hturned := length_nest_of_else fs hst
    have hnested := length_nest_of_begins (nest fs st.content) hnext
    have hinside := length_nestAll_nested hbody (nest (nest fs st.content) next.content)
    have hend := length_nestAll_ends htail
      (nestAll (nest (nest fs st.content) next.content) body) (by omega)
    rw [List.cons_append, List.cons_append, nestAll_cons, nestAll_cons, nestAll_append]
    omega

end

namespace State

/-! ## What nested conditionals leave on the pile -/

/-- Statements up to a place, cut at the statement that begins a module. -/
theorem take_eq_append {α : Type} {as : List α} {a : α} {i j : Nat} (ha : as[i]? = some a)
    (hij : i < j) : as.take j = as.take i ++ a :: (as.take j).drop (i + 1) := by
  obtain ⟨hi, rfl⟩ := List.getElem?_eq_some_iff.mp ha
  have hlt : i < (as.take j).length := by
    rw [List.length_take]
    omega
  have hcut := List.take_append_drop i (as.take j)
  rw [List.take_take, Nat.min_eq_left (Nat.le_of_lt hij), List.drop_eq_getElem_cons hlt,
    List.getElem_take] at hcut
  exact hcut.symm

/-- **Conditionals close as they nest**, but for an `else` that goes on with another: behind nested
statements of a makefile there is one conditional on the pile for every such line. Without them the
pile is empty there, and a module that is begun and built later is switched off only for
conditionals that are begun later too. Its other switches are those that assignments gave it, and
there are none if no host system is named in it. -/
theorem pile_of_nested (options : Options) (source : Text) {n k : Nat}
    (hnested : Nested n ((parse source).statements.take k)) :
    (before options source (parse source).statements k).conditionals.length = n ∧
      (n = 0 → ∀ i j opening st moduleType, k ≤ i → i < j →
        (parse source).statements[i]? = some opening →
        (parse source).statements[j]? = some st →
        ModuleEvent.of? (before options source (parse source).statements i).scope
          opening.content = some .opens →
        ModuleEvent.of? (before options source (parse source).statements j).scope st.content =
          some (.builds moduleType) →
        (before options source (parse source).statements j).draft.isSome = true →
        ∃ m : Blueprint.Module,
          (before options source (parse source).statements (j + 1)).file.modules =
            (before options source (parse source).statements j).file.modules ++ [m] ∧
          (∀ path, switch path m.properties =
            if path ∈ (standing (((parse source).statements.take j).drop k)).filterMap
                Standing.untaken then some (.bool false)
            else switch path
              (before options source (parse source).statements j).openProperties) ∧
          ((∀ other ∈ ((parse source).statements.take j).drop (i + 1),
              ¬ NamesHostOs other.content) →
            Unswitched (before options source (parse source).statements j))) := by
  generalize (parse source).statements = sts at *
  have hlength : (standing (sts.take k)).length = n := by
    rw [standing, length_nestAll_nested hnested]
    exact Nat.zero_add n
  refine ⟨?_, ?_⟩
  · rw [before, conditionals_run, pile, List.length_reverse, List.length_map, hlength]
  · rintro rfl i j opening st moduleType hki hij hi hj hopens hbuild hopen
    have hnil : standing (sts.take k) = [] := List.length_eq_zero_iff.mp hlength
    have hlater : standing (sts.take j) = standing ((sts.take j).drop k) := by
      have hfront : sts.take k = (sts.take j).take k := by
        rw [List.take_take, Nat.min_eq_left (by omega)]
      have hcut := nestAll_append [] ((sts.take j).take k) ((sts.take j).drop k)
      rw [List.take_append_drop, ← hfront] at hcut
      exact hcut.trans (congrArg (nestAll · _) hnil)
    obtain ⟨m, hmodules, -, hswitch⟩ := exists_built options source hopen hbuild
    have hnext : sts.take (j + 1) = sts.take j ++ [st] := by
      rw [List.take_add_one, hj]
      rfl
    rw [hlater] at hswitch
    refine ⟨m, ?_, hswitch, fun hhost => ?_⟩
    · unfold before
      rw [hnext]
      exact hmodules
    · unfold before
      rw [take_eq_append hi hij]
      exact unswitched_of_opens hopens hhost

/-- A makefile with a module in it. -/
def oneModule : Text := "include $(CLEAR_VARS)\ninclude $(BUILD_EXECUTABLE)\n"

/-- A makefile in which a conditional with two branches stands in front of a module. -/
def branchesThenModule : Text := "ifeq ($(HOST_OS),linux)\nelse\nendif\n".toList ++ oneModule

theorem nested_of_branches {a b c : Statement} (ha : begins a = true)
    (hb : keywordOf? b.content = some .elseBranch) (hc : keywordOf? c.content = some .endIf) :
    Nested 0 [a, b, c] :=
  .conditional 0 0 0 a [] [b, c] [] ha .nil
    (.turns 0 0 b [] [c] hb (fun _ hnext => by cases hnext) .nil (.ends c hc)) .nil

/-- A makefile in which an `else` goes on with another conditional. -/
def chainThenModule : Text :=
  "ifeq ($(HOST_OS),linux)\nelse ifeq ($(HOST_OS),darwin)\nendif\n".toList ++ oneModule

theorem nested_of_chain {a b c d : Statement} (ha : begins a = true)
    (hb : keywordOf? b.content = some .elseBranch) (hc : begins c = true)
    (hline : c.lines.start = b.lines.stop) (hd : keywordOf? d.content = some .endIf) :
    Nested 1 [a, b, c, d] :=
  .conditional 0 1 0 a [] [b, c, d] [] ha .nil
    (.continues 0 0 b c [] [d] hb hc hline .nil (.ends d hd)) .nil

/-- Behind the `endif` of a conditional with two branches a module is not switched off. Where an
`else` goes on with another conditional, the `endif` leaves one on the pile: the module is switched
off, and nothing is reported. -/
theorem pile_of_nested_continuedElse :
    ((before {} branchesThenModule (parse branchesThenModule).statements 3).conditionals.length =
        0 ∧
      ∃ m : Blueprint.Module,
        (before {} branchesThenModule (parse branchesThenModule).statements 5).file.modules =
          (before {} branchesThenModule (parse branchesThenModule).statements 4).file.modules ++
            [m] ∧
        ∀ path, switch path m.properties = none) ∧
      (parse chainThenModule).errors = [] ∧
      (before {} chainThenModule (parse chainThenModule).statements 4).conditionals.length = 1 ∧
      (toBlueprint {} chainThenModule (parse chainThenModule).statements).comments = [] ∧
      (toBlueprint {} chainThenModule (parse chainThenModule).statements).modules.map
          (fun m => (switch ["target", "linux"] m.properties).bind Value.asBool?) =
        [some false] := by
  refine ⟨?_, by decide +kernel, ?_, List.isEmpty_iff.mp (by decide +kernel), by decide +kernel⟩
  · obtain ⟨a, b, c, opening, st, hsts, ha, hb, hc, hnil, hopens, hbuild, hopen⟩ :
        ∃ a b c opening st, (parse branchesThenModule).statements = [a, b, c, opening, st] ∧
          begins a = true ∧ keywordOf? b.content = some .elseBranch ∧
          keywordOf? c.content = some .endIf ∧ standing [opening] = [] ∧
          ModuleEvent.of? (start.run {} branchesThenModule [a, b, c]).scope opening.content =
            some .opens ∧
          ModuleEvent.of? (start.run {} branchesThenModule [a, b, c, opening]).scope st.content =
            some (.builds "cc_binary") ∧
          (start.run {} branchesThenModule [a, b, c, opening]).draft.isSome = true :=
      ⟨_, _, _, _, _, rfl, rfl, rfl, rfl, rfl, rfl, rfl, rfl⟩
    have hnested : Nested 0 ((parse branchesThenModule).statements.take 3) := by
      rw [hsts]
      exact nested_of_branches ha hb hc
    have hpile := pile_of_nested {} branchesThenModule hnested
    rw [hsts] at hpile ⊢
    obtain ⟨hlength, hlater⟩ := hpile
    obtain ⟨m, hmodules, hswitch, hhost⟩ := hlater rfl 3 4 opening st "cc_binary" (by decide)
      (by decide) rfl rfl hopens hbuild hopen
    refine ⟨hlength, m, hmodules, fun path => ?_⟩
    have hpath : path ∉ (standing [opening]).filterMap Standing.untaken := by
      rw [hnil]
      exact List.not_mem_nil
    exact (hswitch path).trans ((if_neg hpath).trans
      (hhost (fun _ hother => absurd hother List.not_mem_nil) path))
  · obtain ⟨a, b, c, d, rest, hsts, ha, hb, hc, hline, hd⟩ :
        ∃ a b c d rest, (parse chainThenModule).statements = a :: b :: c :: d :: rest ∧
          begins a = true ∧ keywordOf? b.content = some .elseBranch ∧ begins c = true ∧
          c.lines.start = b.lines.stop ∧ keywordOf? d.content = some .endIf :=
      ⟨_, _, _, _, _, rfl, rfl, rfl, rfl, rfl, rfl⟩
    have hnested : Nested 1 ((parse chainThenModule).statements.take 4) := by
      rw [hsts]
      exact nested_of_chain ha hb hc hline hd
    exact (pile_of_nested {} chainThenModule hnested).1

end State

end MakeBlueprint.Conversion
