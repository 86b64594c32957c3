import MakeBlueprint.Outcome
import MakeBlueprint.Proofs.Conversion.Quotes
import MakeBlueprint.Proofs.Reading.Returns

/-!
# Line endings do not matter

A makefile whose lines end with a carriage return and a line feed is converted as the makefile whose
lines end with a line feed. Its statements say the same on the same lines and quote the same lines,
so the two conversions run side by side, and the two files are the same.

* `State.Echoes.step`, `State.Echoes.run`: the conversions of the two texts, statement by statement.
* `toBlueprint_withReturns`: the two files.
* `convert_withReturns`: the outcomes, with the errors that are reported.

A backslash behind a dollar sign is left out: what is behind the dollar sign is a name, and that
name would have the carriage return in it.
-/

namespace MakeBlueprint

open Makefile (Content ParseError Statement)

namespace Conversion

namespace State

variable {s t : State} {source : Text} {options : Options} {st st' : Statement}
  {sts sts' : List Statement}

/-- Contents that say the same do the same. -/
theorem perform_of_alike {A : Makefile.Alignment} {content content' : Content} (quoted : Text)
    (s : State) (h : content.Alike A False content') :
    s.perform options quoted content' = s.perform options quoted content := by
  cases h with
  | bare h => rw [← perform_mapPos Makefile.forget, h, perform_mapPos]
  | comment hfree => exact hfree.elim
  | rule | define => rfl

/-- **A statement of each text** keeps the conversions the same. -/
theorem Echoes.step (h : Echoes s t) (hst : st.Echoes source st') :
    Echoes (s.step options source st) (t.step options (Text.withReturns source) st') := by
  rw [step_eq_perform, step_eq_perform, hst.lines, perform_of_alike _ _ hst.content]
  exact (h.moveTo st.lines).perform hst.quote options st.content

/-- **The statements of both texts** keep the conversions the same. -/
theorem Echoes.run (h : Echoes s t) (hsts : List.Forall₂ (Statement.Echoes source) sts sts') :
    Echoes (s.run options source sts) (t.run options (Text.withReturns source) sts') := by
  induction hsts generalizing s t with
  | nil => exact h
  | cons hst _ ih => exact ih (h.step hst)

end State

variable {source : Text}

/-- **The same file comes of both texts.** -/
theorem toBlueprint_withReturns (options : Options) (hreturn : '\r' ∉ source)
    (hdollar : ¬ ['$', '\\'] <:+: source) :
    toBlueprint options (Text.withReturns source)
        (Makefile.parse (Text.withReturns source)).statements =
      toBlueprint options source (Makefile.parse source).statements := by
  have hstart : State.Echoes .start .start := ⟨.start, [], [], rfl, rfl, rfl⟩
  exact State.finish_of_echoes (hstart.run (Makefile.parse_withReturns hreturn hdollar).1) options

end Conversion

/-- **Two outcomes that look the same**: the same output beside errors with the same messages, lines
and columns, or a failure with such errors. -/
inductive LooksSame : Except Failure Converted → Except Failure Converted → Prop
  | converted (c c' : Converted) (houtput : c'.output = c.output)
      (herrors : c'.errors.map ParseError.shown = c.errors.map ParseError.shown) :
      LooksSame (.ok c) (.ok c')
  | failed (errors errors' : List ParseError)
      (herrors : errors'.map ParseError.shown = errors.map ParseError.shown) :
      LooksSame (.error (.faults errors)) (.error (.faults errors'))

/-- **Line endings do not matter**: a text has the same outcome with a carriage return in front of
every line feed, if it has no carriage returns and no backslash behind a dollar sign. -/
theorem convert_withReturns (options : Conversion.Options) {source : Text}
    (hreturn : '\r' ∉ source) (hdollar : ¬ ['$', '\\'] <:+: source) :
    LooksSame (convert options source) (convert options (Text.withReturns source)) := by
  have hshown := (Makefile.parse_withReturns hreturn hdollar).2
  have hlength : (Makefile.parse (Text.withReturns source)).errors.length =
      (Makefile.parse source).errors.length := by
    simpa using congrArg List.length hshown
  unfold convert
  simp only [hlength, Conversion.toBlueprint_withReturns options hreturn hdollar]
  split
  · exact .failed _ _ hshown
  · exact .converted _ _ rfl hshown

/-- A comment over two lines, a list over two lines, and a reference that is not closed. -/
def brokenLines : Text := "# a\\\nb\nX := a \\\n  b\n$(Y\n"

theorem convert_withReturns_brokenLines :
    '\r' ∉ brokenLines ∧ ¬ ['$', '\\'] <:+: brokenLines ∧
      LooksSame (convert {} brokenLines) (convert {} (Text.withReturns brokenLines)) :=
  have hreturn : '\r' ∉ brokenLines := by decide +kernel
  have hdollar : ¬ ['$', '\\'] <:+: brokenLines := by decide +kernel
  ⟨hreturn, hdollar, convert_withReturns {} hreturn hdollar⟩

end MakeBlueprint
