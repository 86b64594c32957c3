import MakeBlueprint.Proofs.Reading.LineIndex
import MakeBlueprint.Proofs.Reading.Padded.Blocks
import MakeBlueprint.Proofs.Reading.Progress

/-!
# Reading is total

Every text is read to the end, in a number of steps that its size bounds, and nothing on the way can
fail: no slice is out of range, and no difference is negative (`parse_total`).

* `Loop.Total`: what holds where a loop stands. `Sound.total`: it holds at every sound cursor.
* `Sound.exists_before`: the tokens that are left are the source behind the position of the cursor.
* `head?_message`: no message is that of a token that nothing goes on with.
-/

namespace MakeBlueprint.Makefile

open Text (byteSize)
open Token (textOf)

variable {source : Text}

/-! ## Messages -/

/-- Messages begin with another letter than those of a token that nothing goes on with, except for
one. -/
theorem Cause.head?_message {cause : Cause} (h : cause.isFallback = false) :
    cause = .endlessDefine ∨ cause.message.head? = some 'e' := by
  cases cause with
  | unexpected | unexpectedInRule => cases h
  | endlessDefine => exact Or.inl rfl
  | strayText | unclosedReference | expectedEquals | nothingToEscape | missingName | emptyName =>
    exact Or.inr rfl

theorem Cause.message_ne {cause : Cause} (h : cause.isFallback = false) (kind : Token.Kind) :
    cause.message ≠ (Cause.unexpected kind).message ∧
      cause.message ≠ (Cause.unexpectedInRule kind).message := by
  rcases Cause.head?_message h with rfl | hhead
  · cases kind <;> decide
  · constructor
    · intro heq
      rw [heq] at hhead
      cases hhead
    · intro heq
      rw [heq] at hhead
      cases hhead

/-! ## Slices -/

/-- The first character of a token can be cut off, and the backslash of an escape is one byte. -/
theorem Token.Formed.splitAtByte? {t : Token} (h : t.Formed) :
    (∃ x w, t.text = x :: w ∧ Text.splitAtByte? x.utf8Size t.text = some ([x], w)) ∧
      (t.kind = .escape → ∃ w, Text.splitAtByte? 1 t.text = some (['\\'], w)) := by
  have hcut : ∀ x w, Text.splitAtByte? x.utf8Size (x :: w) = some ([x], w) :=
    fun x w => Text.splitAtByte?_append [x] w
  constructor
  · obtain ⟨x, w, htext⟩ := List.exists_cons_of_ne_nil h.text_ne_nil
    exact ⟨x, w, htext, htext ▸ hcut x w⟩
  · intro hkind
    unfold Token.Formed at h
    rw [hkind] at h
    rcases h with htext | ⟨c, htext⟩
    · exact ⟨_, htext ▸ hcut '\\' _⟩
    · exact ⟨_, htext ▸ hcut '\\' _⟩

namespace Cursor

variable {c d : Cursor} {ℓ : Loop} {place : Place} {depth depth' : Nat} {t : Token}

/-- **The tokens that are left are the source behind the position of the cursor**, also when the rest
was given up. -/
theorem Sound.exists_before (h : Sound source c) :
    ∃ before, source = before ++ textOf c.rest ∧ byteSize before = c.offset := by
  unfold offset
  by_cases hrest : c.rest = []
  · rw [hrest]
    exact ⟨source, (List.append_nil source).symm, h.size.symm⟩
  · obtain ⟨before, after, hs, hb, hafter | ⟨hnil, -⟩⟩ := h.stands.placed
    · refine ⟨before, by rw [hafter, hs], ?_⟩
      rw [hb, if_neg (by simpa using hrest)]
    · exact absurd hnil hrest

/-- **The parts of a definition block are cut out of the source**: the block if it has an end, and
the rest of the text if not. -/
structure CutsBlock (source : Text) (c : Cursor) : Prop where
  ended : ∀ body size, blockEnd? (textOf c.rest) = some (body, size) →
    Text.slice? ⟨c.offset, c.offset + byteSize body⟩ source = some body ∧
      c.offset + size ≤ byteSize source
  endless : Text.slice? ⟨c.offset, byteSize source⟩ source = some (textOf c.rest)

theorem Sound.cutsBlock (h : Sound source c) : CutsBlock source c := by
  obtain ⟨before, hsource, hbefore⟩ := h.exists_before
  constructor
  · intro body size hblock
    obtain ⟨last, returns, tail, hparts, rfl⟩ := exists_of_blockEnd? hblock
    have hrest : source = before ++ body ++ (last ++ (returns ++ tail)) := by
      rw [hsource, hparts.eq_append]
      simp only [List.append_assoc]
    rw [← hbefore, ← Text.byteSize_append]
    refine ⟨?_, ?_⟩
    · rw [hrest]
      exact Text.slice?_append before body _
    · rw [hrest]
      simp only [Text.byteSize_append]
      omega
  · have hslice := Text.slice?_append before (textOf c.rest) []
    rwa [List.append_nil, ← hsource, hbefore] at hslice

/-! ## Loops -/

/-- A turn at a token that closes a bracket takes one from the brackets that are open. -/
theorem Turns.depth_eq (h : Turns (.phrase place depth) c (.phrase place depth') d)
    (hnext : c.rest.head? = some t) (hcloses : place.closes t.kind = true) :
    depth = depth' + 1 := by
  have hends := Place.ends_of_closes hcloses
  have hdollar : c.kindAt 0 ≠ some .dollar := by
    obtain ⟨ts, hcons⟩ := List.head?_eq_some_iff.mp hnext
    intro hkind
    rw [kindAt_of_rest hcons, Option.some.injEq] at hkind
    rw [hkind, place.ends_dollar] at hends
    cases hends
  cases h with
  | text hnext' htake =>
    rw [hnext] at hnext'
    cases hnext'
    cases htake with
    | closing hdepth hcloses' => omega
    | escape hends' hkind =>
      rw [hends] at hends'
      cases hends'
    | literal hends' hkind =>
      rw [hends] at hends'
      cases hends'
  | bracketed hdollar' hopen hname => exact absurd hdollar' hdollar
  | bare hdollar' hopen => exact absurd hdollar' hdollar

end Cursor

open Cursor

/-- **What holds where a loop stands.** -/
structure Loop.Total (source : Text) (ℓ : Loop) (c : Cursor) : Prop where
  /-- A turn takes a byte or more, or gives up the rest. -/
  turns : ∀ ℓ' d, Turns ℓ c ℓ' d → left d < left c
  /-- A loop inside the turn has fewer bytes left, or is of a lower rank. -/
  enters : ∀ ℓ' d, Enters ℓ c ℓ' d → left d < left c ∨ ℓ'.rank < ℓ.rank ∧ left d ≤ left c
  /-- The loop is left, and a bound on its turns does not matter. -/
  runs : ∃ d, Runs ℓ c d ∧ ∀ fuel, ℓ.bound c ≤ fuel → ℓ.read fuel c = d
  /-- Nothing is left behind the last fault that is allowed. -/
  capped : c.faults.length = Fault.limit → c.rest = []
  /-- The rest of the source can be cut off. -/
  rest : ∃ before, Text.splitAtByte? c.offset source = some (before, textOf c.rest)
  /-- The first character of a token can be cut off. -/
  first : ∀ t ∈ c.rest, ∃ x w, t.text = x :: w ∧
    Text.splitAtByte? x.utf8Size t.text = some ([x], w)
  /-- The first byte of an escape can be cut off. -/
  escapes : ∀ t ∈ c.rest, t.kind = .escape → ∃ w, Text.splitAtByte? 1 t.text = some (['\\'], w)
  /-- A definition block can be cut out. -/
  block : ℓ = .block → CutsBlock source c.skipBlanks
  /-- One is taken from the open brackets only where there is one. -/
  brackets : ∀ place depth depth' d t, ℓ = .phrase place depth → c.rest.head? = some t →
    place.closes t.kind = true → Turns ℓ c (.phrase place depth') d → depth = depth' + 1
  /-- A statement goes on with every token that may stand behind its first phrase. -/
  statement : ℓ = .lines → ∀ head mid kind, ReadsBody .head 0 c.skipSpace head mid →
    mid.kindAt 0 = some kind → kind ∈ [.question, .colon, .equals, .hash, .newline]
  /-- A rule goes on with every token that may stand behind its prerequisites. -/
  rule : ℓ = .prerequisites → ∀ body mid kind, ReadsPrerequisites c body mid →
    mid.kindAt 0 = some kind → kind ∈ [.equals, .colon, .semicolon, .newline, .hash]

theorem Cursor.Sound.total {c : Cursor} (h : Sound source c) (ℓ : Loop) : ℓ.Total source c where
  turns ℓ' d hturn := hturn.left_lt h
  enters ℓ' d henter := henter.descends h
  runs := runs_read ℓ c
  capped hlimit := h.capped (Nat.le_of_eq hlimit.symm)
  rest := by
    obtain ⟨before, hsource, hbefore⟩ := h.exists_before
    have hcut := Text.splitAtByte?_append before (textOf c.rest)
    rw [← hsource, hbefore] at hcut
    exact ⟨before, hcut⟩
  first t ht := (h.stands.formed t ht).splitAtByte?.1
  escapes t ht := (h.stands.formed t ht).splitAtByte?.2
  block _ := Sound.cutsBlock (h.advance _)
  brackets place depth depth' d t hℓ hnext hcloses hturn := by
    subst hℓ
    exact hturn.depth_eq hnext hcloses
  statement _ head mid kind hhead hkind := hhead.ends_head (h.advance _) hkind
  rule _ body mid kind hbody hkind := hbody.ends h hkind

/-! ## Texts -/

theorem sound_readText (source : Text) : Sound source (readText source) :=
  (readsLines_readText source).sound (sound_start source)

/-- **Reading is total.** For every text,

* wherever a loop stands while it is read, a turn takes a byte or more or gives up the rest, a loop
  inside the turn has fewer bytes left or is of a lower rank, the loop is left after some turns, all
  slices lie in their texts and cut no character, and no other token comes up than those that a
  statement or a rule goes on with (`Loop.Total`);
* the number of steps is bounded, and the reader runs through all statements;
* there are at most 100 errors, and with fewer of them nothing is left;
* no error is that of a token that nothing goes on with;
* the lines of errors and statements are found in the table of the starts of lines, and columns are
  counted from there; spans are not empty, so that their last bytes have lines as well. -/
theorem parse_total (source : Text) :
    (∀ ℓ c, Comes source ℓ c → ℓ.Total source c) ∧
    (∀ n (run : Nat → Loop × Cursor), run 0 = (.lines, start source) →
      (∀ i < n, Steps (run i) (run (i + 1))) → n ≤ 5 * byteSize source + 4) ∧
    Runs .lines (start source) (readText source) ∧
    (parse source).errors.length ≤ 100 ∧
    ((parse source).errors.length < 100 →
      (readText source).rest = [] ∧ (readText source).read = byteSize source) ∧
    (∀ e ∈ (parse source).errors, ∀ kind, e.message ≠ (Cause.unexpected kind).message ∧
      e.message ≠ (Cause.unexpectedInRule kind).message) ∧
    (∀ e ∈ (parse source).errors,
      ∃ s, Text.FindsLine source e.offset e.line s ∧ e.column = e.offset - s + 1) ∧
    (∀ s ∈ (parse source).statements, s.span.start < s.span.stop ∧
      (∃ n, Text.FindsLine source s.span.start s.lines.start n) ∧
      ∃ n, Text.FindsLine source (s.span.stop - 1) s.lines.stop n) := by
  have hlines := readsLines_readText source
  have hsound := sound_readText source
  have hlength : (parse source).errors.length = (readText source).faults.length :=
    List.length_map _
  refine ⟨fun ℓ c hcomes => hcomes.sound.total ℓ, fun n run => length_le_of_steps, hlines.runs,
    ?_, ?_, ?_, ?_, ?_⟩
  · rw [hlength]
    exact hsound.few
  · intro hfew
    rw [hlength] at hfew
    exact ⟨hlines.rest_eq_nil, read_readText_of_few hfew⟩
  · intro e he kind
    obtain ⟨f, hf, rfl⟩ := List.mem_map.mp he
    exact Cause.message_ne (hsound.expected f hf) kind
  · intro e he
    obtain ⟨f, hf, rfl⟩ := List.mem_map.mp he
    exact Text.exists_lineStart f.offset source
  · intro s hs
    obtain ⟨l, hl, -, hbounds, -⟩ := exists_interleave source
    rw [hl] at hs
    obtain ⟨⟨content, span⟩, hmem, rfl⟩ := List.mem_map.mp hs
    have hlt : span.start < span.stop := (hbounds _ hmem).1
    have hstop : (locate source content span).lines.stop = Text.lineAt (span.stop - 1) source :=
      if_pos hlt
    obtain ⟨n, hn, -⟩ := Text.exists_lineStart span.start source
    obtain ⟨m, hm, -⟩ := Text.exists_lineStart (span.stop - 1) source
    exact ⟨hlt, ⟨n, hn⟩, m, hstop ▸ hm⟩

end MakeBlueprint.Makefile
