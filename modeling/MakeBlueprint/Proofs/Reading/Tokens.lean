import MakeBlueprint.Makefile.Cursor.Basic

/-!
# The tokens of a text

The text of a token has the form that its kind prescribes (`Token.Formed`), and tokens do not reach
over the end of a line.

* `formed_of_mem_lex`: all tokens of a text are formed.
* `lex_append`: a text whose last token is a line break can be cut behind it.
-/

namespace MakeBlueprint.Makefile.Token

/-- A character that has no role of its own, so that it is part of an identifier. -/
def IsLetter (c : Char) : Prop := single? c = none ∧ c ≠ '\\'

/-- **The form of the text of a token**, by its kind. -/
def Formed (t : Token) : Prop :=
  match t.kind with
  | .identifier => t.text ≠ [] ∧ ∀ c ∈ t.text, IsLetter c
  | .newline => t.text = ['\n'] ∨ t.text = ['\r', '\n']
  | .escape => t.text = ['\\', '\r', '\n'] ∨ ∃ c, t.text = ['\\', c]
  | .backslash => t.text = ['\\']
  | kind => ∃ c, single? c = some kind ∧ t.text = [c]

theorem Formed.text_ne_nil {t : Token} (h : t.Formed) : t.text ≠ [] := by
  obtain ⟨kind, text⟩ := t
  rintro rfl
  cases kind <;> simp_all [Formed]

theorem formed_single {c : Char} {kind : Kind} (h : single? c = some kind) :
    Formed ⟨kind, [c]⟩ := by
  unfold single? at h
  split at h <;> cases h <;> simp [Formed, single?]

theorem formed_consIdentifier {c : Char} {ts : List Token} (hc : IsLetter c)
    (h : ∀ t ∈ ts, t.Formed) : ∀ t ∈ consIdentifier c ts, t.Formed := by
  unfold consIdentifier
  split
  · next w ts =>
    intro t ht
    rcases List.mem_cons.mp ht with rfl | ht
    · have hw := (h ⟨.identifier, w⟩ List.mem_cons_self).2
      exact ⟨List.cons_ne_nil _ _, List.forall_mem_cons.mpr ⟨hc, hw⟩⟩
    · exact h t (List.mem_cons_of_mem _ ht)
  · intro t ht
    rcases List.mem_cons.mp ht with rfl | ht
    · exact ⟨List.cons_ne_nil _ _, List.forall_mem_singleton.mpr hc⟩
    · exact h t ht

theorem ne_backslash {c : Char} {s : Text} (hlast : c = '\\' → s = [] → False)
    (hescape : ∀ d r, c = '\\' → s = d :: r → False) : c ≠ '\\' := by
  rintro rfl
  cases s with
  | nil => exact hlast rfl rfl
  | cons d r => exact hescape d r rfl rfl

/-- **The tokens of a text are formed.** -/
theorem formed_of_mem_lex (s : Text) : ∀ t ∈ lex s, t.Formed := by
  fun_induction lex s with
  | case1 => exact fun t ht => absurd ht List.not_mem_nil
  | case2 s ih => exact List.forall_mem_cons.mpr ⟨Or.inr rfl, ih⟩
  | case3 => exact List.forall_mem_singleton.mpr rfl
  | case4 s ih => exact List.forall_mem_cons.mpr ⟨Or.inl rfl, ih⟩
  | case5 c s hbreak ih => exact List.forall_mem_cons.mpr ⟨Or.inr ⟨c, rfl⟩, ih⟩
  | case6 c s hbreak hlast hescape hbackslash kind hkind ih =>
    exact List.forall_mem_cons.mpr ⟨formed_single hkind, ih⟩
  | case7 c s hbreak hlast hescape hbackslash hsingle ih =>
    exact formed_consIdentifier ⟨hsingle, ne_backslash hlast hbackslash⟩ ih

/-! ## Ends of lines -/

/-- The last of the tokens is a line break. -/
def EndsLine (ts : List Token) : Prop := ∃ t ∈ ts.getLast?, t.kind = .newline

theorem endsLine_cons {t : Token} {ts : List Token} (hts : ts ≠ []) :
    EndsLine (t :: ts) ↔ EndsLine ts := by
  obtain ⟨u, us, rfl⟩ := List.exists_cons_of_ne_nil hts
  simp [EndsLine]

theorem EndsLine.ne_nil {ts : List Token} (h : EndsLine ts) : ts ≠ [] := by
  rintro rfl
  obtain ⟨t, ht, -⟩ := h
  cases ht

/-- A token that is no line break has others behind it. -/
theorem EndsLine.tail {t : Token} {ts : List Token} (h : EndsLine (t :: ts))
    (ht : t.kind ≠ .newline) : EndsLine ts := by
  by_cases hts : ts = []
  · subst hts
    obtain ⟨u, hu, hk⟩ := h
    cases hu
    exact absurd hk ht
  · exact (endsLine_cons hts).mp h

theorem lex_eq_nil_iff {s : Text} : lex s = [] ↔ s = [] := by
  constructor
  · intro h
    rw [← textOf_lex s, h]
    rfl
  · rintro rfl
    rfl

theorem consIdentifier_append {c : Char} {ts us : List Token} (hts : ts ≠ []) :
    consIdentifier c (ts ++ us) = consIdentifier c ts ++ us := by
  obtain ⟨t, ts, rfl⟩ := List.exists_cons_of_ne_nil hts
  rw [List.cons_append]
  unfold consIdentifier
  split
  · next heq =>
    cases heq
    rfl
  · next hnot =>
    split
    · next heq =>
      cases heq
      exact absurd rfl (hnot _ _)
    · rfl

theorem endsLine_of_consIdentifier {c : Char} {ts : List Token}
    (h : EndsLine (consIdentifier c ts)) : EndsLine ts := by
  unfold consIdentifier at h
  split at h
  · next w ts =>
    have hts := h.tail nofun
    exact (endsLine_cons hts.ne_nil).mpr hts
  · exact h.tail nofun

/-- A character that begins neither an escape nor a line break of two characters is read by
itself. -/
theorem lex_cons {c : Char} {s : Text} (hc : c ≠ '\\') (hbreak : ∀ r, c = '\r' → s ≠ '\n' :: r) :
    lex (c :: s) = match single? c with
      | some kind => ⟨kind, [c]⟩ :: lex s
      | none => consIdentifier c (lex s) := by
  rewrite [lex]
  · rfl
  · exact fun r h => hbreak r h
  · exact fun h => absurd h hc
  · exact fun r h => absurd h hc
  · exact fun d r h => absurd h hc

theorem eq_newline_of_single {c : Char} (h : single? c = some .newline) : c = '\n' := by
  unfold single? at h
  split at h <;> first | rfl | cases h

theorem eq_dollar_of_single {c : Char} (h : single? c = some .dollar) : c = '$' := by
  unfold single? at h
  split at h <;> first | rfl | cases h

/-- No character by itself is a backslash or an escape. -/
theorem single?_ne {c : Char} {kind : Kind} (hkind : kind = .backslash ∨ kind = .escape) :
    single? c ≠ some kind := by
  rcases hkind with rfl | rfl
  · unfold single?
    split <;> simp
  · unfold single?
    split <;> simp

/-- A backslash that escapes nothing is the last token. -/
theorem ne_backslash_of_mem_dropLast (s : Text) : ∀ t ∈ (lex s).dropLast, t.kind ≠ .backslash := by
  have hcons : ∀ {t : Token} {ts : List Token}, t.kind ≠ .backslash →
      (∀ u ∈ ts.dropLast, u.kind ≠ .backslash) → ∀ u ∈ (t :: ts).dropLast, u.kind ≠ .backslash := by
    intro t ts ht hts
    cases ts with
    | nil => simp
    | cons u us => exact List.forall_mem_cons.mpr ⟨ht, hts⟩
  fun_induction lex s with
  | case1 | case3 => simp
  | case2 s ih | case4 s ih => exact hcons (by simp) ih
  | case5 c s hbreak ih => exact hcons (by simp) ih
  | case6 c s hbreak hlast hescape hbackslash kind hkind ih =>
    refine hcons ?_ ih
    rintro rfl
    exact single?_ne (.inl rfl) hkind
  | case7 c s hbreak hlast hescape hbackslash hsingle ih =>
    unfold consIdentifier
    split
    · next w ts heq =>
      rw [heq] at ih
      cases ts with
      | nil => simp
      | cons u us => exact hcons (by simp) (List.forall_mem_cons.mp ih).2
    · exact hcons (by simp) ih

/-- **A text can be cut behind a line break.** -/
theorem lex_append {s : Text} (h : EndsLine (lex s)) (u : Text) :
    lex (s ++ u) = lex s ++ lex u := by
  -- A cut behind the first token needs nothing; otherwise the rest of `s` is not empty, and its
  -- first character stays in front of `u`.
  have hne : ∀ {r : Text}, EndsLine (lex r) → r ≠ [] := fun hr => mt lex_eq_nil_iff.mpr hr.ne_nil
  fun_induction lex s with
  | case1 => exact absurd rfl h.ne_nil
  | case2 s ih =>
    change lex ('\r' :: '\n' :: (s ++ u)) = _
    rw [lex, List.cons_append]
    by_cases hs : s = []
    · rw [hs]
      rfl
    · rw [ih ((endsLine_cons (mt lex_eq_nil_iff.mp hs)).mp h)]
  | case3 =>
    obtain ⟨t, ht, hk⟩ := h
    cases ht
    cases hk
  | case4 s ih =>
    change lex ('\\' :: '\r' :: '\n' :: (s ++ u)) = _
    rw [lex, ih (h.tail nofun), List.cons_append]
  | case5 c s hbreak ih =>
    have hs := h.tail nofun
    obtain ⟨d, r, rfl⟩ := List.exists_cons_of_ne_nil (hne hs)
    change lex ('\\' :: c :: (d :: r ++ u)) = _
    rw [lex, ih hs, List.cons_append]
    rintro v rfl hv
    cases hv
    exact hbreak r rfl rfl
  | case6 c s hbreak hlast hescape hbackslash kind hkind ih =>
    have hc := ne_backslash hlast hbackslash
    rw [List.cons_append]
    by_cases hs : s = []
    · subst hs
      obtain ⟨t, ht, hk⟩ := h
      cases ht
      cases hk
      have hreturn : ∀ r, '\n' = '\r' → u ≠ '\n' :: r := fun r hr => absurd hr (by decide)
      rw [eq_newline_of_single hkind, List.nil_append, lex_cons (by decide) hreturn]
      rfl
    · have hrest := (endsLine_cons (mt lex_eq_nil_iff.mp hs)).mp h
      obtain ⟨d, r, rfl⟩ := List.exists_cons_of_ne_nil hs
      rw [List.cons_append, lex_cons hc, hkind]
      · dsimp only
        rw [← List.cons_append, ih hrest, List.cons_append]
      · rintro v rfl hv
        cases hv
        exact hbreak r rfl rfl
  | case7 c s hbreak hlast hescape hbackslash hsingle ih =>
    have hc := ne_backslash hlast hbackslash
    have hrest := endsLine_of_consIdentifier h
    obtain ⟨d, r, rfl⟩ := List.exists_cons_of_ne_nil (hne hrest)
    rw [List.cons_append, List.cons_append, lex_cons hc, hsingle]
    · dsimp only
      rw [← List.cons_append, ih hrest, consIdentifier_append hrest.ne_nil]
    · rintro v rfl hv
      cases hv
      exact hbreak r rfl rfl

/-! ## Blanks between tokens -/

/-- What follows an identifier stays where it is when the identifier gets one more character. -/
theorem exists_of_consIdentifier {c : Char} {l ts us : List Token} {e : Token}
    (h : consIdentifier c l = ts ++ e :: us) (he : e.kind ≠ .identifier) :
    ∃ ts', l = ts' ++ e :: us ∧ ts = consIdentifier c ts' := by
  unfold consIdentifier at h
  split at h
  · next w l =>
    cases ts with
    | nil =>
      cases h
      exact absurd rfl he
    | cons u ts =>
      obtain ⟨rfl, rfl⟩ := List.cons.inj h
      exact ⟨⟨.identifier, w⟩ :: ts, rfl, rfl⟩
  · next hnot =>
    cases ts with
    | nil =>
      cases h
      exact absurd rfl he
    | cons u ts =>
      obtain ⟨rfl, rfl⟩ := List.cons.inj h
      refine ⟨ts, rfl, ?_⟩
      unfold consIdentifier
      split
      · exact absurd rfl (hnot _ _)
      · rfl

/-- A text with a blank at the end of a token goes on with a line feed where the text does. -/
theorem exists_newline {s r v : Text} {c : Char} {ts us : List Token} (hc : Text.isBlank c = true)
    (hs : lex s = ts ++ us) (hr : textOf ts ++ c :: v = '\n' :: r) : ∃ r', s = '\n' :: r' := by
  have htext := congrArg textOf hs
  rw [textOf_lex, textOf_append] at htext
  rw [htext]
  cases hts : textOf ts with
  | nil =>
    rw [hts] at hr
    obtain ⟨rfl, -⟩ := List.cons.inj hr
    cases hc
  | cons x w =>
    rw [hts] at hr
    exact ⟨_, congrArg (· :: _) (List.cons.inj hr).1⟩

/-- The kind of a blank. -/
def blankKind (c : Char) : Kind := if c = '\t' then .tab else .whitespace

theorem single?_of_isBlank {c : Char} (hc : Text.isBlank c = true) :
    single? c = some (blankKind c) := by
  rw [Text.isBlank, Bool.or_eq_true, beq_iff_eq, beq_iff_eq] at hc
  rcases hc with rfl | rfl <;> rfl

/-- A blank is a token by itself. -/
theorem lex_cons_blank {c : Char} (hc : Text.isBlank c = true) (v : Text) :
    lex (c :: v) = ⟨blankKind c, [c]⟩ :: lex v := by
  have hsingle := single?_of_isBlank hc
  rw [lex_cons, hsingle]
  · rintro rfl
    cases hc
  · rintro r rfl
    cases hc

/-- **A text can be cut in front of a token when a blank is put there**, but not inside an
identifier. -/
theorem lex_append_blank {c : Char} {s v : Text} {ts us : List Token} {e : Token}
    (hc : Text.isBlank c = true) (h : lex s = ts ++ e :: us) (he : e.kind ≠ .identifier) :
    lex (textOf ts ++ c :: v) = ts ++ lex (c :: v) := by
  fun_induction lex s generalizing ts with
  | case1 => simp at h
  | case2 s ih =>
    obtain ⟨rfl, -⟩ | ⟨ts, rfl, hs⟩ := List.cons_eq_append_iff.mp h
    · rfl
    · change lex ('\r' :: '\n' :: (textOf ts ++ c :: v)) = _
      rw [lex, ih hs]
      rfl
  | case3 =>
    obtain ⟨rfl, -⟩ | ⟨ts, rfl, hs⟩ := List.cons_eq_append_iff.mp h
    · rfl
    · simp at hs
  | case4 s ih =>
    obtain ⟨rfl, -⟩ | ⟨ts, rfl, hs⟩ := List.cons_eq_append_iff.mp h
    · rfl
    · change lex ('\\' :: '\r' :: '\n' :: (textOf ts ++ c :: v)) = _
      rw [lex, ih hs]
      rfl
  | case5 d s hbreak ih =>
    obtain ⟨rfl, -⟩ | ⟨ts, rfl, hs⟩ := List.cons_eq_append_iff.mp h
    · rfl
    · change lex ('\\' :: d :: (textOf ts ++ c :: v)) = _
      rw [lex, ih hs]
      · rfl
      · rintro r rfl hr
        obtain ⟨r', rfl⟩ := exists_newline hc hs hr
        exact hbreak r' rfl rfl
  | case6 d s hbreak hlast hescape hbackslash kind hkind ih =>
    have hd := ne_backslash hlast hbackslash
    obtain ⟨rfl, -⟩ | ⟨ts, rfl, hs⟩ := List.cons_eq_append_iff.mp h
    · rfl
    · change lex (d :: (textOf ts ++ c :: v)) = _
      rw [lex_cons hd, hkind, ih hs]
      · rfl
      · rintro r rfl hr
        obtain ⟨r', rfl⟩ := exists_newline hc hs hr
        exact hbreak r' rfl rfl
  | case7 d s hbreak hlast hescape hbackslash hsingle ih =>
    have hd := ne_backslash hlast hbackslash
    obtain ⟨ts, hs, rfl⟩ := exists_of_consIdentifier h he
    rw [textOf_consIdentifier, List.cons_append, lex_cons hd, hsingle, ih hs]
    · cases ts with
      | nil =>
        rw [List.nil_append, lex_cons_blank hc, blankKind]
        by_cases htab : c = '\t'
        · rw [if_pos htab]
          rfl
        · rw [if_neg htab]
          rfl
      | cons t ts => exact consIdentifier_append (List.cons_ne_nil _ _)
    · rintro r rfl hr
      obtain ⟨r', rfl⟩ := exists_newline hc hs hr
      exact hbreak r' rfl rfl

/-- Blanks are tokens by themselves. -/
theorem lex_append_blanks {w : Text} (hw : ∀ c ∈ w, Text.isBlank c = true) (v : Text) :
    lex (w ++ v) = lex w ++ lex v := by
  induction w with
  | nil => rfl
  | cons c w ih =>
    obtain ⟨hc, hw⟩ := List.forall_mem_cons.mp hw
    rw [List.cons_append, lex_cons_blank hc, lex_cons_blank hc, ih hw, List.cons_append]

theorem isBlank_blankKind (c : Char) : (blankKind c).isBlank = true := by
  unfold blankKind
  split <;> rfl

theorem isBlank_of_mem_lex {w : Text} (hw : ∀ c ∈ w, Text.isBlank c = true) :
    ∀ t ∈ lex w, t.kind.isBlank = true := by
  induction w with
  | nil => exact nofun
  | cons c w ih =>
    obtain ⟨hc, hw⟩ := List.forall_mem_cons.mp hw
    rw [lex_cons_blank hc]
    exact List.forall_mem_cons.mpr ⟨isBlank_blankKind c, ih hw⟩

/-- What is behind some tokens of a text has the same tokens by itself. -/
theorem lex_textOf {s : Text} {ts us : List Token} (h : lex s = ts ++ us) :
    lex (textOf us) = us := by
  -- The whole text is behind no tokens.
  have hwhole : ∀ {r : Text} {vs : List Token}, lex r = vs → lex (textOf vs) = vs := fun hr => by
    rw [← hr, textOf_lex]
  fun_induction lex s generalizing ts with
  | case1 =>
    obtain ⟨-, rfl⟩ := List.append_eq_nil_iff.mp h.symm
    rfl
  | case3 =>
    obtain ⟨-, rfl⟩ | ⟨ts, -, hs⟩ := List.cons_eq_append_iff.mp h
    · rfl
    · obtain ⟨-, rfl⟩ := List.append_eq_nil_iff.mp hs.symm
      rfl
  | case2 s ih =>
    obtain ⟨-, hus⟩ | ⟨ts, -, hs⟩ := List.cons_eq_append_iff.mp h
    · rw [hus]
      exact @hwhole ('\r' :: '\n' :: s) _ (by rw [lex])
    · exact ih hs
  | case4 s ih =>
    obtain ⟨-, hus⟩ | ⟨ts, -, hs⟩ := List.cons_eq_append_iff.mp h
    · rw [hus]
      exact @hwhole ('\\' :: '\r' :: '\n' :: s) _ (by rw [lex])
    · exact ih hs
  | case5 c s hbreak ih =>
    obtain ⟨-, hus⟩ | ⟨ts, -, hs⟩ := List.cons_eq_append_iff.mp h
    · rw [hus]
      refine @hwhole ('\\' :: c :: s) _ ?_
      rw [lex]
      exact hbreak
    · exact ih hs
  | case6 c s hbreak hlast hescape hbackslash kind hkind ih =>
    obtain ⟨-, hus⟩ | ⟨ts, -, hs⟩ := List.cons_eq_append_iff.mp h
    · rw [hus]
      refine @hwhole (c :: s) _ ?_
      rw [lex_cons (ne_backslash hlast hbackslash) (fun r hr hs => hbreak r hr hs), hkind]
    · exact ih hs
  | case7 c s hbreak hlast hescape hbackslash hsingle ih =>
    cases ts with
    | nil =>
      refine @hwhole (c :: s) _ ?_
      rw [lex_cons (ne_backslash hlast hbackslash) (fun r hr hs => hbreak r hr hs), hsingle]
      exact h
    | cons t ts =>
      unfold consIdentifier at h
      split at h
      · next w rest hrest =>
        rw [(List.cons.inj h).2] at hrest
        exact @ih (⟨.identifier, w⟩ :: ts) hrest
      · exact ih (List.cons.inj h).2

end MakeBlueprint.Makefile.Token
