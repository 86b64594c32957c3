import MakeBlueprint.Makefile.Document

/-!
# Reading as a grammar

The readers of phrases, prerequisites, recipes and lines are functions with a bound on their
depth. Here they are relations without one, with a constructor for each thing that may come next
(`ReadsBody`, `ReadsPrerequisites`, `ReadsRecipe`).

* `readsBody_readBody` and `ReadsBody.eq_readBody`, and their like for prerequisites and recipes:
  with a bound of at least the number of tokens that are left, the functions compute these
  relations.
* `Ahead`: what every reader keeps, whatever it reads. `ReadsBody.ahead`, `ahead_directive` and
  `ReadsRecipe.ahead` are its instances.
-/

namespace MakeBlueprint.Makefile

/-- The kinds of tokens that stand for their own text in every phrase that they do not end. -/
def Token.Kind.isLiteral : Token.Kind → Bool
  | .newline | .escape | .backslash | .hash | .dollar => false
  | _ => true

namespace Place

/-- A token ends a phrase in this place, when so many brackets are open. -/
def Stops (place : Place) (depth : Nat) (kind : Token.Kind) : Prop :=
  ¬ (0 < depth ∧ place.closes kind = true) ∧ (place.ends kind = true ∨ kind = .newline)

/-- A token adds a text to a phrase, and leaves so many brackets open. -/
inductive Takes (place : Place) (depth : Nat) (t : Token) : Text → Nat → Prop
  | closing (hdepth : 0 < depth) (hcloses : place.closes t.kind = true) :
      Takes place depth t t.text (depth - 1)
  | escape (hends : place.ends t.kind = false) (hkind : t.kind = .escape) :
      Takes place depth t (if t.escapesBreak then [' '] else t.text) depth
  | literal (hends : place.ends t.kind = false) (hkind : t.kind.isLiteral = true) :
      Takes place depth t t.text (if place.opens t.kind then depth + 1 else depth)

/-- A token that closes a bracket ends the name of a reference. -/
theorem ends_of_closes {place : Place} {kind : Token.Kind} (h : place.closes kind = true) :
    place.ends kind = true := by
  cases place with
  | name b => exact h
  | head | prerequisites | line => cases h

theorem not_closing {place : Place} {depth : Nat} {kind : Token.Kind}
    (h : place.ends kind = false) : ¬ (0 < depth ∧ place.closes kind = true) := by
  rintro ⟨-, hcloses⟩
  rw [ends_of_closes hcloses] at h
  cases h

/-- Where no bracket is open, nothing needs to be closed. -/
theorem stops_zero {place : Place} {kind : Token.Kind}
    (h : place.ends kind = true ∨ kind = .newline) : place.Stops 0 kind :=
  ⟨fun hclosing => absurd hclosing.1 (Nat.lt_irrefl 0), h⟩

theorem ends_backslash (place : Place) : place.ends .backslash = false := by
  cases place with
  | name b => cases b <;> rfl
  | head | prerequisites | line => rfl

theorem ends_dollar (place : Place) : place.ends .dollar = false := by
  cases place with
  | name b => cases b <;> rfl
  | head | prerequisites | line => rfl

/-- Blanks are part of every phrase. -/
theorem takes_of_isBlank {place : Place} {depth : Nat} {u : Token}
    (h : u.kind.isBlank = true) : place.Takes depth u u.text depth := by
  have hkind : u.kind = .whitespace ∨ u.kind = .tab := by
    unfold Token.Kind.isBlank at h
    split at h
    · next hk => exact .inl hk
    · next hk => exact .inr hk
    · cases h
  have hliteral : u.kind.isLiteral = true := by rcases hkind with hk | hk <;> rw [hk] <;> rfl
  have hplain : place.ends u.kind = false ∧ place.opens u.kind = false := by
    rcases hkind with hk | hk <;> rw [hk]
    all_goals
      cases place with
      | name b => cases b <;> exact ⟨rfl, rfl⟩
      | head | prerequisites | line => exact ⟨rfl, rfl⟩
  have htake := @Place.Takes.literal place depth u hplain.1 hliteral
  rwa [hplain.2, if_neg Bool.false_ne_true] at htake

end Place

namespace Cursor

variable {place : Place} {depth fuel : Nat} {c d mid : Cursor} {body : Phrase.Body}

/-! ## The next token -/

theorem kindAt_eq_none_iff : c.kindAt 0 = none ↔ c.rest = [] := by
  unfold kindAt
  cases c.rest <;> simp

theorem kindAt_of_rest {t : Token} {ts : List Token} (h : c.rest = t :: ts) :
    c.kindAt 0 = some t.kind := by
  unfold kindAt
  rw [h]
  rfl

theorem exists_of_kindAt {kind : Token.Kind} (h : c.kindAt 0 = some kind) :
    ∃ t ts, c.rest = t :: ts ∧ t.kind = kind := by
  unfold kindAt at h
  cases hr : c.rest with
  | nil =>
    rw [hr] at h
    cases h
  | cons t ts =>
    rw [hr] at h
    exact ⟨t, ts, rfl, Option.some.inj h⟩

/-! ## What every reader keeps -/

/-- **One cursor is ahead of another**: there are no more tokens left, and the faults that were
found are still there. -/
structure Ahead (c d : Cursor) : Prop where
  size : d.size = c.size
  length : d.rest.length ≤ c.rest.length
  read : c.read ≤ d.read
  faults : c.faults <+: d.faults

namespace Ahead

theorem refl (c : Cursor) : Ahead c c := ⟨rfl, Nat.le_refl _, Nat.le_refl _, List.prefix_rfl⟩

theorem trans (h : Ahead c mid) (h' : Ahead mid d) : Ahead c d where
  size := h'.size.trans h.size
  length := Nat.le_trans h'.length h.length
  read := Nat.le_trans h.read h'.read
  faults := h.faults.trans h'.faults

/-- Nothing was reported on the way if nothing was reported by its end. -/
theorem faults_nil (h : Ahead c d) (hd : d.faults = []) : c.faults = [] :=
  List.prefix_nil.mp (hd ▸ h.faults)

end Ahead

theorem ahead_advance (c : Cursor) (n : Nat) : Ahead c (c.advance n) where
  size := rfl
  length := by
    unfold advance
    simp
  read := Nat.le_add_right _ _
  faults := List.prefix_rfl

theorem length_advance_one {t : Token} {ts : List Token} (h : c.rest = t :: ts) :
    (c.advance 1).rest.length < c.rest.length := by
  unfold advance
  simp [h]

theorem length_advance_two (c : Cursor) :
    (c.advance 2).rest.length ≤ (c.advance 1).rest.length := by
  unfold advance
  rw [List.length_drop, List.length_drop]
  omega

theorem ahead_report (c : Cursor) (offset : Nat) (cause : Cause) :
    Ahead c (c.report offset cause) := by
  unfold report
  split
  · exact Ahead.refl c
  · split
    · exact ⟨rfl, Nat.zero_le _, Nat.le_refl _, List.prefix_append _ _⟩
    · exact ⟨rfl, Nat.le_refl _, Nat.le_refl _, List.prefix_append _ _⟩

/-- A report leaves the rest of the text, or gives it up. -/
theorem rest_report (c : Cursor) (offset : Nat) (cause : Cause) :
    (c.report offset cause).rest = c.rest ∨ (c.report offset cause).rest = [] := by
  unfold report
  split
  · exact Or.inl rfl
  · split
    · exact Or.inr rfl
    · exact Or.inl rfl

/-- A report leaves a fault, also one that is not noted any more. -/
theorem faults_report_ne_nil (c : Cursor) (offset : Nat) (cause : Cause) :
    (c.report offset cause).faults ≠ [] := by
  unfold report
  split
  · next h =>
    rintro hnil
    rw [hnil] at h
    exact absurd h (by decide)
  · split
    · simp
    · simp

theorem ahead_reportHere (c : Cursor) (cause : Cause) : Ahead c (c.reportHere cause) :=
  ahead_report c _ cause

theorem ahead_record (c : Cursor) (content : Content) (start : Nat) :
    Ahead c (c.record content start) :=
  ⟨rfl, Nat.le_refl _, Nat.le_refl _, List.prefix_rfl⟩

theorem ahead_skipWhile (p : Token.Kind → Bool) (c : Cursor) : Ahead c (c.skipWhile p) :=
  ahead_advance c _

theorem ahead_skipLine (c : Cursor) : Ahead c c.skipLine := ahead_advance c _

theorem ahead_skipBreak (c : Cursor) : Ahead c c.skipBreak := by
  unfold skipBreak
  split
  · exact ahead_advance c 1
  · exact Ahead.refl c

theorem ahead_comment (c : Cursor) : Ahead c c.comment := by
  have h : Ahead c ((c.advance 1).skipLine.advance 1) :=
    ((ahead_advance c 1).trans (ahead_skipLine _)).trans (ahead_advance _ 1)
  exact ⟨h.size, h.length, h.read, h.faults⟩

theorem ahead_bareName (c : Cursor) (dollar : Nat) : Ahead c (c.bareName dollar).2.2 := by
  unfold bareName
  split
  · exact ahead_reportHere c _
  · next t ts hrest =>
    split
    · exact ahead_reportHere c _
    · exact ahead_advance c 1
    · split
      · exact ⟨rfl, by simp [hrest], Nat.le_add_right _ _, List.prefix_rfl⟩
      · exact ahead_advance c 1
    · exact ahead_advance c 1

theorem ahead_closeReference (b : Bracket) (name : Phrase.Body) (c : Cursor) :
    Ahead c (c.closeReference b name) := by
  unfold closeReference
  split
  · exact ahead_advance c 1
  · exact ahead_reportHere c _

/-! ## Phrases -/

/-- **What reading the body of a phrase does**, in a place and with some brackets open. -/
inductive ReadsBody : Place → Nat → Cursor → Phrase.Body → Cursor → Prop
  | finish {place : Place} {depth : Nat} {c : Cursor}
      (hstop : ∀ kind, c.kindAt 0 = some kind → place.Stops depth kind) :
      ReadsBody place depth c .nil c
  | literal {place : Place} {depth depth' : Nat} {c d : Cursor} {t : Token} {text : Text}
      {body : Phrase.Body} (hnext : c.rest.head? = some t)
      (htake : place.Takes depth t text depth')
      (hrest : ReadsBody place depth' (c.advance 1) body d) :
      ReadsBody place depth c (.ofText text ++ body) d
  | backslash {place : Place} {depth : Nat} {c : Cursor} (hnext : c.kindAt 0 = some .backslash) :
      ReadsBody place depth c .nil ((c.reportHere .nothingToEscape).advance 1)
  | comment {place : Place} {depth : Nat} {c : Cursor} (hnext : c.kindAt 0 = some .hash)
      (hends : place.ends .hash = false) : ReadsBody place depth c .nil c.comment
  | bracketed {place : Place} {depth : Nat} {c atClose d : Cursor} {b : Bracket}
      {name body : Phrase.Body} (hnext : c.kindAt 0 = some .dollar)
      (hopen : Bracket.ofOpening? (c.kindAt 1) = some b)
      (hname : ReadsBody (.name b) 0 (c.advance 2) name atClose)
      (hrest : ReadsBody place depth (atClose.closeReference b name) body d) :
      ReadsBody place depth c
        (.ref name (c.advance 2).offset c.offset b.delimiter body) d
  | bare {place : Place} {depth : Nat} {c d : Cursor} {body : Phrase.Body}
      (hnext : c.kindAt 0 = some .dollar) (hopen : Bracket.ofOpening? (c.kindAt 1) = none)
      (hrest : ReadsBody place depth ((c.advance 1).bareName c.offset).2.2 body d) :
      ReadsBody place depth c
        (.ref (.ofText ((c.advance 1).bareName c.offset).1) ((c.advance 1).bareName c.offset).2.1
          c.offset .bare body) d

theorem ReadsBody.ahead (h : ReadsBody place depth c body d) : Ahead c d := by
  induction h with
  | finish hstop => exact Ahead.refl _
  | literal hnext htake hrest ih => exact (ahead_advance _ 1).trans ih
  | backslash hnext => exact (ahead_reportHere _ _).trans (ahead_advance _ 1)
  | comment hnext hends => exact ahead_comment _
  | bracketed hnext hopen hname hrest ihname ih =>
    exact (((ahead_advance _ 2).trans ihname).trans (ahead_closeReference _ _ _)).trans ih
  | bare hnext hopen hrest ih => exact ((ahead_advance _ 1).trans (ahead_bareName _ _)).trans ih

/-- The reader reads what the grammar says, if its bound is large enough. -/
theorem readsBody_readBody (h : c.rest.length ≤ fuel) :
    ReadsBody place depth c (readBody fuel place depth c).1 (readBody fuel place depth c).2 := by
  induction fuel generalizing place depth c with
  | zero =>
    refine .finish ?_
    rw [kindAt_eq_none_iff.mpr (List.length_eq_zero_iff.mp (Nat.le_zero.mp h))]
    exact fun kind hk => nomatch hk
  | succ fuel ih =>
    rw [readBody]
    split
    · next hnil =>
      refine .finish ?_
      rw [kindAt_eq_none_iff.mpr hnil]
      exact fun kind hk => nomatch hk
    · next t ts hcons =>
      have hkind : c.kindAt 0 = some t.kind := kindAt_of_rest hcons
      have hhead : c.rest.head? = some t := by rw [hcons]; rfl
      have hlength : (c.advance 1).rest.length ≤ fuel := by
        have := length_advance_one hcons
        omega
      split
      · next hclosing => exact .literal hhead (.closing hclosing.1 hclosing.2) (ih hlength)
      · next hclosing =>
        split
        · next hends =>
          refine .finish fun kind hk => ?_
          rw [hkind] at hk
          cases hk
          exact ⟨hclosing, Or.inl hends⟩
        · next hends =>
          have hends : place.ends t.kind = false := by simpa using hends
          split
          · next hk =>
            refine .finish fun kind hkk => ?_
            rw [hkind] at hkk
            cases hkk
            exact ⟨hclosing, Or.inr hk⟩
          · next hk => exact .literal hhead (.escape hends hk) (ih hlength)
          · next hk => exact .backslash (hk ▸ hkind)
          · next hk => exact .comment (hk ▸ hkind) (hk ▸ hends)
          · next hk =>
            split
            · next b hb =>
              have hinside : (c.advance 2).rest.length ≤ fuel :=
                Nat.le_trans (length_advance_two c) hlength
              have hname := @ih (.name b) 0 _ hinside
              refine .bracketed (hk ▸ hkind) hb hname (ih ?_)
              exact Nat.le_trans (ahead_closeReference _ _ _).length
                (Nat.le_trans hname.ahead.length hinside)
            · next hb =>
              exact .bare (hk ▸ hkind) hb (ih (Nat.le_trans (ahead_bareName _ _).length hlength))
          · next hnewline hescape hbackslash hhash hdollar =>
            refine .literal hhead (.literal hends ?_) (ih hlength)
            cases hk : t.kind <;> simp_all [Token.Kind.isLiteral]

theorem exists_fuel {t : Token} (hnext : c.rest.head? = some t) (hfuel : c.rest.length ≤ fuel) :
    ∃ fuel' ts, fuel = fuel' + 1 ∧ c.rest = t :: ts ∧ (c.advance 1).rest.length ≤ fuel' := by
  obtain ⟨ts, hcons⟩ := List.head?_eq_some_iff.mp hnext
  have hlt := length_advance_one hcons
  obtain ⟨fuel', rfl⟩ : ∃ fuel', fuel = fuel' + 1 := ⟨fuel - 1, by omega⟩
  exact ⟨fuel', ts, rfl, hcons, by omega⟩

/-- There is one way to read a phrase, and the reader finds it. -/
theorem ReadsBody.eq_readBody (h : ReadsBody place depth c body d) (hfuel : c.rest.length ≤ fuel) :
    readBody fuel place depth c = (body, d) := by
  induction h generalizing fuel with
  | @finish place depth c hstop =>
    cases fuel with
    | zero => rfl
    | succ fuel =>
      rw [readBody]
      split
      · rfl
      · next t ts hcons =>
        obtain ⟨hclosing, hends⟩ := hstop t.kind (kindAt_of_rest hcons)
        rw [if_neg hclosing]
        rcases hends with hends | hnewline
        · rw [if_pos hends]
        · rw [hnewline]
          split <;> rfl
  | @literal place depth depth' c d t text body hnext htake hrest ih =>
    obtain ⟨fuel, ts, rfl, hcons, hlength⟩ := exists_fuel hnext hfuel
    rw [readBody, hcons]
    dsimp only
    cases htake with
    | closing hdepth hcloses => rw [if_pos ⟨hdepth, hcloses⟩, ih hlength]
    | escape hends hkind =>
      rw [if_neg (Place.not_closing hends), if_neg (by simp [hends]), ih hlength]
      simp only [hkind]
    | literal hends hkind =>
      rw [if_neg (Place.not_closing hends), if_neg (by simp [hends])]
      cases hk : t.kind <;> simp_all [Token.Kind.isLiteral]
  | @backslash place depth c hnext =>
    obtain ⟨t, ts, hcons, hk⟩ := exists_of_kindAt hnext
    obtain ⟨fuel, -, rfl, -, -⟩ := exists_fuel (by rw [hcons]; rfl) hfuel
    have hends : place.ends t.kind = false := hk ▸ place.ends_backslash
    rw [readBody, hcons]
    dsimp only
    rw [if_neg (Place.not_closing hends), if_neg (by simp [hends])]
    simp only [hk]
  | @comment place depth c hnext hends =>
    obtain ⟨t, ts, hcons, hk⟩ := exists_of_kindAt hnext
    obtain ⟨fuel, -, rfl, -, -⟩ := exists_fuel (by rw [hcons]; rfl) hfuel
    have hends : place.ends t.kind = false := hk ▸ hends
    rw [readBody, hcons]
    dsimp only
    rw [if_neg (Place.not_closing hends), if_neg (by simp [hends])]
    simp only [hk]
  | @bracketed place depth c atClose d b name body hnext hopen hname hrest ihname ih =>
    obtain ⟨t, ts, hcons, hk⟩ := exists_of_kindAt hnext
    obtain ⟨fuel, -, rfl, -, hlength⟩ := exists_fuel (by rw [hcons]; rfl) hfuel
    have hends : place.ends t.kind = false := hk ▸ place.ends_dollar
    have hinside : (c.advance 2).rest.length ≤ fuel := Nat.le_trans (length_advance_two c) hlength
    have hbehind : (atClose.closeReference b name).rest.length ≤ fuel :=
      Nat.le_trans (ahead_closeReference b name atClose).length
        (Nat.le_trans hname.ahead.length hinside)
    rw [readBody, hcons]
    dsimp only
    rw [if_neg (Place.not_closing hends), if_neg (by simp [hends])]
    simp only [hk, hopen, ihname hinside, ih hbehind]
  | @bare place depth c d body hnext hopen hrest ih =>
    obtain ⟨t, ts, hcons, hk⟩ := exists_of_kindAt hnext
    obtain ⟨fuel, -, rfl, -, hlength⟩ := exists_fuel (by rw [hcons]; rfl) hfuel
    have hends : place.ends t.kind = false := hk ▸ place.ends_dollar
    rw [readBody, hcons]
    dsimp only
    rw [if_neg (Place.not_closing hends), if_neg (by simp [hends])]
    simp only [hk, hopen, ih (Nat.le_trans (ahead_bareName _ _).length hlength)]

theorem reads_phrase (place : Place) (c : Cursor) :
    ReadsBody place 0 c (c.phrase place).1.body (c.phrase place).2 :=
  readsBody_readBody (Nat.le_refl _)

theorem ReadsBody.phrase_eq (h : ReadsBody place 0 c body d) :
    c.phrase place = (⟨c.offset, body⟩, d) := by
  unfold phrase
  rw [h.eq_readBody (Nat.le_refl _)]

theorem ahead_phrase (place : Place) (c : Cursor) : Ahead c (c.phrase place).2 :=
  (reads_phrase place c).ahead

/-! ## Prerequisites -/

/-- **What reading prerequisites does**: they are phrases with colons between them. -/
inductive ReadsPrerequisites : Cursor → Phrase.Body → Cursor → Prop
  | last {c d : Cursor} {body : Phrase.Body} (hbody : ReadsBody .prerequisites 0 c body d)
      (hstop : ¬ (d.kindAt 0 = some .colon ∧ d.kindAt 1 ≠ some .equals)) :
      ReadsPrerequisites c body d
  | more {c mid d : Cursor} {first body : Phrase.Body}
      (hfirst : ReadsBody .prerequisites 0 c first mid)
      (hcolon : mid.kindAt 0 = some .colon ∧ mid.kindAt 1 ≠ some .equals)
      (hrest : ReadsPrerequisites (mid.advance 1) body d) :
      ReadsPrerequisites c (first ++ .char ':' body) d

theorem ReadsPrerequisites.ahead (h : ReadsPrerequisites c body d) : Ahead c d := by
  induction h with
  | last hbody hstop => exact hbody.ahead
  | more hfirst hcolon hrest ih => exact (hfirst.ahead.trans (ahead_advance _ 1)).trans ih

theorem length_advance_lt {kind : Token.Kind} (h : mid.kindAt 0 = some kind) :
    (mid.advance 1).rest.length < mid.rest.length := by
  obtain ⟨t, ts, hcons, -⟩ := exists_of_kindAt h
  exact length_advance_one hcons

theorem readsPrerequisites_prerequisites (h : c.rest.length < fuel) :
    ReadsPrerequisites c (prerequisites fuel c).1 (prerequisites fuel c).2 := by
  induction fuel generalizing c with
  | zero => exact absurd h (Nat.not_lt_zero _)
  | succ fuel ih =>
    have hread := reads_phrase .prerequisites c
    rw [prerequisites]
    dsimp only
    split
    · next hcolon =>
      have hlt := length_advance_lt hcolon.1
      have hle := hread.ahead.length
      exact .more hread hcolon (ih (by omega))
    · next hstop => exact .last hread hstop

theorem ReadsPrerequisites.eq_prerequisites (h : ReadsPrerequisites c body d)
    (hfuel : c.rest.length < fuel) : prerequisites fuel c = (body, d) := by
  induction h generalizing fuel with
  | last hbody hstop =>
    obtain ⟨fuel, rfl⟩ : ∃ k, fuel = k + 1 := ⟨fuel - 1, by omega⟩
    rw [prerequisites, hbody.phrase_eq]
    exact if_neg hstop
  | more hfirst hcolon hrest ih =>
    obtain ⟨fuel, rfl⟩ : ∃ k, fuel = k + 1 := ⟨fuel - 1, by omega⟩
    have hlt := length_advance_lt hcolon.1
    have hle := hfirst.ahead.length
    rw [prerequisites, hfirst.phrase_eq]
    dsimp only
    rw [if_pos hcolon, ih (by omega)]

/-! ## Directives and assignments -/

theorem ahead_defineArguments (c : Cursor) : Ahead c c.defineArguments.2 := by
  have hskip : Ahead c c.skipBlanks := ahead_skipWhile _ c
  unfold defineArguments
  dsimp only
  split
  · exact hskip.trans (ahead_advance _ _)
  · exact (hskip.trans (ahead_reportHere _ _)).trans (ahead_advance _ _)

theorem ahead_directiveArguments (keyword : Keyword) (c : Cursor) :
    Ahead c (c.directiveArguments keyword).2 := by
  unfold directiveArguments
  split
  · exact Ahead.refl c
  · exact Ahead.refl c
  · exact Ahead.refl c
  · exact ahead_defineArguments c
  · exact (ahead_skipWhile _ c).trans (ahead_phrase _ _)

theorem ahead_directive (keyword : Keyword) (c : Cursor) :
    Ahead (c.advance 1) (c.directive keyword) :=
  (ahead_directiveArguments keyword _).trans (ahead_record _ _ _)

/-- An assignment is ahead of its value. -/
theorem ahead_assignment_value (op : AssignOp) (target : Option Phrase) (name : Phrase)
    (c : Cursor) : Ahead ((c.advance 1).phrase .line).2 (c.assignment op target name) := by
  unfold assignment
  dsimp only
  split
  · exact ahead_report _ _ _
  · exact ahead_record _ _ _

theorem ahead_assignment (op : AssignOp) (target : Option Phrase) (name : Phrase) (c : Cursor) :
    Ahead (c.advance 1) (c.assignment op target name) :=
  (ahead_phrase .line (c.advance 1)).trans (ahead_assignment_value op target name c)

theorem exists_of_keyword {keyword : Keyword} (h : c.keyword? = some keyword) :
    ∃ ts, c.rest = ⟨.identifier, keyword.text⟩ :: ts := by
  unfold keyword? at h
  split at h
  · next word ts hcons =>
    have hword : Keyword.ofText? word = some keyword := by
      split at h
      · split at h
        · cases h
        · exact h
      · exact h
    exact ⟨ts, by rw [hcons, Keyword.text_of_ofText? hword]⟩
  · cases h

theorem length_directive_lt {keyword : Keyword} (h : c.keyword? = some keyword) :
    (c.directive keyword).rest.length < c.rest.length := by
  obtain ⟨ts, hcons⟩ := exists_of_keyword h
  exact Nat.lt_of_le_of_lt (ahead_directive keyword c).length (length_advance_one hcons)

/-! ## Recipes -/

/-- The number of line breaks that are next. -/
def breaks (c : Cursor) : Nat := (c.rest.takeWhile fun t => t.kind == .newline).length

/-- **What reading the lines of a recipe does.** -/
inductive ReadsRecipe : Cursor → Text → Cursor → Prop
  | line {c d : Cursor} {lines : Text} (htab : c.kindAt c.breaks = some .tab)
      (hrest : ReadsRecipe (c.advance (c.breaks + 1)).recipeLine.2 lines d) :
      ReadsRecipe c ((c.advance (c.breaks + 1)).recipeLine.1 ++ lines) d
  | directive {c d : Cursor} {lines : Text} {keyword : Keyword}
      (htab : c.kindAt c.breaks ≠ some .tab) (hkeyword : c.keyword? = some keyword)
      (hrest : ReadsRecipe (c.directive keyword).skipBreak lines d) : ReadsRecipe c lines d
  | stop {c : Cursor} (htab : c.kindAt c.breaks ≠ some .tab) (hkeyword : c.keyword? = none) :
      ReadsRecipe c [] c

theorem ahead_recipeLine (c : Cursor) : Ahead c c.recipeLine.2 :=
  (ahead_skipLine c).trans (ahead_advance _ 1)

theorem ReadsRecipe.ahead {text : Text} (h : ReadsRecipe c text d) : Ahead c d := by
  induction h with
  | line htab hrest ih => exact ((ahead_advance _ _).trans (ahead_recipeLine _)).trans ih
  | directive htab hkeyword hrest ih =>
    exact (((ahead_advance _ 1).trans (ahead_directive _ _)).trans (ahead_skipBreak _)).trans ih
  | stop htab hkeyword => exact Ahead.refl _

theorem length_recipeLine_lt (h : c.kindAt c.breaks = some .tab) :
    (c.advance (c.breaks + 1)).recipeLine.2.rest.length < c.rest.length := by
  have hpos : 0 < c.rest.length := by
    cases hr : c.rest with
    | nil => simp [kindAt, hr] at h
    | cons t ts => exact Nat.succ_pos _
  have hadvance : (c.advance (c.breaks + 1)).rest.length = c.rest.length - (c.breaks + 1) :=
    List.length_drop
  have hle := (ahead_recipeLine (c.advance (c.breaks + 1))).length
  omega

theorem length_skipBreak_lt {keyword : Keyword} (h : c.keyword? = some keyword) :
    (c.directive keyword).skipBreak.rest.length < c.rest.length :=
  Nat.lt_of_le_of_lt (ahead_skipBreak _).length (length_directive_lt h)

theorem readsRecipe_recipeLines (h : c.rest.length ≤ fuel) :
    ReadsRecipe c (recipeLines fuel c).1 (recipeLines fuel c).2 := by
  induction fuel generalizing c with
  | zero =>
    have hnil : c.rest = [] := List.length_eq_zero_iff.mp (Nat.le_zero.mp h)
    exact .stop (by simp [kindAt, hnil]) (by simp [keyword?, hnil])
  | succ fuel ih =>
    rw [recipeLines]
    dsimp only
    split
    · next htab =>
      have hlt := length_recipeLine_lt htab
      exact .line htab (ih (by omega))
    · next htab =>
      split
      · next keyword hkeyword =>
        have hlt := length_skipBreak_lt hkeyword
        exact .directive htab hkeyword (ih (by omega))
      · next hkeyword => exact .stop htab hkeyword

theorem ReadsRecipe.eq_recipeLines {text : Text} (h : ReadsRecipe c text d)
    (hfuel : c.rest.length ≤ fuel) : recipeLines fuel c = (text, d) := by
  induction h generalizing fuel with
  | line htab hrest ih =>
    have hlt := length_recipeLine_lt htab
    obtain ⟨fuel, rfl⟩ : ∃ k, fuel = k + 1 := ⟨fuel - 1, by omega⟩
    rw [recipeLines]
    dsimp only
    rw [if_pos (by exact htab)]
    have hlines := ih (Nat.le_of_lt_succ (Nat.lt_of_lt_of_le hlt hfuel))
    exact congrArg (fun p => (_ ++ p.1, p.2)) hlines
  | directive htab hkeyword hrest ih =>
    have hlt := length_skipBreak_lt hkeyword
    obtain ⟨fuel, rfl⟩ : ∃ k, fuel = k + 1 := ⟨fuel - 1, by omega⟩
    rw [recipeLines]
    dsimp only
    rw [if_neg (by exact htab), hkeyword]
    exact ih (by omega)
  | stop htab hkeyword =>
    cases fuel with
    | zero => rfl
    | succ fuel =>
      rw [recipeLines]
      dsimp only
      rw [if_neg (by exact htab), hkeyword]

end Cursor

end MakeBlueprint.Makefile
