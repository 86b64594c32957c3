import MakeBlueprint.Proofs.Reading.Abreast.Documents
import MakeBlueprint.Proofs.Reading.Followed
import MakeBlueprint.Proofs.Reading.Padded.Cursors

/-!
# Phrases at the end of a padded line

A phrase that ends at the line break has the blanks at its end in the padded text; any other phrase
is the same in both texts (`Padding.Extends`).

* `readsBody_blanks`: blanks in front of a line break are read as they are.
* `ReadsBody.beside`, `ReadsPrerequisites.beside`: phrases are read side by side.
* `Extends.trimEnd`, `Extends.trim`: trimmed phrases are the same.
-/

namespace MakeBlueprint.Makefile

open Text (byteSize)
open Token (textOf)

namespace Phrase.Body

/-- White characters at the end do not count when a phrase is trimmed. -/
theorem trim_append_white (b : Body) {w : Text} (hw : ∀ c ∈ w, Text.isWhite c = true) :
    (b ++ ofText w).trimStart.trimEnd = b.trimStart.trimEnd := by
  induction b with
  | nil =>
    have hnil := trimStart_ofText_append hw .nil
    rw [append_nil] at hnil
    rw [nil_append, hnil]
  | char x r ih =>
    rw [char_append, trimStart, trimStart]
    split
    · exact ih
    · exact @trimEnd_append_of_nil (.char x r) (ofText w) (trimEnd_ofText_white hw)
  | ref name m n d r _ ih =>
    exact @trimEnd_append_of_nil (.ref name m n d r) (ofText w) (trimEnd_ofText_white hw)

end Phrase.Body

namespace Padding

open Cursor

variable {t source : Text} {k : Padding t} {place : Place} {depth : Nat} {c c' d d' : Cursor}
  {body body' : Phrase.Body}

/-- **A phrase has the blanks at its end** if it ends at the line break; otherwise it is the same. -/
def Extends (k : Padding t) (d : Cursor) (body body' : Phrase.Body) : Prop :=
  ∃ w, body'.mapPos forget = (body ++ .ofText w).mapPos forget ∧
    (w = [] ∨ w = k.blanks ∧ d.kindAt 0 = some .newline ∧ d.read = k.position)

namespace Extends

theorem white (k : Padding t) : ∀ c ∈ k.blanks, Text.isWhite c = true :=
  fun c hc => Text.isWhite_of_isBlank (k.isBlank c hc)

/-- What stands in front is the same. -/
theorem append {a a' : Phrase.Body} (ha : a'.mapPos forget = a.mapPos forget)
    (h : k.Extends d body body') : k.Extends d (a ++ body) (a' ++ body') := by
  obtain ⟨w, hbody, hw⟩ := h
  refine ⟨w, ?_, hw⟩
  rw [Phrase.Body.append_assoc, Phrase.Body.mapPos_append, Phrase.Body.mapPos_append, ha, hbody]

/-- A phrase that does not end at a line break is the same. -/
theorem eq_of_ne (h : k.Extends d body body') (hnext : d.kindAt 0 ≠ some .newline) :
    body'.mapPos forget = body.mapPos forget := by
  obtain ⟨w, hbody, rfl | ⟨-, hnewline, -⟩⟩ := h
  · rwa [Phrase.Body.ofText, Phrase.Body.append_nil] at hbody
  · exact absurd hnewline hnext

theorem trimEnd (h : k.Extends d body body') (m m' : Nat) :
    (Phrase.trimEnd ⟨m', body'⟩).mapPos forget = (Phrase.trimEnd ⟨m, body⟩).mapPos forget := by
  obtain ⟨w, hbody, hw⟩ := h
  have hwhite : ∀ c ∈ w, Text.isWhite c = true := by
    rcases hw with rfl | ⟨rfl, -⟩
    · exact nofun
    · exact white k
  have hforget : (Phrase.trimEnd ⟨m', body'⟩).mapPos forget =
      (Phrase.trimEnd ⟨m, body ++ .ofText w⟩).mapPos forget :=
    Phrase.trimEnd_forget (Phrase.mapPos_forget_iff.mpr hbody)
  rw [hforget, Phrase.trimEnd, Phrase.trimEnd,
    Phrase.Body.trimEnd_append_of_nil (Phrase.Body.trimEnd_ofText_white hwhite)]

theorem trim (h : k.Extends d body body') (m m' : Nat) :
    (Phrase.trim ⟨m', body'⟩).mapPos forget = (Phrase.trim ⟨m, body⟩).mapPos forget := by
  obtain ⟨w, hbody, hw⟩ := h
  have hwhite : ∀ c ∈ w, Text.isWhite c = true := by
    rcases hw with rfl | ⟨rfl, -⟩
    · exact nofun
    · exact white k
  have hforget : (Phrase.trim ⟨m', body'⟩).mapPos forget =
      (Phrase.trim ⟨m, body ++ .ofText w⟩).mapPos forget := Phrase.trim_forget hbody
  rw [hforget, Phrase.mapPos_forget_iff]
  exact congrArg _ (Phrase.Body.trim_append_white body hwhite)

end Extends

/-- **What a phrase comes to in both texts.** Unless a comment ends it, the same token is next. -/
structure Reaches (k : Padding t) (place : Place) (body body' : Phrase.Body) (d d' : Cursor) :
    Prop where
  beside : k.Beside d d'
  body : k.Extends d body body'
  next : d'.kindAt 0 = d.kindAt 0 ∨
    place.ends .hash = false ∧ ∃ q ∈ d.comments, q.2.stop = d.read

theorem Reaches.append {a a' : Phrase.Body} (h : k.Reaches place body body' d d')
    (ha : a'.mapPos forget = a.mapPos forget) :
    k.Reaches place (a ++ body) (a' ++ body') d d' :=
  ⟨h.beside, h.body.append ha, h.next⟩

/-- Where phrases end at a comment, the same token is next. -/
theorem Reaches.kindAt (h : k.Reaches place body body' d d') (hends : place.ends .hash = true) :
    d'.kindAt 0 = d.kindAt 0 :=
  h.next.resolve_right fun hcomment => by
    rw [hends] at hcomment
    cases hcomment.1

/-- **Blanks in front of a line break** are read as they are. -/
theorem readsBody_blanks {w : Text} {u : Token} {us : List Token}
    (hw : ∀ x ∈ w, Text.isBlank x = true) (hu : u.kind = .newline)
    (hrest : c.rest = Token.lex w ++ u :: us) :
    ReadsBody place depth c (.ofText w) (c.advance (Token.lex w).length) := by
  induction w generalizing c with
  | nil =>
    have hkind : c.kindAt 0 = some u.kind := kindAt_of_rest hrest
    have hcloses : place.closes .newline = false := by
      cases place with
      | name b => cases b <;> rfl
      | head | prerequisites | line => rfl
    refine .finish fun kind hk => ?_
    rw [hkind, hu] at hk
    cases hk
    exact ⟨fun hopen => Bool.false_ne_true (hcloses.symm.trans hopen.2), .inr rfl⟩
  | cons x w ih =>
    obtain ⟨hx, hw⟩ := List.forall_mem_cons.mp hw
    rw [Token.lex_cons_blank hx] at hrest ⊢
    have hbehind : (c.advance 1).rest = Token.lex w ++ u :: us := congrArg (List.drop 1) hrest
    have hread := ih hw hbehind
    rw [advance_advance, Nat.add_comm] at hread
    have htake := @Place.takes_of_isBlank place depth ⟨Token.blankKind x, [x]⟩
      (Token.isBlank_blankKind x)
    exact .literal (congrArg List.head? hrest) htake hread

/-- A phrase that comes to the line break goes on over the blanks in the padded text. -/
theorem Faces.readsBody (h : k.Faces c c') (hc : k.Beside c c') :
    ReadsBody place depth c' (.ofText k.blanks) (c'.advance (Token.lex k.blanks).length) ∧
      k.Reaches place .nil (.ofText k.blanks) c (c'.advance (Token.lex k.blanks).length) := by
  refine ⟨readsBody_blanks k.isBlank k.kind_eq h.rest', ?_⟩
  obtain ⟨hrest, hread⟩ := advance_length h.rest'
  rw [← h.rest] at hrest
  rw [Token.textOf_lex, h.read', ← h.read] at hread
  have hbehind := hc.congr (.behind hrest (Nat.le_of_eq h.read.symm) hread) ⟨rfl, rfl⟩ ⟨rfl, rfl⟩
    ⟨rfl, rfl⟩
  refine ⟨hbehind, ⟨k.blanks, rfl, .inr ⟨rfl, h.kindAt, h.read⟩⟩, .inl ?_⟩
  unfold Cursor.kindAt
  rw [hrest]

end Padding

namespace Cursor

open Padding

variable {t source : Text} {k : Padding t} {place : Place} {depth : Nat} {c c' d d' : Cursor}
  {body body' : Phrase.Body}

/-- **A phrase that is read in the text is read in the padded text**, with the blanks if it ends at
the line break. -/
theorem ReadsBody.beside (h : ReadsBody place depth c body d) (hc : k.Beside c c')
    (hstands : StandsIn source c) (hd : k.Clear d) :
    ∃ body' d', ReadsBody place depth c' body' d' ∧ k.Reaches place body body' d d' := by
  induction h generalizing c' with
  | @finish place depth c hstop =>
    rcases hc.rests.kindAt_or with heq | hfaces
    · exact ⟨.nil, c', .finish (heq ▸ hstop), hc, ⟨[], rfl, .inl rfl⟩, .inl heq⟩
    · exact ⟨_, _, hfaces.readsBody hc⟩
  | @literal place depth depth' c d u text body hnext htake hrest ih =>
    have hne : c.kindAt 0 ≠ some .newline := by
      obtain ⟨us, hcons⟩ := List.head?_eq_some_iff.mp hnext
      rw [kindAt_of_rest hcons]
      exact fun hk => ne_newline_of_takes htake (Option.some.inj hk)
    obtain ⟨body', d', hread, hreach⟩ := ih (hc.advance_of_ne hne) (hstands.advance 1) hd
    exact ⟨_, d', .literal ((hc.rests.head?_eq hne).trans hnext) htake hread, hreach.append rfl⟩
  | @backslash place depth c hnext => 
    exact absurd hd.faults (faults_report_ne_nil c _ _)
  | @comment place depth c hnext hends =>
    obtain ⟨text, hfinds⟩ := finds_comment hstands hnext
    have hmem : (Content.comment text, (⟨c.read, c.comment.read⟩ : Span)) ∈ c.comment.comments :=
      hfinds.comments ▸ List.mem_append_right _ (List.mem_singleton_self _)
    have hbeside := hc.comment hstands hnext (hd.comments _ hmem)
    have hnext' := (hc.rests.kindAt_iff (by nofun) rfl).mpr hnext
    exact ⟨.nil, _, .comment hnext' hends, hbeside, ⟨[], rfl, .inl rfl⟩, .inr ⟨hends, _, hmem, rfl⟩⟩
  | @bracketed place depth c atClose d b name body hnext hopen hname hrest ihname ih =>
    obtain ⟨cs, hfindsName, -⟩ := hname.finds (hstands.advance 2)
    have hstandsClose := hfindsName.stands.closeReference b name
    obtain ⟨cs', hfinds, -⟩ := hrest.finds hstandsClose
    have hclosed := hd.of_finds hfinds
    have hatClose := hclosed.of_finds (finds_closeReference hfindsName.stands b name)
    have hne : c.kindAt 0 ≠ some .newline := by
      rw [hnext]
      nofun
    have hfirst := hc.advance_of_ne hne
    obtain ⟨kind, hkind, hkindne⟩ := ne_newline_of_opening hopen
    have hsecond : k.Beside (c.advance 2) (c'.advance 2) := by
      rw [← advance_advance c 1 1, ← advance_advance c' 1 1]
      refine hfirst.advance_of_ne ?_
      rw [kindAt_advance, hkind]
      exact fun heq => hkindne (Option.some.inj heq)
    have hopen' : Bracket.ofOpening? (c'.kindAt 1) = some b := by
      have heq := hfirst.rests.kindAt_eq (by
        rw [kindAt_advance, hkind]
        exact fun heq => hkindne (Option.some.inj heq))
      rw [kindAt_advance, kindAt_advance] at heq
      rw [heq, hopen]
    obtain ⟨name', atClose', hname', hreachName⟩ := ihname hsecond (hstands.advance 2) hatClose
    obtain ⟨hclose, hbehind⟩ := hreachName.beside.closeReference b name name' hclosed.faults
    obtain ⟨body', d', hread, hreach⟩ := ih hbehind hstandsClose hd
    have hsame := hreachName.body.eq_of_ne (by rw [hclose]; cases b <;> nofun)
    refine ⟨_, d', .bracketed ((hc.rests.kindAt_eq hne).trans hnext) hopen' hname' hread, ?_⟩
    refine @Reaches.append _ _ _ _ _ _ _ (.ref name _ _ _ .nil) (.ref name' _ _ _ .nil) hreach ?_
    simp only [Phrase.Body.mapPos, hsame, forget]
  | @bare place depth c d body hnext hopen hrest ih =>
    obtain ⟨cs, hfinds, -⟩ := hrest.finds ((hstands.advance 1).bareName _)
    have hnamed := hd.of_finds hfinds
    have hne : c.kindAt 0 ≠ some .newline := by
      rw [hnext]
      nofun
    have hfirst := hc.advance_of_ne hne
    obtain ⟨hnewline, hname, hbehind⟩ := hfirst.bareName c.offset c'.offset hnamed.faults
    obtain ⟨body', d', hread, hreach⟩ := ih hbehind ((hstands.advance 1).bareName _) hd
    have hsecond := hfirst.rests.kindAt_eq hnewline
    rw [kindAt_advance, kindAt_advance] at hsecond
    have hopen' : Bracket.ofOpening? (c'.kindAt 1) = none := hsecond ▸ hopen
    refine ⟨_, d', .bare ((hc.rests.kindAt_eq hne).trans hnext) hopen' hread, ?_⟩
    refine @Reaches.append _ _ _ _ _ _ _ (.ref (.ofText ((c.advance 1).bareName c.offset).1) _ _ _ .nil)
      (.ref (.ofText ((c'.advance 1).bareName c'.offset).1) _ _ _ .nil) hreach ?_
    simp only [Phrase.Body.mapPos, hname, forget]

/-- **Prerequisites** end at the line break as phrases do. -/
theorem ReadsPrerequisites.beside (h : ReadsPrerequisites c body d) (hc : k.Beside c c')
    (hstands : StandsIn source c) (hd : k.Clear d) :
    ∃ body' d', ReadsPrerequisites c' body' d' ∧ k.Reaches .prerequisites body body' d d' := by
  have hcolon : ∀ {e e' : Cursor}, k.Beside e e' →
      (e'.kindAt 0 = some .colon ∧ e'.kindAt 1 ≠ some .equals ↔
        e.kindAt 0 = some .colon ∧ e.kindAt 1 ≠ some .equals) := by
    intro e e' he
    rw [he.rests.kindAt_iff (nofun : Token.Kind.colon ≠ .newline) rfl]
    refine and_congr_right fun hfirst => not_congr ?_
    exact he.rests.kindAt_one_iff (by rw [hfirst]; nofun) nofun rfl
  induction h generalizing c' with
  | last hbody hstop =>
    obtain ⟨body', d', hread, hreach⟩ := hbody.beside hc hstands hd
    exact ⟨body', d', .last hread (mt (hcolon hreach.beside).mp hstop), hreach⟩
  | @more c mid d first body hfirst hmore hrest ih =>
    obtain ⟨cs, hfindsFirst, -⟩ := hfirst.finds hstands
    have hstandsMid := hfindsFirst.stands
    obtain ⟨cs', hfinds⟩ := hrest.finds (hstandsMid.advance 1)
    have hmid := (hd.of_finds hfinds).of_finds (finds_advance hstandsMid 1)
    have hne : mid.kindAt 0 ≠ some .newline := by
      rw [hmore.1]
      nofun
    obtain ⟨first', mid', hread, hreach⟩ := hfirst.beside hc hstands hmid
    obtain ⟨body', d', hread', hreach'⟩ :=
      ih (hreach.beside.advance_of_ne hne) (hstandsMid.advance 1) hd
    refine ⟨_, d', .more hread ((hcolon hreach.beside).mpr hmore) hread', ?_⟩
    exact (@Reaches.append _ _ _ _ _ _ _ (.char ':' .nil) (.char ':' .nil) hreach' rfl).append
      (hreach.body.eq_of_ne hne)

end Cursor

end MakeBlueprint.Makefile
