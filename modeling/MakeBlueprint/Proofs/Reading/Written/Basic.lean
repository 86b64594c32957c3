import MakeBlueprint.Proofs.Reading.Writable

/-!
# Reading what was written

The makefile text of a statement that can be written is read as that statement, up to positions.
`ReadsAgain` says so of the statement at a cursor.

* `StartsLine.append`, `keyword?_of_text`: what is written is taken for a directive when it is one.
* `statement_of_target`, `reads_pieces`: a target, and what is written behind its colon.
-/

namespace MakeBlueprint.Makefile

open Text (IsPlain)
open Token (lex kindOf isLetter)
open Phrase (Body)

variable {s t u v n : Text}

/-! ## Beginnings of lines -/

/-- What a class of elements ends at, inside a list, does not depend on what follows. -/
theorem takeWhile_append_of_dropWhile {α : Type} {p : α → Bool} {l : List α}
    (h : l.dropWhile p ≠ []) (l' : List α) :
    (l ++ l').takeWhile p = l.takeWhile p ∧ (l ++ l').dropWhile p = l.dropWhile p ++ l' := by
  have hempty : ¬ (l.dropWhile p).isEmpty = true := by simpa using h
  have hdrop : (l ++ l').dropWhile p = l.dropWhile p ++ l' := by
    rw [List.dropWhile_append, if_neg hempty]
  refine ⟨List.append_cancel_right (?_ : _ ++ (l.dropWhile p ++ l') = _), hdrop⟩
  rw [← hdrop, List.takeWhile_append_dropWhile, hdrop, ← List.append_assoc,
    List.takeWhile_append_dropWhile]

theorem forall_mem_head?_append {p : Char → Prop} (hs : ∀ x ∈ s.head?, p x)
    (ht : ∀ x ∈ t.head?, p x) : ∀ x ∈ (s ++ t).head?, p x := by
  cases s with
  | nil => exact ht
  | cons y s => exact hs

/-- A line that is no directive is none with another end, if that denies one. -/
theorem wordKeyword?_append (h : wordKeyword? (n ++ u) = none)
    (hletter : ∀ x ∈ v.head?, isLetter x = false)
    (hdenies : ∃ x ∈ (v.dropWhile fun x => (kindOf x).isBlank).head?,
      (kindOf x).deniesDirective = true) : wordKeyword? (n ++ v) = none := by
  by_cases hnil : (n.dropWhile isLetter).dropWhile (fun x => (kindOf x).isBlank) = []
  · -- The first word is all there is, so what denies it is behind it.
    obtain ⟨x, hx, hdeny⟩ := hdenies
    unfold wordKeyword?
    rw [dropWhile_append_of_head? hletter, List.dropWhile_append, hnil, List.isEmpty_nil,
      if_pos rfl, Option.mem_def.mp hx]
    exact if_pos hdeny
  · have hne : n.dropWhile isLetter ≠ [] := by
      intro hword
      rw [hword] at hnil
      exact hnil rfl
    obtain ⟨x, r, hcons⟩ := List.exists_cons_of_ne_nil hnil
    obtain ⟨hword, hrest⟩ := takeWhile_append_of_dropWhile hne u
    obtain ⟨hword', hrest'⟩ := takeWhile_append_of_dropWhile hne v
    unfold wordKeyword? at h ⊢
    rw [hword', hrest', (takeWhile_append_of_dropWhile hnil v).2, hcons]
    rw [hword, hrest, (takeWhile_append_of_dropWhile hnil u).2, hcons] at h
    exact h

/-- A text that starts a line may be followed by an operator or by a colon. -/
theorem StartsLine.append (h : StartsLine n) (hletter : ∀ x ∈ v.head?, isLetter x = false)
    (hdenies : ∃ x ∈ (v.dropWhile fun x => (kindOf x).isBlank).head?,
      (kindOf x).deniesDirective = true) : wordKeyword? (n ++ v) = none := by
  obtain ⟨u, hu, -⟩ := h
  exact wordKeyword?_append hu hletter hdenies

namespace Keyword

theorem isLetter_text (keyword : Keyword) : ∀ x ∈ keyword.text, isLetter x = true :=
  List.all_eq_true.mp (by cases keyword <;> decide)

theorem isPlain_text (keyword : Keyword) : IsPlain keyword.text := by
  cases keyword <;> decide

end Keyword

namespace Cursor

variable {c d : Cursor} {keyword : Keyword} {body : Body}

/-- A keyword with something behind it that is no operator. -/
theorem keyword?_of_text (hc : c.rest = lex (keyword.text ++ u)) (hplain : IsPlain u)
    (hletter : ∀ x ∈ u.head?, isLetter x = false)
    (hdenies : ∀ x ∈ (u.dropWhile fun x => (kindOf x).isBlank).head?,
      (kindOf x).deniesDirective = false) :
    c.keyword? = some keyword ∧ c.advance 1 = c.upTo keyword.text u := by
  have hwhole : IsPlain (keyword.text ++ u) :=
    Text.isPlain_append.mpr ⟨keyword.isPlain_text, hplain⟩
  have hword : keyword.text.takeWhile isLetter = keyword.text :=
    List.takeWhile_eq_self_iff.mpr keyword.isLetter_text
  have hbehind : keyword.text.dropWhile isLetter = [] :=
    List.dropWhile_eq_nil_iff.mpr keyword.isLetter_text
  have hkeyword : c.keyword? = some keyword := by
    rw [keyword?_eq hc hwhole]
    unfold wordKeyword?
    rw [takeWhile_append_of_head? hletter, dropWhile_append_of_head? hletter, hword, hbehind,
      List.nil_append, Keyword.ofText?_text]
    split
    · next x hx => exact if_neg (by simp [hdenies x hx])
    · rfl
  obtain ⟨v, hv, hone, -⟩ := exists_of_keyword?_eq hc hwhole hkeyword
  obtain rfl := List.append_cancel_left hv
  exact ⟨hkeyword, hone⟩

/-! ## Reading again -/

/-- **One statement was read**, which is the given one up to positions, and nothing else. -/
structure ReadsAgain (content : Content) (c d : Cursor) : Prop where
  rest : d.skipSpace.rest = []
  comments : d.comments = c.comments
  faults : d.faults = c.faults
  statement : ∃ content' span, d.statements = c.statements ++ [(content', span)] ∧
    content'.mapPos (fun _ => 0) = content.mapPos (fun _ => 0)

theorem skipSpace_lex_break (hc : c.rest = lex ['\n']) : c.skipSpace.rest = [] := by
  unfold skipSpace skipWhile advance
  rw [hc]
  rfl

/-- A statement that is recorded at the end of the last line. -/
theorem readsAgain_record_end {content content' : Content} (c : Cursor) (v : Text) (start : Nat)
    (hend : u = [] ∨ u = ['\n']) (h : content'.mapPos (fun _ => 0) = content.mapPos (fun _ => 0)) :
    ReadsAgain content c ((c.upTo v u).record content' start) := by
  refine ⟨?_, rfl, rfl, content', _, rfl, h⟩
  rcases hend with rfl | rfl
  · rfl
  · exact skipSpace_lex_break rfl

/-- A statement that is recorded in front of a line break. -/
theorem readsAgain_record {content content' : Content} (c : Cursor) (v : Text) (start : Nat)
    (h : content'.mapPos (fun _ => 0) = content.mapPos (fun _ => 0)) :
    ReadsAgain content c ((c.upTo v ['\n']).record content' start) :=
  readsAgain_record_end c v start (Or.inr rfl) h

theorem ReadsAgain.of_upTo {content : Content} (h : ReadsAgain content (c.upTo v u) d) :
    ReadsAgain content c d := ⟨h.rest, h.comments, h.faults, h.statement⟩

/-- What is trimmed when it is written is the same when it is read and trimmed. -/
theorem trimEnd_of_mapPos_eq {p : Phrase}
    (h : body.mapPos (fun _ => 0) = p.body.mapPos (fun _ => 0)) (htrim : p.body.trimEnd = p.body)
    (pos : Nat) : (Phrase.trimEnd ⟨pos, body⟩).mapPos (fun _ => 0) = p.mapPos (fun _ => 0) := by
  have hbody : body.trimEnd.mapPos (fun _ => 0) = p.body.mapPos (fun _ => 0) := by
    rw [← Body.trimEnd_mapPos, h, Body.trimEnd_mapPos, htrim]
  exact congrArg (Phrase.mk 0) hbody

/-! ## Targets -/

/-- A target with a colon and a blank behind it. -/
theorem statement_of_target {target : Body} (htarget : target.IsHead)
    (hc : c.rest = lex (target.dump ++ ':' :: ' ' :: s))
    (hplain : IsPlain (target.dump ++ ':' :: ' ' :: s)) :
    ∃ target', c.statement = (c.upTo (target.dump ++ [':']) (' ' :: s)).rule ⟨c.offset, target'⟩ ∧
      target'.mapPos (fun _ => 0) = target.mapPos (fun _ => 0) := by
  have hkeyword : c.keyword? = none := by
    rw [keyword?_eq hc hplain]
    exact htarget.startsLine.append (by rintro x ⟨⟩; rfl) ⟨':', rfl, rfl⟩
  obtain ⟨target', hread, hsame⟩ := reads_of_fits htarget.fits hc hplain (by
    rintro y ⟨⟩
    exact Place.stops_zero (Or.inl rfl))
  have hplainRest := (Text.isPlain_append.mp hplain).2
  have hone : (c.upTo target.dump (':' :: ' ' :: s)).kindAt 1 = some .whitespace :=
    kindAt_one_eq rfl hplainRest (by decide)
  have hcolons := ReadsColons.single (kindAt_zero_eq rfl hplainRest)
    (by rw [hone]; nofun) (by rw [hone]; nofun)
  refine ⟨target', ?_, hsame⟩
  rw [(ReadsStatement.rule hkeyword hread hcolons).eq_statement,
    advance_one_eq rfl hplainRest (by decide), upTo_upTo]

theorem skipBlanks_append (hc : c.rest = lex (s ++ u)) (hplain : IsPlain (s ++ u))
    (hblank : ∀ x ∈ s, (kindOf x).isBlank = true)
    (hhead : ∀ x ∈ u.head?, (kindOf x).isBlank = false) : c.skipBlanks = c.upTo s u := by
  have hskip : c.skipBlanks = c.upTo ((s ++ u).takeWhile fun x => (kindOf x).isBlank)
      ((s ++ u).dropWhile fun x => (kindOf x).isBlank) := skipWhile_eq rfl hc hplain
  rw [takeWhile_append_of_head? hhead, dropWhile_append_of_head? hhead,
    List.takeWhile_eq_self_iff.mpr hblank, List.dropWhile_eq_nil_iff.mpr hblank] at hskip
  exact hskip

/-- Prerequisites behind a blank. -/
theorem reads_pieces (hfits : FitsPieces body) (hc : c.rest = lex (' ' :: (body.dump ++ u)))
    (hplain : IsPlain (' ' :: (body.dump ++ u)))
    (hhead : ∀ x ∈ (body.dump ++ u).head?, (kindOf x).isBlank = false)
    (hstop : ∀ y ∈ u.head?, Place.prerequisites.Stops 0 (kindOf y))
    (hcolon : ∀ v, u = ':' :: v → ∃ w, v = '=' :: w)
    (hequals : ∀ v, u = '=' :: v → body.dump.getLast? ≠ some ':') :
    ∃ body', ReadsPrerequisites c.skipBlanks body' (c.upTo (' ' :: body.dump) u) ∧
      body'.mapPos (fun _ => 0) = body.mapPos (fun _ => 0) := by
  obtain ⟨body', hread, hsame⟩ := reads_of_fitsPieces (c := c.upTo [' '] (body.dump ++ u)) hfits rfl
    (isPlain_tail hplain) hstop hcolon hequals
  rw [skipBlanks_append (s := [' ']) hc hplain (List.forall_mem_singleton.mpr rfl) hhead]
  rw [upTo_upTo] at hread
  exact ⟨body', hread, hsame⟩

end Cursor

end MakeBlueprint.Makefile
