import MakeBlueprint.Proofs.Reading.Fits
import MakeBlueprint.Proofs.Reading.Positions

/-!
# Reading phrases of plain texts

`Fits` is what reading a phrase and writing it have in common.

* `reads_of_fits`: the makefile text of a phrase that fits is read as that phrase, up to positions.
* `ReadsBody.fits`: a phrase that is read in plain text without a fault fits its place, and the
  text that was read is its makefile text.
* `reads_of_fitsPieces`, `ReadsPrerequisites.fits`: the same of prerequisites.
-/

namespace MakeBlueprint.Makefile

open Text (IsPlain)
open Token (lex kindOf)
open Phrase (Body)

variable {place : Place} {depth mid depth' : Nat} {body : Body} {x : Char} {s u : Text}

namespace Cursor

variable {c d : Cursor}

/-! ## Reading what fits -/

/-- A letter in front of a phrase. -/
theorem ReadsBody.letter (h : ReadsBody place depth (c.upTo [x] s) body d)
    (hc : c.rest = lex (x :: s)) (hplain : IsPlain (x :: s)) (hx : kindOf x = .identifier) :
    ReadsBody place depth c (.char x body) d := by
  rw [Token.lex_letter hplain hx] at hc
  unfold Token.consIdentifier at hc
  split at hc
  · next w ts hword =>
    -- The letter joins the word with which the phrase begins.
    have hrest : (c.upTo [x] s).rest = ⟨.identifier, w⟩ :: ts := hword
    have hkind : (c.upTo [x] s).kindAt 0 = some .identifier := kindAt_of_rest hrest
    cases h with
    | finish hstop =>
      rcases (hstop _ hkind).2 with hends | hnewline
      · rw [place.ends_identifier] at hends
        cases hends
      · cases hnewline
    | literal hnext htake hbehind =>
      rw [hrest] at hnext
      cases hnext
      obtain ⟨htext, hdepth⟩ := htake.eq_of_word
      have hadvance : (c.upTo [x] s).advance 1 = c.advance 1 := by
        unfold advance
        rw [hrest, hc]
        simp [upTo, Token.textOf, Text.byteSize, Nat.add_assoc]
      rw [hadvance, hdepth] at hbehind
      have hhead : c.rest.head? = some ⟨.identifier, x :: w⟩ := by rw [hc]; rfl
      rw [htext]
      exact .literal hhead (place.takes_word depth _) hbehind
    | backslash hnext =>
      rw [hkind] at hnext
      cases hnext
    | comment hnext hends =>
      rw [hkind] at hnext
      cases hnext
    | bracketed hnext hopen hname hbehind =>
      rw [hkind] at hnext
      cases hnext
    | bare hnext hopen hbehind =>
      rw [hkind] at hnext
      cases hnext
  · have hone : c.rest = [Token.mk .identifier [x]] ++ lex s := hc
    have hadvance : c.advance 1 = c.upTo [x] s := advance_tokens hone
    have hhead : c.rest.head? = some ⟨.identifier, [x]⟩ := by rw [hone]; rfl
    rw [← hadvance] at h
    exact .literal hhead (place.takes_word depth _) h

/-- A character in front of a phrase. -/
theorem ReadsBody.char (h : ReadsBody place mid (c.upTo [x] s) body d) (hc : c.rest = lex (x :: s))
    (hplain : IsPlain (x :: s)) (htake : place.Takes depth ⟨kindOf x, [x]⟩ [x] mid) :
    ReadsBody place depth c (.char x body) d := by
  by_cases hx : kindOf x = .identifier
  · rw [hx] at htake
    obtain ⟨-, rfl⟩ := htake.eq_of_word
    exact h.letter hc hplain hx
  · have hhead : c.rest.head? = some ⟨kindOf x, [x]⟩ := by
      rw [hc, Token.lex_single hplain hx]
      rfl
    rw [← advance_one_eq hc hplain hx] at h
    exact .literal hhead htake h

theorem isPlain_tail (h : IsPlain (x :: s)) : IsPlain s := (Text.isPlain_cons.mp h).2

/-- A reference in brackets in front of a phrase. -/
theorem ReadsBody.upTo_bracketed {b : Bracket} {name : Body} {t : Text}
    (hrest : ReadsBody place depth (c.upTo (['$', b.openingChar] ++ t ++ [b.closingChar]) s) body d)
    (hname : ReadsBody (.name b) 0 (c.upTo ['$', b.openingChar] (t ++ b.closingChar :: s)) name
      (c.upTo (['$', b.openingChar] ++ t) (b.closingChar :: s)))
    (hc : c.rest = lex ('$' :: b.openingChar :: (t ++ b.closingChar :: s)))
    (hplain : IsPlain ('$' :: b.openingChar :: (t ++ b.closingChar :: s))) :
    ∃ m n, ReadsBody place depth c (.ref name m n b.delimiter body) d := by
  have hopening : kindOf b.openingChar ≠ .identifier := by cases b <;> decide
  have hclosing : kindOf b.closingChar ≠ .identifier := by cases b <;> decide
  have hinside := isPlain_tail hplain
  have hclose : IsPlain (b.closingChar :: s) := (Text.isPlain_append.mp (isPlain_tail hinside)).2
  have htwo : c.advance 2 = c.upTo ['$', b.openingChar] (t ++ b.closingChar :: s) := by
    rw [← advance_advance c 1 1, advance_one_eq hc hplain (by decide),
      advance_one_eq rfl hinside hopening, upTo_upTo]
    rfl
  have hclosed : (c.upTo (['$', b.openingChar] ++ t) (b.closingChar :: s)).closeReference b name =
      c.upTo (['$', b.openingChar] ++ t ++ [b.closingChar]) s := by
    unfold closeReference
    rw [if_pos, advance_one_eq rfl hclose hclosing, upTo_upTo]
    rw [kindAt_zero_eq rfl hclose, Token.kindOf_closingChar]
  have hopen : Bracket.ofOpening? (c.kindAt 1) = some b := by
    rw [kindAt_one_eq hc hplain (by decide), Token.kindOf_openingChar]
    cases b <;> rfl
  rw [← htwo] at hname
  rw [← hclosed] at hrest
  exact ⟨_, _, .bracketed (kindAt_zero_eq hc hplain) hopen hname hrest⟩

/-- A reference without brackets in front of a phrase. -/
theorem ReadsBody.upTo_bare {name : Text} {pos : Nat}
    (hrest : ReadsBody place depth (c.upTo ['$', x] s) body d) (hc : c.rest = lex ('$' :: x :: s))
    (hplain : IsPlain ('$' :: x :: s)) (hopen : Bracket.ofOpening? (some (kindOf x)) = none)
    (hname : (c.upTo ['$'] (x :: s)).bareName c.offset = (name, pos, c.upTo ['$', x] s)) :
    ReadsBody place depth c (.ref (.ofText name) pos c.offset .bare body) d := by
  rw [← advance_one_eq hc hplain (by decide)] at hname
  have hnext : Bracket.ofOpening? (c.kindAt 1) = none := by
    rw [kindAt_one_eq hc hplain (by decide)]
    exact hopen
  have hread := @ReadsBody.bare place depth c d body (kindAt_zero_eq hc hplain) hnext
    (by rw [hname]; exact hrest)
  rwa [hname] at hread

/-- **What fits a place is read there**, up to a text that ends the phrase. -/
theorem reads_of_fits (h : Fits place depth body depth') (hc : c.rest = lex (body.dump ++ u))
    (hplain : IsPlain (body.dump ++ u))
    (hstop : ∀ y ∈ u.head?, place.Stops depth' (kindOf y)) :
    ∃ body', ReadsBody place depth c body' (c.upTo body.dump u) ∧
      body'.mapPos (fun _ => 0) = body.mapPos (fun _ => 0) := by
  induction h generalizing c u with
  | @nil place depth =>
    refine ⟨.nil, ?_, rfl⟩
    have hsame : c.upTo Body.nil.dump u = c := upTo_nil hc
    rw [hsame]
    refine .finish fun kind hkind => ?_
    cases u with
    | nil =>
      rw [kindAt_zero_eq_none hc] at hkind
      cases hkind
    | cons y u =>
      rw [kindAt_zero_eq hc hplain] at hkind
      cases hkind
      exact hstop y rfl
  | @char place depth mid depth' x r hx htake hrest ih =>
    obtain ⟨body', hread, hsame⟩ := @ih u (c.upTo [x] (r.dump ++ u)) rfl (isPlain_tail hplain) hstop
    rw [upTo_upTo] at hread
    exact ⟨.char x body', hread.char hc hplain htake, congrArg (Body.char x) hsame⟩
  | @bracketed place depth depth' m n b name r hname hrest ihname ih =>
    have htext : ['$', b.openingChar] ++ name.dump ++ [b.closingChar] ++ r.dump ++ u =
        '$' :: b.openingChar :: (name.dump ++ b.closingChar :: (r.dump ++ u)) := by
      simp
    rw [Body.dump_bracketed] at hc hplain ⊢
    rw [htext] at hc hplain
    have hbehind := isPlain_tail (isPlain_tail hplain)
    obtain ⟨name', hname', hsameName⟩ := @ihname (b.closingChar :: (r.dump ++ u))
      (c.upTo ['$', b.openingChar] (name.dump ++ b.closingChar :: (r.dump ++ u))) rfl hbehind (by
        rintro y ⟨⟩
        rw [Token.kindOf_closingChar]
        exact Place.stops_zero (Or.inl (by cases b <;> rfl)))
    obtain ⟨r', hread, hsame⟩ := @ih u
      (c.upTo (['$', b.openingChar] ++ name.dump ++ [b.closingChar]) (r.dump ++ u)) rfl
      (isPlain_tail (Text.isPlain_append.mp hbehind).2) hstop
    rw [upTo_upTo] at hname' hread
    obtain ⟨m', n', hwhole⟩ := hread.upTo_bracketed hname' hc hplain
    exact ⟨_, hwhole, by simp only [Body.mapPos, hsameName, hsame]⟩
  | @dollar place depth depth' m n r hrest ih =>
    rw [Body.dump_dollar] at hc hplain ⊢
    have hbehind := isPlain_tail hplain
    obtain ⟨r', hread, hsame⟩ := @ih u (c.upTo ['$', '$'] (r.dump ++ u)) rfl (isPlain_tail hbehind)
      hstop
    rw [upTo_upTo] at hread
    have hname := @bareName_dollar _ (c.upTo ['$'] ('$' :: (r.dump ++ u))) c.offset rfl hbehind
    rw [upTo_upTo] at hname
    exact ⟨_, hread.upTo_bare hc hplain rfl hname,
      by simp only [Body.mapPos, Body.mapPos_ofText, hsame]⟩
  | @bare place depth depth' m n x r hx hnewline hdollar hopen hrest ih =>
    rw [Body.dump_bare] at hc hplain ⊢
    have hbehind := isPlain_tail hplain
    obtain ⟨r', hread, hsame⟩ := @ih u (c.upTo ['$', x] (r.dump ++ u)) rfl (isPlain_tail hbehind)
      hstop
    rw [upTo_upTo] at hread
    have hname := @bareName_eq _ _ (c.upTo ['$'] (x :: (r.dump ++ u))) c.offset rfl hbehind hnewline
      hdollar
    rw [upTo_upTo] at hname
    exact ⟨_, hread.upTo_bare hc hplain hopen hname,
      by simp only [Body.mapPos, Body.mapPos_ofText, hsame]⟩

/-! ## What is read, fits -/

/-- Words fit everywhere. -/
theorem fits_word {w : Text} (hw : ∀ y ∈ w, kindOf y = .identifier) (hplain : IsPlain w)
    (h : Fits place depth body depth') : Fits place depth (.ofText w ++ body) depth' := by
  induction w with
  | nil => exact h
  | cons y w ih =>
    obtain ⟨hy, hw⟩ := List.forall_mem_cons.mp hw
    obtain ⟨hplainHead, hplain⟩ := Text.isPlain_cons.mp hplain
    refine .char (List.forall_mem_singleton.mpr hplainHead) ?_ (ih hw hplain)
    rw [hy]
    exact place.takes_word depth [y]

/-- The dollar sign and the bracket in front of a name. -/
theorem exists_of_opening {b : Bracket} (hc : c.rest = lex s) (hplain : IsPlain s)
    (hnext : c.kindAt 0 = some .dollar) (hopen : Bracket.ofOpening? (c.kindAt 1) = some b) :
    ∃ u, s = '$' :: b.openingChar :: u ∧ c.advance 2 = c.upTo ['$', b.openingChar] u := by
  obtain ⟨x, s, rfl, hx⟩ := exists_of_kindAt_eq hc hplain hnext
  obtain rfl := Token.eq_of_kindOf hx rfl
  have hinside := isPlain_tail hplain
  have hone := advance_one_eq hc hplain (by decide)
  have hkind : (c.upTo ['$'] s).kindAt 0 = some b.opening := by
    rw [← hone, kindAt_advance]
    unfold Bracket.ofOpening? at hopen
    split at hopen
    · next h =>
      cases hopen
      exact h
    · next h =>
      cases hopen
      exact h
    · cases hopen
  obtain ⟨y, u, rfl, hy⟩ := exists_of_kindAt_eq rfl hinside hkind
  obtain rfl := Token.eq_of_kindOf hy (Token.char?_opening b)
  have hletter : kindOf b.openingChar ≠ .identifier := by cases b <;> decide
  refine ⟨u, rfl, ?_⟩
  rw [← advance_advance c 1 1, hone, advance_one_eq rfl hinside hletter, upTo_upTo]
  rfl

/-- The bracket behind a name, if there is no fault. -/
theorem closeReference_eq {b : Bracket} {name : Body} (hc : c.rest = lex s) (hplain : IsPlain s)
    (hd : (c.closeReference b name).faults = []) :
    ∃ u, s = b.closingChar :: u ∧ c.closeReference b name = c.upTo [b.closingChar] u := by
  unfold closeReference at hd ⊢
  split at hd
  · next hclose =>
    obtain ⟨x, u, rfl, hx⟩ := exists_of_kindAt_eq hc hplain hclose
    obtain rfl := Token.eq_of_kindOf hx (Token.char?_closing b)
    have hletter : kindOf b.closingChar ≠ .identifier := by cases b <;> decide
    rw [if_pos hclose]
    exact ⟨u, rfl, advance_one_eq hc hplain hletter⟩
  · exact absurd hd (faults_report_ne_nil _ _ _)

/-- A bare name is there, if there is no fault. -/
theorem exists_of_bareName {dollar : Nat} (hc : c.rest = lex s) (hplain : IsPlain s)
    (hd : (c.bareName dollar).2.2.faults = []) : ∃ x u, s = x :: u ∧ kindOf x ≠ .newline := by
  cases s with
  | nil =>
    have hrest : c.rest = [] := hc
    unfold bareName at hd
    rw [hrest] at hd
    exact absurd hd (faults_report_ne_nil _ _ _)
  | cons x u =>
    refine ⟨x, u, rfl, fun hx => ?_⟩
    obtain ⟨w, ts, hlex⟩ := Token.exists_lex_cons hplain
    have hrest := hc.trans hlex
    unfold bareName at hd
    rw [hrest, hx] at hd
    exact absurd hd (faults_report_ne_nil _ _ _)

/-- A token that is taken is written as it is taken, and that fits. -/
theorem exists_of_taken {t : Token} {w : Text} (hc : c.rest = lex s) (hplain : IsPlain s)
    (hnext : c.rest.head? = some t) (htake : place.Takes depth t w mid) :
    ∃ u, s = w ++ u ∧ c.advance 1 = c.upTo w u ∧ Fits place depth (.ofText w) mid := by
  obtain ⟨ts, hcons⟩ := List.head?_eq_some_iff.mp hnext
  rw [hc] at hcons
  rcases Token.head_lex_cases hplain hcons with
    ⟨x, u, rfl, hx, rfl, rfl⟩ | ⟨v, u, rfl, hv, rfl, rfl⟩
  · obtain rfl : w = [x] := htake.text_eq (by
      unfold kindOf Token.single?
      split <;> nofun)
    refine ⟨u, rfl, advance_one_eq hc hplain hx, .char ?_ htake .nil⟩
    exact List.forall_mem_singleton.mpr (Text.isPlain_cons.mp hplain).1
  · obtain ⟨rfl, rfl⟩ := htake.eq_of_word
    have hone : c.rest = [Token.mk .identifier w] ++ lex u := hc.trans hcons
    have hword : Token.textOf [Token.mk .identifier w] = w := List.append_nil w
    have hfits : Fits place mid (.ofText w ++ .nil) mid :=
      fits_word hv (Text.isPlain_append.mp hplain).1 .nil
    rw [Body.append_nil] at hfits
    exact ⟨u, rfl, hword ▸ advance_tokens hone, hfits⟩

/-- A reference without brackets is written as a dollar sign and a character, if there is no fault,
and it fits everywhere. -/
theorem exists_of_bare {dollar : Nat} (hc : c.rest = lex s) (hplain : IsPlain s)
    (hopen : Bracket.ofOpening? (c.kindAt 0) = none) (hd : (c.bareName dollar).2.2.faults = []) :
    ∃ x u name pos, s = x :: u ∧ c.bareName dollar = (name, pos, c.upTo [x] u) ∧
      ∀ m n, (Body.ref (.ofText name) m n .bare .nil).dump = ['$', x] ∧
        Fits place depth (.ref (.ofText name) m n .bare .nil) depth := by
  obtain ⟨x, u, rfl, hnewline⟩ := exists_of_bareName hc hplain hd
  rw [kindAt_zero_eq hc hplain] at hopen
  by_cases hdollar : kindOf x = .dollar
  · obtain rfl := Token.eq_of_kindOf hdollar rfl
    exact ⟨_, u, _, _, rfl, bareName_dollar hc hplain, fun m n => ⟨rfl, .dollar .nil⟩⟩
  · have hchar : IsPlain [x] := List.forall_mem_singleton.mpr (Text.isPlain_cons.mp hplain).1
    exact ⟨x, u, _, _, rfl, bareName_eq hc hplain hnewline hdollar,
      fun m n => ⟨Body.dump_bare m n .nil x, .bare hchar hnewline hdollar hopen .nil⟩⟩

/-- **What is read in plain text without a fault, fits its place**, and it is what was written. -/
theorem ReadsBody.fits (h : ReadsBody place depth c body d) (hc : c.rest = lex s)
    (hplain : IsPlain s) (hd : d.faults = []) :
    ∃ depth' u, s = body.dump ++ u ∧ d = c.upTo body.dump u ∧ Fits place depth body depth' ∧
      ∀ y ∈ u.head?, place.Stops depth' (kindOf y) := by
  induction h generalizing s with
  | @finish place depth c hstop =>
    refine ⟨depth, s, rfl, (upTo_nil hc).symm, .nil, fun y hy => ?_⟩
    obtain ⟨s, rfl⟩ := List.head?_eq_some_iff.mp hy
    exact hstop _ (kindAt_zero_eq hc hplain)
  | @literal place depth mid c d t text body hnext htake hrest ih =>
    obtain ⟨u, rfl, hadvance, htext⟩ := exists_of_taken hc hplain hnext htake
    obtain ⟨depth', v, rfl, rfl, hfits, hstop⟩ := ih (congrArg Cursor.rest hadvance)
      (Text.isPlain_append.mp hplain).2 hd
    rw [hadvance, upTo_upTo, Body.dump_append, Body.dump_ofText]
    exact ⟨depth', v, (List.append_assoc _ _ _).symm, rfl, htext.append hfits, hstop⟩
  | backslash hnext => exact absurd hd (faults_report_ne_nil _ _ _)
  | @comment place depth c hnext hends =>
    obtain ⟨x, u, rfl, hx⟩ := exists_of_kindAt_eq hc hplain hnext
    exact absurd (Token.eq_of_kindOf hx rfl) (Text.isPlain_cons.mp hplain).1.2.1
  | @bracketed place depth c atClose d b name body hnext hopen hname hrest ihname ih =>
    obtain ⟨u, rfl, htwo⟩ := exists_of_opening hc hplain hnext hopen
    have hclosed := hrest.ahead.faults_nil hd
    have hatClose := (ahead_closeReference b name atClose).faults_nil hclosed
    have hinside := isPlain_tail (isPlain_tail hplain)
    obtain ⟨k, v, rfl, rfl, hfitsName, hstopName⟩ :=
      ihname (congrArg Cursor.rest htwo) hinside hatClose
    have hplainClose := (Text.isPlain_append.mp hinside).2
    rw [htwo, upTo_upTo] at hclosed ih
    obtain ⟨v, rfl, hclose⟩ := closeReference_eq rfl hplainClose hclosed
    obtain ⟨depth', w, rfl, rfl, hfits, hstop⟩ := ih (congrArg Cursor.rest hclose)
      (isPlain_tail hplainClose) hd
    -- No bracket is open where the reference is closed.
    have hzero : k = 0 := by
      have hopens := (hstopName _ rfl).1
      rw [Token.kindOf_closingChar] at hopens
      refine Nat.eq_zero_of_not_pos fun hpos => hopens ⟨hpos, ?_⟩
      cases b <;> rfl
    subst hzero
    refine ⟨depth', w, ?_, ?_, .bracketed hfitsName hfits, hstop⟩
    · rw [Body.dump_bracketed]
      simp
    · rw [hclose, upTo_upTo, upTo_upTo, Body.dump_bracketed, List.append_assoc _ _ body.dump]
  | @bare place depth c d body hnext hopen hrest ih =>
    obtain ⟨y, s, rfl, hy⟩ := exists_of_kindAt_eq hc hplain hnext
    obtain rfl := Token.eq_of_kindOf hy rfl
    have hone := advance_one_eq hc hplain (by decide)
    have hahead : Bracket.ofOpening? ((c.advance 1).kindAt 0) = none := by
      rw [kindAt_advance]
      exact hopen
    obtain ⟨x, u, name, pos, rfl, hname, hbare⟩ := exists_of_bare (congrArg Cursor.rest hone)
      (isPlain_tail hplain) hahead (hrest.ahead.faults_nil hd)
    rw [hname] at ih ⊢
    rw [hone, upTo_upTo] at ih
    obtain ⟨depth', v, rfl, rfl, hfits, hstop⟩ := ih rfl (isPlain_tail (isPlain_tail hplain)) hd
    obtain ⟨hdump, hreference⟩ := hbare pos c.offset
    have hwhole : (Body.ref (.ofText name) pos c.offset .bare body).dump = ['$', x] ++ body.dump :=
      hdump ▸ Body.dump_append (.ref (.ofText name) pos c.offset .bare .nil) body
    rw [hwhole, upTo_upTo]
    exact ⟨depth', v, rfl, rfl, hreference.append hfits, hstop⟩

/-! ## Prerequisites -/

/-- Prerequisites that are read in plain text without a fault can be written. -/
theorem ReadsPrerequisites.fits (h : ReadsPrerequisites c body d) (hc : c.rest = lex s)
    (hplain : IsPlain s) (hd : d.faults = []) :
    ∃ u, s = body.dump ++ u ∧ d = c.upTo body.dump u ∧ FitsPieces body := by
  induction h generalizing s with
  | last hbody hstop =>
    obtain ⟨depth', u, rfl, rfl, hfits, -⟩ := hbody.fits hc hplain hd
    exact ⟨u, rfl, rfl, .last (hfits.depth_prerequisites ▸ hfits)⟩
  | @more c mid d first body hfirst hcolon hrest ih =>
    have hmid := ((ahead_advance mid 1).trans hrest.ahead).faults_nil hd
    obtain ⟨depth', u, rfl, rfl, hfits, -⟩ := hfirst.fits hc hplain hmid
    have hplainRest := (Text.isPlain_append.mp hplain).2
    obtain ⟨x, u, rfl, hx⟩ := exists_of_kindAt_eq rfl hplainRest hcolon.1
    obtain rfl := Token.eq_of_kindOf hx rfl
    have hadvance : (c.upTo first.dump (':' :: u)).advance 1 = c.upTo (first.dump ++ [':']) u := by
      rw [advance_one_eq rfl hplainRest (by decide), upTo_upTo]
    obtain ⟨v, rfl, rfl, hpieces⟩ := ih (congrArg Cursor.rest hadvance) (isPlain_tail hplainRest) hd
    rw [hadvance, upTo_upTo, Body.dump_append]
    refine ⟨v, ?_, ?_, .more (hfits.depth_prerequisites ▸ hfits) hpieces⟩
    · simp [Body.dump]
    · simp [Body.dump]

/-- **Prerequisites that can be written are read**, up to a text that ends them. -/
theorem reads_of_fitsPieces (h : FitsPieces body) (hc : c.rest = lex (body.dump ++ u))
    (hplain : IsPlain (body.dump ++ u))
    (hstop : ∀ y ∈ u.head?, Place.prerequisites.Stops 0 (kindOf y))
    (hcolon : ∀ v, u = ':' :: v → ∃ w, v = '=' :: w)
    (hequals : ∀ v, u = '=' :: v → body.dump.getLast? ≠ some ':') :
    ∃ body', ReadsPrerequisites c body' (c.upTo body.dump u) ∧
      body'.mapPos (fun _ => 0) = body.mapPos (fun _ => 0) := by
  induction h generalizing c with
  | @last body hlast =>
    obtain ⟨body', hread, hsame⟩ := reads_of_fits hlast hc hplain hstop
    refine ⟨body', .last hread ?_, hsame⟩
    rintro ⟨hnext, hne⟩
    have hplainRest := (Text.isPlain_append.mp hplain).2
    obtain ⟨x, v, rfl, hx⟩ := exists_of_kindAt_eq rfl hplainRest hnext
    obtain rfl := Token.eq_of_kindOf hx rfl
    obtain ⟨w, rfl⟩ := hcolon v rfl
    exact hne (kindAt_one_eq rfl hplainRest (by decide))
  | @more first rest hfirst hrest ih =>
    have htext : (first ++ Body.char ':' rest).dump ++ u =
        first.dump ++ ':' :: (rest.dump ++ u) := by
      rw [Body.dump_append]
      simp [Body.dump]
    have hdump : (first ++ Body.char ':' rest).dump = first.dump ++ [':'] ++ rest.dump := by
      rw [Body.dump_append]
      simp [Body.dump]
    rw [htext] at hc hplain
    have hplainRest := (Text.isPlain_append.mp hplain).2
    obtain ⟨first', hread, hsame⟩ := reads_of_fits hfirst hc hplain (by
      rintro y ⟨⟩
      exact Place.stops_zero (Or.inl rfl))
    have hadvance : (c.upTo first.dump (':' :: (rest.dump ++ u))).advance 1 =
        c.upTo (first.dump ++ [':']) (rest.dump ++ u) := by
      rw [advance_one_eq rfl hplainRest (by decide), upTo_upTo]
    obtain ⟨rest', hread', hsame'⟩ := @ih (c.upTo (first.dump ++ [':']) (rest.dump ++ u)) rfl
      (isPlain_tail hplainRest) (by
        intro v hv hlast
        refine hequals v hv ?_
        rw [hdump, List.getLast?_append, hlast]
        rfl)
    rw [upTo_upTo, ← hdump, ← hadvance] at hread'
    -- The colon is no operator: behind it is a piece, or a text that begins with no equals sign.
    have hne : (c.upTo first.dump (':' :: (rest.dump ++ u))).kindAt 1 ≠ some .equals := by
      intro hkind
      rw [← kindAt_advance _ 1 0, hadvance] at hkind
      obtain ⟨y, v, hv, hy⟩ := exists_of_kindAt_eq rfl (isPlain_tail hplainRest) hkind
      obtain rfl := Token.eq_of_kindOf hy rfl
      cases hrestDump : rest.dump with
      | nil =>
        rw [hrestDump] at hv
        refine hequals v hv ?_
        rw [hdump, hrestDump]
        simp
      | cons z t =>
        rw [hrestDump] at hv
        obtain rfl : z = '=' := (List.cons.inj hv).1
        exact hrest.head_ne '=' (by rw [hrestDump]; rfl) rfl
    refine ⟨_, .more hread ⟨kindAt_zero_eq rfl hplainRest, hne⟩ hread', ?_⟩
    simp only [Body.mapPos_append, Body.mapPos, hsame, hsame']

end Cursor

end MakeBlueprint.Makefile
