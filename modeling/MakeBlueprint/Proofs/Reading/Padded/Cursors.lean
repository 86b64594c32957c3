import MakeBlueprint.Proofs.Reading.Abreast.Phrases

/-!
# Blanks at the end of a line

A text and the same text with blanks in front of one of its line breaks (`Padding`). A cursor in
the text and one in the padded text are side by side (`Padding.Beside`) as long as both are in front
of the blanks, or both behind them.

Readers part where one of them comes to the line break and the other one to the blanks
(`Padding.Faces`). One that skips blanks takes both of them to the line break.

* `lex_padded`: the blanks are tokens, and all others stay as they are.
* `Rests.advance`: past tokens that do not reach over the line break.
* `Rests.skipWhile`: past blanks, and whatever else is skipped with them.
* `Beside.comment`, `Beside.bareName`, `Beside.record`: the other steps in both texts.
* `Clear`: what may be found in the text, so that the blanks make no difference.
-/

namespace MakeBlueprint.Makefile

open Text (byteSize)
open Token (textOf)

/-- Whether the keyword has no arguments. -/
def Keyword.isBare : Keyword → Bool
  | .elseBranch | .endIf | .endDefine => true
  | _ => false

namespace Content

/-- Whether the content is a directive without arguments. -/
def isBare : Content → Bool
  | .directive d => d.keyword.isBare
  | _ => false

/-- Whether the content is a definition. -/
def isDefinition : Content → Bool
  | .directive d => d.keyword == .define
  | _ => false

/-- Whether the content is a reference. -/
def isReference : Content → Bool
  | .reference _ => true
  | _ => false

end Content

/-- **Blanks in front of a line break of a text**, which is a token between others and not right
behind an escape. -/
structure Padding (t : Text) where
  before : List Token
  newline : Token
  behind : List Token
  blanks : Text
  lex_eq : Token.lex t = before ++ newline :: behind
  kind_eq : newline.kind = .newline
  not_escape : ∀ u ∈ before.getLast?, u.kind ≠ .escape
  isBlank : ∀ c ∈ blanks, Text.isBlank c = true

namespace Padding

variable {t : Text}

/-- Where the line break is in the text. -/
def position (k : Padding t) : Nat := byteSize (textOf k.before)

/-- The number of bytes that the padded text has more. -/
def size (k : Padding t) : Nat := byteSize k.blanks

/-- The tokens of the text from the line break on. -/
def rest (k : Padding t) : List Token := k.newline :: k.behind

/-- The tokens of the padded text from the blanks on. -/
def spaced (k : Padding t) : List Token := Token.lex k.blanks ++ k.rest

/-- **The text with the blanks in front of the line break.** -/
def padded (k : Padding t) : Text := textOf k.before ++ (k.blanks ++ textOf k.rest)

/-- The position in the padded text of what is at a position of the text. -/
def place (k : Padding t) (n : Nat) : Nat := if n < k.position then n else n + k.size

theorem place_lt_place (k : Padding t) {m n : Nat} : k.place m < k.place n ↔ m < n := by
  unfold place
  split <;> split <;> omega

theorem formed (k : Padding t) : ∀ u ∈ k.before ++ k.rest, u.Formed :=
  k.lex_eq ▸ Token.formed_of_mem_lex t

theorem byteSize_newline_pos (k : Padding t) : 0 < byteSize k.newline.text :=
  Text.byteSize_pos (k.formed _ (List.mem_append_right _ List.mem_cons_self)).text_ne_nil

/-- **The blanks are tokens of the padded text**, and all others stay as they are. -/
theorem lex_padded (k : Padding t) : Token.lex k.padded = k.before ++ k.spaced := by
  have hrest : Token.lex (textOf k.rest) = k.rest := Token.lex_textOf k.lex_eq
  have hspaced : Token.lex (k.blanks ++ textOf k.rest) = k.spaced := by
    rw [Token.lex_append_blanks k.isBlank, hrest]
    rfl
  cases hblanks : k.blanks with
  | nil =>
    have htext := Token.textOf_lex t
    rw [k.lex_eq, Token.textOf_append] at htext
    change textOf k.before ++ textOf k.rest = t at htext
    rw [padded, hblanks, List.nil_append, htext, k.lex_eq, spaced, hblanks]
    rfl
  | cons c w =>
    have hc : Text.isBlank c = true := k.isBlank c (hblanks ▸ List.mem_cons_self)
    have hcut := @Token.lex_append_blank c t (w ++ textOf k.rest) _ _ _ hc k.lex_eq
      (by rw [k.kind_eq]; decide)
    rw [hblanks, List.cons_append] at hspaced
    rw [padded, hblanks, List.cons_append, hcut, hspaced]

/-- What is taken from the start of two lists is the same if it ends in what they have in common. -/
theorem takeWhile_eq_of_take {α : Type} {p : α → Bool} {l l' : List α} {m : Nat}
    (h : l'.take m = l.take m) (hm : (l.takeWhile p).length < m) :
    l'.takeWhile p = l.takeWhile p := by
  induction m generalizing l l' with
  | zero => exact absurd hm (Nat.not_lt_zero _)
  | succ m ih =>
    cases l with
    | nil =>
      rw [List.take_nil, List.take_eq_nil_iff] at h
      rw [h.resolve_left nofun]
    | cons a l =>
      cases l' with
      | nil => cases h
      | cons b l' =>
        rw [List.take_succ_cons, List.take_succ_cons] at h
        obtain ⟨rfl, hrest⟩ := List.cons.inj h
        rw [List.takeWhile_cons] at hm ⊢
        rw [List.takeWhile_cons]
        split at hm
        · next hb =>
          rw [if_pos hb, if_pos hb, ih hrest (Nat.lt_of_succ_lt_succ hm)]
        · next hb => rw [if_neg hb, if_neg hb]

/-! ## What is left of both texts -/

/-- **What is left of the text and of the padded text**: both cursors are in front of the blanks or
both are behind them. -/
inductive Rests (k : Padding t) (c c' : Cursor) : Prop
  | before {us : List Token} (hrest : c.rest = us ++ k.rest) (hrest' : c'.rest = us ++ k.spaced)
      (hread : c.read + byteSize (textOf us) = k.position) (hread' : c'.read = c.read)
      (hlast : ∀ u ∈ us.getLast?, u.kind ≠ .escape)
  | behind (hrest : c'.rest = c.rest) (hread : k.position ≤ c.read)
      (hread' : c'.read = c.read + k.size)

/-- One cursor is at the line break, the other one at the blanks in front of it. -/
structure Faces (k : Padding t) (c c' : Cursor) : Prop where
  rest : c.rest = k.rest
  rest' : c'.rest = k.spaced
  read : c.read = k.position
  read' : c'.read = k.position

variable {k : Padding t} {c c' : Cursor} {p : Token.Kind → Bool}

theorem advance_length {us vs : List Token} (h : c.rest = us ++ vs) :
    (c.advance us.length).rest = vs ∧
      (c.advance us.length).read = c.read + byteSize (textOf us) := by
  unfold Cursor.advance
  rw [h, List.drop_left, List.take_left]
  exact ⟨rfl, rfl⟩

/-- Tokens that are skipped anyway may be passed first. -/
theorem skipWhile_advance {n : Nat} (hn : n ≤ c.rest.length)
    (h : ∀ u ∈ c.rest.take n, p u.kind = true) :
    (c.advance n).skipWhile p = c.skipWhile p := by
  have hsplit : c.rest.takeWhile (fun u => p u.kind) =
      c.rest.take n ++ (c.rest.drop n).takeWhile fun u => p u.kind := by
    conv_lhs => rw [← List.take_append_drop n c.rest]
    exact List.takeWhile_append_of_pos h
  unfold Cursor.skipWhile
  rw [hsplit, List.length_append, List.length_take, Nat.min_eq_left hn, ← Cursor.advance_advance]
  rfl

theorem Faces.kindAt (h : k.Faces c c') : c.kindAt 0 = some .newline := by
  rw [Cursor.kindAt_of_rest h.rest, k.kind_eq]

/-- The next token of the padded text is a blank, if there is any. -/
theorem Faces.kindAt_spaced (h : k.Faces c c') :
    ∃ kind, c'.kindAt 0 = some kind ∧ (kind.isBlank = true ∨ k.spaced = k.rest ∧ k.size = 0) := by
  have hrest := h.rest'
  unfold spaced size at *
  cases hblanks : Token.lex k.blanks with
  | nil =>
    rw [hblanks] at hrest
    rw [Token.lex_eq_nil_iff.mp hblanks]
    exact ⟨_, Cursor.kindAt_of_rest hrest, .inr ⟨rfl, rfl⟩⟩
  | cons u us =>
    have hblank : u.kind.isBlank = true :=
      Token.isBlank_of_mem_lex k.isBlank u (hblanks ▸ List.mem_cons_self)
    rw [hblanks] at hrest
    exact ⟨_, Cursor.kindAt_of_rest hrest, .inl hblank⟩

namespace Rests

/-- Unless the cursors part here, the same token is next. -/
theorem head? (h : k.Rests c c') : c'.rest.head? = c.rest.head? ∨ k.Faces c c' := by
  cases h with
  | @before us hrest hrest' hread hread' =>
    cases us with
    | nil =>
      rw [textOf, List.flatMap_nil, byteSize, Nat.add_zero] at hread
      exact .inr ⟨hrest, hrest', hread, hread'.trans hread⟩
    | cons u us =>
      left
      rw [hrest, hrest']
      rfl
  | behind hrest => exact .inl (congrArg _ hrest)

theorem head?_eq (h : k.Rests c c') (hnext : c.kindAt 0 ≠ some .newline) :
    c'.rest.head? = c.rest.head? :=
  h.head?.resolve_right fun hfaces => hnext hfaces.kindAt

theorem kindAt_or (h : k.Rests c c') : c'.kindAt 0 = c.kindAt 0 ∨ k.Faces c c' := by
  unfold Cursor.kindAt
  rw [← List.head?_eq_getElem?, ← List.head?_eq_getElem?]
  exact h.head?.imp_left (congrArg _)

theorem kindAt_eq (h : k.Rests c c') (hnext : c.kindAt 0 ≠ some .newline) :
    c'.kindAt 0 = c.kindAt 0 :=
  h.kindAt_or.resolve_right fun hfaces => hnext hfaces.kindAt

/-- What is no blank and no line break is next in both texts or in none. -/
theorem kindAt_iff (h : k.Rests c c') {kind : Token.Kind} (hnewline : kind ≠ .newline)
    (hblank : kind.isBlank = false) : c'.kindAt 0 = some kind ↔ c.kindAt 0 = some kind := by
  rcases h.kindAt_or with heq | hfaces
  · rw [heq]
  · obtain ⟨kind', hkind', hor⟩ := hfaces.kindAt_spaced
    rw [hfaces.kindAt, hkind']
    rcases hor with hblank' | ⟨hspaced, -⟩
    · refine iff_of_false (fun heq => ?_) fun heq => hnewline (Option.some.inj heq).symm
      rw [Option.some.inj heq, hblank] at hblank'
      cases hblank'
    · have hrest := hfaces.rest'
      rw [hspaced] at hrest
      rw [Cursor.kindAt_of_rest hrest, k.kind_eq] at hkind'
      rw [← hkind']

theorem rest_eq_nil_iff (h : k.Rests c c') : c'.rest = [] ↔ c.rest = [] := by
  cases h with
  | before hrest hrest' => simp [hrest, hrest', rest, spaced]
  | behind hrest => rw [hrest]

/-- Where no cursor is at the line break, the positions correspond. -/
theorem read_eq (h : k.Rests c c') (hformed : ∀ u ∈ c.rest, u.Formed)
    (hnext : c.kindAt 0 ≠ some .newline) : c'.read = k.place c.read := by
  unfold place
  cases h with
  | @before us hrest hrest' hread hread' =>
    cases us with
    | nil => exact absurd ((Cursor.kindAt_of_rest hrest).trans (congrArg some k.kind_eq)) hnext
    | cons u us =>
      have hu := hformed u (by rw [hrest]; exact List.mem_cons_self)
      have hpos := Text.byteSize_pos hu.text_ne_nil
      rw [textOf, List.flatMap_cons, Text.byteSize_append] at hread
      rw [if_pos (by omega), hread']
  | behind hrest hread hread' => rw [if_neg (Nat.not_lt.mpr hread), hread']

/-! ## Steps -/

theorem congr {d d' : Cursor} (h : k.Rests c c') (hrest : d.rest = c.rest)
    (hrest' : d'.rest = c'.rest) (hread : d.read = c.read) (hread' : d'.read = c'.read) :
    k.Rests d d' := by
  cases h with
  | before h₁ h₂ h₃ h₄ hlast =>
    exact .before (hrest.trans h₁) (hrest'.trans h₂) (hread ▸ h₃) (by rw [hread', hread, h₄]) hlast
  | behind h₁ h₂ h₃ =>
    exact .behind (by rw [hrest, hrest', h₁]) (hread ▸ h₂) (by rw [hread', hread, h₃])

/-- In front of the blanks, past tokens in front of them. -/
theorem advance_before {us : List Token} (hrest : c.rest = us ++ k.rest)
    (hrest' : c'.rest = us ++ k.spaced) (hread : c.read + byteSize (textOf us) = k.position)
    (hread' : c'.read = c.read) (hlast : ∀ u ∈ us.getLast?, u.kind ≠ .escape) {m : Nat}
    (hm : m ≤ us.length) :
    k.Rests (c.advance m) (c'.advance m) ∧ c'.rest.take m = c.rest.take m := by
  have htake : ∀ vs, (us ++ vs).take m = us.take m := fun _ => List.take_append_of_le_length hm
  have hdrop : ∀ vs, (us ++ vs).drop m = us.drop m ++ vs := fun _ =>
    List.drop_append_of_le_length hm
  have hsplit := Token.byteSize_textOf_append (us.take m) (us.drop m)
  rw [List.take_append_drop] at hsplit
  unfold Cursor.advance
  rw [hrest, hrest', htake, htake]
  refine ⟨.before (hdrop _) (hdrop _) ?_ ?_ fun u hu => hlast u ?_, rfl⟩
  · dsimp only
    omega
  · dsimp only
    rw [hread']
  · rw [List.getLast?_drop] at hu
    split at hu
    · cases hu
    · exact hu

theorem advance_behind (hrest : c'.rest = c.rest) (hread : k.position ≤ c.read)
    (hread' : c'.read = c.read + k.size) (m : Nat) :
    k.Rests (c.advance m) (c'.advance m) ∧ c'.rest.take m = c.rest.take m := by
  unfold Cursor.advance
  rw [hrest, hread']
  exact ⟨.behind rfl (Nat.le_trans hread (Nat.le_add_right _ _)) (Nat.add_right_comm _ _ _), rfl⟩

/-- **Past tokens that do not reach over the line break**, and these tokens are the same. -/
theorem advance (h : k.Rests c c') {m : Nat}
    (hm : ¬ (c.read ≤ k.position ∧ k.position < (c.advance m).read)) :
    k.Rests (c.advance m) (c'.advance m) ∧ c'.rest.take m = c.rest.take m := by
  cases h with
  | @before us hrest hrest' hread hread' hlast =>
    refine advance_before hrest hrest' hread hread' hlast (Nat.not_lt.mp fun hlt => hm ⟨by omega, ?_⟩)
    obtain ⟨j, rfl⟩ := Nat.exists_eq_add_of_lt hlt
    have htake : (us ++ k.rest).take (us.length + j + 1) = us ++ (k.newline :: k.behind.take j) := by
      rw [Nat.add_assoc, List.take_length_add_append]
      rfl
    have hpos := k.byteSize_newline_pos
    unfold Cursor.advance
    dsimp only
    rw [hrest, htake, Token.byteSize_textOf_append, textOf, textOf, List.flatMap_cons,
      Text.byteSize_append]
    rw [textOf] at hread
    omega
  | behind hrest hread hread' => exact advance_behind hrest hread hread' m

/-- Past the next token, if it is the same. -/
theorem advance_one (h : k.Rests c c') (hnext : c'.kindAt 0 = c.kindAt 0) :
    k.Rests (c.advance 1) (c'.advance 1) := by
  cases h with
  | @before us hrest hrest' hread hread' hlast =>
    cases us with
    | cons u us =>
      exact (advance_before hrest hrest' hread hread' hlast (Nat.succ_le_succ (Nat.zero_le _))).1
    | nil =>
      have hfaces : k.Faces c c' := by
        rw [textOf, List.flatMap_nil, byteSize, Nat.add_zero] at hread
        exact ⟨hrest, hrest', hread, hread'.trans hread⟩
      obtain ⟨kind, hkind, hblank | ⟨hspaced, hsize⟩⟩ := hfaces.kindAt_spaced
      · rw [hnext, hfaces.kindAt] at hkind
        cases hkind
        cases hblank
      · refine (advance_behind (hrest'.trans ?_) (Nat.le_of_eq hfaces.read.symm) ?_ 1).1
        · rw [hrest, hspaced]
        · rw [hread', hsize, Nat.add_zero]
  | behind hrest hread hread' => exact (advance_behind hrest hread hread' 1).1

/-- Past a token that is no line break. -/
theorem advance_of_ne (h : k.Rests c c') (hnext : c.kindAt 0 ≠ some .newline) :
    k.Rests (c.advance 1) (c'.advance 1) := h.advance_one (h.kindAt_eq hnext)

/-- What is no blank and no line break is behind the next token in both texts or in none. -/
theorem kindAt_one_iff (h : k.Rests c c') (hnext : c.kindAt 0 ≠ some .newline)
    {kind : Token.Kind} (hnewline : kind ≠ .newline) (hblank : kind.isBlank = false) :
    c'.kindAt 1 = some kind ↔ c.kindAt 1 = some kind := by
  have hbehind := (h.advance_of_ne hnext).kindAt_iff hnewline hblank
  rwa [Cursor.kindAt_advance, Cursor.kindAt_advance] at hbehind

/-- **Past blanks** and what else is skipped with them, the same token is next. -/
theorem skipWhile (h : k.Rests c c')
    (hp : ∀ kind : Token.Kind, kind.isBlank = true → p kind = true) :
    k.Rests (c.skipWhile p) (c'.skipWhile p) ∧
      (c'.skipWhile p).kindAt 0 = (c.skipWhile p).kindAt 0 := by
  cases h with
  | @before us hrest hrest' hread hread' hlast =>
    by_cases hall : ∀ u ∈ us, p u.kind = true
    · -- Both readers go past the blanks.
      have hblanks : ∀ u ∈ Token.lex k.blanks, p u.kind = true :=
        fun u hu => hp _ (Token.isBlank_of_mem_lex k.isBlank u hu)
      have hdrop : (c'.skipWhile p).rest = (c.skipWhile p).rest := by
        rw [Cursor.rest_skipWhile, Cursor.rest_skipWhile, hrest, hrest', spaced,
          List.dropWhile_append_of_pos hall, List.dropWhile_append_of_pos hall,
          List.dropWhile_append_of_pos hblanks]
      have htake : (c.skipWhile p).read = k.position +
          byteSize (textOf (k.rest.takeWhile fun u => p u.kind)) := by
        rw [Cursor.read_skipWhile, hrest, List.takeWhile_append_of_pos hall,
          Token.byteSize_textOf_append, ← hread, Nat.add_assoc]
      have htake' : (c'.skipWhile p).read = (c.skipWhile p).read + k.size := by
        rw [htake, Cursor.read_skipWhile, hrest', spaced, List.takeWhile_append_of_pos hall,
          List.takeWhile_append_of_pos hblanks, Token.byteSize_textOf_append,
          Token.byteSize_textOf_append, Token.textOf_lex, hread', ← hread, size]
        omega
      refine ⟨.behind hdrop (htake ▸ Nat.le_add_right _ _) htake', ?_⟩
      unfold Cursor.kindAt
      rw [hdrop]
    · -- Both readers stop at the same token.
      have hlt : (us.takeWhile fun u => p u.kind).length < us.length := by
        refine Nat.lt_of_le_of_ne (List.takeWhile_prefix _).length_le fun heq => hall ?_
        exact List.takeWhile_eq_self_iff.mp ((List.takeWhile_prefix _).eq_of_length heq)
      have htake : ∀ vs, (us ++ vs).takeWhile (fun u => p u.kind) =
          us.takeWhile fun u => p u.kind := fun vs => by
        rw [List.takeWhile_append, if_neg (Nat.ne_of_lt hlt)]
      unfold Cursor.skipWhile
      rw [hrest, hrest', htake, htake]
      refine ⟨(advance_before hrest hrest' hread hread' hlast (Nat.le_of_lt hlt)).1, ?_⟩
      rw [Cursor.kindAt_advance, Cursor.kindAt_advance, Cursor.kindAt, Cursor.kindAt, hrest, hrest',
        Nat.add_zero, List.getElem?_append_left hlt, List.getElem?_append_left hlt]
  | behind hrest hread hread' =>
    unfold Cursor.skipWhile
    rw [hrest]
    refine ⟨(advance_behind hrest hread hread' _).1, ?_⟩
    rw [Cursor.kindAt_advance, Cursor.kindAt_advance, Cursor.kindAt, Cursor.kindAt, hrest]

theorem skipBlanks (h : k.Rests c c') :
    k.Rests c.skipBlanks c'.skipBlanks ∧ c'.skipBlanks.kindAt 0 = c.skipBlanks.kindAt 0 :=
  h.skipWhile fun _ => id

theorem skipSpace (h : k.Rests c c') :
    k.Rests c.skipSpace c'.skipSpace ∧ c'.skipSpace.kindAt 0 = c.skipSpace.kindAt 0 :=
  h.skipWhile fun _ hblank => by rw [hblank, Bool.true_or]

/-- **Past a line that does not reach over the line break**, which is the same in both texts. -/
theorem skipLine (h : k.Rests c c') {j : Nat}
    (hline : ¬ (c.read ≤ k.position ∧
      k.position < ((c.advance j).skipLine.advance 1).read)) :
    k.Rests ((c.advance j).skipLine.advance 1) ((c'.advance j).skipLine.advance 1) ∧
      c'.rest.take j = c.rest.take j ∧ (c'.advance j).line = (c.advance j).line ∧
      ((c'.advance j).skipLine.rest = [] ↔ (c.advance j).skipLine.rest = []) := by
  have hends : ∀ d : Cursor, (d.advance j).skipLine = d.advance (j + (d.advance j).line.length) :=
    fun d => Cursor.advance_advance d j _
  have hbehind : ∀ d : Cursor, (d.advance j).skipLine.advance 1 =
      d.advance (j + (d.advance j).line.length + 1) := fun d => by
    rw [hends, Cursor.advance_advance]
  rw [hbehind] at hline
  obtain ⟨hrests, htake⟩ := h.advance hline
  -- The line ends in what is the same in both texts.
  have hshort : ∀ i ≤ j + (c.advance j).line.length + 1, c'.rest.take i = c.rest.take i := by
    intro i hi
    have hi : min i (j + (c.advance j).line.length + 1) = i := Nat.min_eq_left hi
    rw [← hi, ← List.take_take, ← List.take_take, htake]
  have hlines : (c'.advance j).line = (c.advance j).line := by
    refine takeWhile_eq_of_take ?_ (Nat.lt_add_one _)
    unfold Cursor.advance
    dsimp only
    rw [List.take_drop, List.take_drop]
    exact congrArg (List.drop j) htake
  have hwithin : (c.advance (j + (c.advance j).line.length)).read ≤
      (c.advance (j + (c.advance j).line.length + 1)).read := by
    rw [← Cursor.advance_advance c _ 1]
    exact Nat.le_add_right _ _
  have hlast := (h.advance fun hover => hline ⟨hover.1, Nat.lt_of_lt_of_le hover.2 hwithin⟩).1
  rw [hbehind, hbehind, hends, hends, hlines]
  exact ⟨hrests, hshort j (by omega), rfl, hlast.rest_eq_nil_iff⟩

/-- Past the first character of a token that is no line break. -/
theorem cut (h : k.Rests c c') {u : Token} {us us' : List Token} {x : Char} {w : Text}
    (hrest : c.rest = u :: us) (hrest' : c'.rest = u :: us') (hkind : u.kind = .identifier)
    (htext : u.text = x :: w) :
    k.Rests { c with rest := ⟨.identifier, w⟩ :: us, read := c.read + x.utf8Size }
      { c' with rest := ⟨.identifier, w⟩ :: us', read := c'.read + x.utf8Size } := by
  cases h with
  | @before vs h₁ h₂ h₃ h₄ hlast =>
    cases vs with
    | nil =>
      have hnewline : u = k.newline := (List.cons.inj (hrest.symm.trans h₁)).1
      rw [hnewline, k.kind_eq] at hkind
      cases hkind
    | cons v vs =>
      rw [hrest] at h₁
      rw [hrest'] at h₂
      obtain ⟨rfl, rfl⟩ := List.cons.inj h₁
      obtain ⟨-, rfl⟩ := List.cons.inj h₂
      rw [textOf, List.flatMap_cons, Text.byteSize_append, htext, byteSize] at h₃
      refine @before _ k _ _ (⟨.identifier, w⟩ :: vs) rfl rfl ?_ (congrArg (· + _) h₄) ?_
      · rw [textOf, List.flatMap_cons, Text.byteSize_append]
        dsimp only
        omega
      · cases vs with
        | nil =>
          rintro _ ⟨⟩
          exact (by decide : Token.Kind.identifier ≠ .escape)
        | cons v vs => exact hlast
  | behind h₁ h₂ h₃ =>
    rw [hrest, hrest'] at h₁
    obtain ⟨-, rfl⟩ := List.cons.inj h₁
    refine .behind rfl (Nat.le_trans h₂ (Nat.le_add_right _ _)) ?_
    dsimp only
    rw [h₃, Nat.add_right_comm]

end Rests

/-! ## What was found in both texts -/

/-- **Two statements say the same**, and start in corresponding places. -/
structure Matches (k : Padding t) (s s' : Content × Span) : Prop where
  content : s'.1.mapPos forget = s.1.mapPos forget
  start : s'.2.start = k.place s.2.start

/-- **A cursor in the text and one in the padded text**, side by side: the same is left, and the
same was found. -/
structure Beside (k : Padding t) (c c' : Cursor) : Prop where
  rests : k.Rests c c'
  statements : List.Forall₂ k.Matches c.statements c'.statements
  comments : List.Forall₂ k.Matches c.comments c'.comments
  faults : c'.faults = c.faults

namespace Beside

open Cursor

variable {source : Text}

/-- A step that finds nothing. -/
theorem congr {d d' : Cursor} (h : k.Beside c c') (hrests : k.Rests d d')
    (hstatements : d.statements = c.statements ∧ d'.statements = c'.statements)
    (hcomments : d.comments = c.comments ∧ d'.comments = c'.comments)
    (hfaults : d.faults = c.faults ∧ d'.faults = c'.faults) : k.Beside d d' where
  rests := hrests
  statements := by rw [hstatements.1, hstatements.2]; exact h.statements
  comments := by rw [hcomments.1, hcomments.2]; exact h.comments
  faults := by rw [hfaults.1, hfaults.2]; exact h.faults

theorem advance_one (h : k.Beside c c') (hnext : c'.kindAt 0 = c.kindAt 0) :
    k.Beside (c.advance 1) (c'.advance 1) :=
  h.congr (h.rests.advance_one hnext) ⟨rfl, rfl⟩ ⟨rfl, rfl⟩ ⟨rfl, rfl⟩

theorem advance_of_ne (h : k.Beside c c') (hnext : c.kindAt 0 ≠ some .newline) :
    k.Beside (c.advance 1) (c'.advance 1) := h.advance_one (h.rests.kindAt_eq hnext)

theorem skipBlanks (h : k.Beside c c') :
    k.Beside c.skipBlanks c'.skipBlanks ∧ c'.skipBlanks.kindAt 0 = c.skipBlanks.kindAt 0 :=
  ⟨h.congr h.rests.skipBlanks.1 ⟨rfl, rfl⟩ ⟨rfl, rfl⟩ ⟨rfl, rfl⟩, h.rests.skipBlanks.2⟩

theorem skipSpace (h : k.Beside c c') :
    k.Beside c.skipSpace c'.skipSpace ∧ c'.skipSpace.kindAt 0 = c.skipSpace.kindAt 0 :=
  ⟨h.congr h.rests.skipSpace.1 ⟨rfl, rfl⟩ ⟨rfl, rfl⟩ ⟨rfl, rfl⟩, h.rests.skipSpace.2⟩

theorem record (h : k.Beside c c') {content content' : Content} {start start' : Nat}
    (hcontent : content'.mapPos forget = content.mapPos forget) (hstart : start' = k.place start) :
    k.Beside (c.record content start) (c'.record content' start') where
  rests := h.rests.congr rfl rfl rfl rfl
  statements := List.rel_append h.statements (.cons ⟨hcontent, hstart⟩ .nil)
  comments := h.comments
  faults := h.faults

/-- **A comment in both texts**, if it does not reach over the line break. -/
theorem comment (h : k.Beside c c') (hc : StandsIn source c) (hhash : c.kindAt 0 = some .hash)
    (hspared : ¬ (c.read ≤ k.position ∧ k.position < c.comment.read)) :
    k.Beside c.comment c'.comment := by
  obtain ⟨hrests, -, hline, -⟩ := @Rests.skipLine t k c c' h.rests 1 hspared
  have hnext : c.kindAt 0 ≠ some .newline := by
    rw [hhash]
    nofun
  have hhash' : c'.kindAt 0 = some .hash := (h.rests.kindAt_eq hnext).trans hhash
  refine ⟨hrests.congr rfl rfl rfl rfl, h.statements, ?_, h.faults⟩
  refine List.rel_append h.comments (.cons ⟨?_, ?_⟩ .nil)
  · rw [hline]
  · change c'.offset = k.place c.offset
    rw [offset_of_kindAt hhash, offset_of_kindAt hhash', h.rests.read_eq hc.formed hnext]

/-- A name without brackets is the same in both texts, if there is one. -/
theorem bareName (h : k.Beside c c') (dollar dollar' : Nat)
    (hfaults : (c.bareName dollar).2.2.faults = []) :
    c.kindAt 0 ≠ some .newline ∧ (c'.bareName dollar').1 = (c.bareName dollar).1 ∧
      k.Beside (c.bareName dollar).2.2 (c'.bareName dollar').2.2 := by
  have hmissing : ∀ d : Cursor, (d.reportHere .missingName).faults ≠ [] :=
    fun d => faults_report_ne_nil d _ _
  unfold Cursor.bareName at hfaults ⊢
  cases hrest : c.rest with
  | nil =>
    rw [hrest] at hfaults
    exact absurd hfaults (hmissing c)
  | cons u us =>
    rw [hrest] at hfaults
    have hkind := kindAt_of_rest hrest
    by_cases hnewline : u.kind = .newline
    · simp only [hnewline] at hfaults
      exact absurd hfaults (hmissing c)
    · have hnext : c.kindAt 0 ≠ some .newline := by simpa [hkind] using hnewline
      have hhead := h.rests.head?_eq hnext
      rw [hrest, List.head?_cons] at hhead
      obtain ⟨us', hrest'⟩ := List.head?_eq_some_iff.mp hhead
      have hbehind := h.advance_of_ne hnext
      refine ⟨hnext, ?_⟩
      rw [hrest']
      dsimp only
      split
      · next hk => exact absurd hk hnewline
      · exact ⟨rfl, hbehind⟩
      · next hk =>
        split
        · next x y w htext =>
          exact ⟨rfl, h.congr (h.rests.cut hrest hrest' hk htext) ⟨rfl, rfl⟩ ⟨rfl, rfl⟩ ⟨rfl, rfl⟩⟩
        · exact ⟨rfl, hbehind⟩
      · exact ⟨rfl, hbehind⟩

/-- A reference is closed in both texts, if it is closed at all. -/
theorem closeReference (h : k.Beside c c') (b : Bracket) (name name' : Phrase.Body)
    (hfaults : (c.closeReference b name).faults = []) :
    c.kindAt 0 = some b.closing ∧
      k.Beside (c.closeReference b name) (c'.closeReference b name') := by
  unfold Cursor.closeReference at hfaults ⊢
  split at hfaults
  · next hclose =>
    have hclose' : c'.kindAt 0 = some b.closing :=
      (h.rests.kindAt_iff (by cases b <;> nofun) (by cases b <;> rfl)).mpr hclose
    rw [if_pos hclose, if_pos hclose']
    exact ⟨hclose, h.advance_one (hclose'.trans hclose.symm)⟩
  · exact absurd hfaults (faults_report_ne_nil c _ _)

end Beside

/-! ## Behind blanks -/

/-- **Cursors that are side by side behind blanks and line breaks.** Where blanks are skipped, one
may be in front of the blanks of the padded text, and the other one behind the line break. -/
def Near (k : Padding t) (c c' : Cursor) : Prop := k.Beside c.skipSpace c'.skipSpace

theorem Beside.near (h : k.Beside c c') : k.Near c c' := h.skipSpace.1

theorem Near.record (h : k.Near c c') {content content' : Content} {start start' : Nat}
    (hcontent : content'.mapPos forget = content.mapPos forget) (hstart : start' = k.place start) :
    k.Near (c.record content start) (c'.record content' start') where
  rests := h.rests.congr rfl rfl rfl rfl
  statements := List.rel_append h.statements (.cons ⟨hcontent, hstart⟩ .nil)
  comments := h.comments
  faults := h.faults

/-! ## What must not be found -/

/-- The line break is inside a span. -/
def IsIn (k : Padding t) (s : Span) : Prop := s.start ≤ k.position ∧ k.position < s.stop

instance (k : Padding t) (s : Span) : Decidable (k.IsIn s) := inferInstanceAs (Decidable (_ ∧ _))

/-- Where the line break ends. -/
def breakEnd (k : Padding t) : Nat := k.position + byteSize k.newline.text

/-- Where the carriage returns begin that are right in front of the line break. -/
def returns (k : Padding t) : Nat := byteSize (Text.dropEndWhile (· == '\r') (textOf k.before))

/-- **A statement spares the line break**: it is no reference that ends there, and no definition
around it. -/
structure Spares (k : Padding t) (s : Content × Span) : Prop where
  reference : s.1.isReference = true → s.2.stop ≠ k.position
  definition : s.1.isDefinition = true → ¬ k.IsIn s.2

/-- **A directive leaves the line break to be skipped** with what follows: it ends there and has no
arguments, or a comment ends with it. -/
structure Leaves (k : Padding t) (cs : List (Content × Span)) (s : Content × Span) : Prop where
  directive : s.1.isDirective = true
  stop : s.2.stop = k.position
  bare : s.1.isBare = true ∨ ∃ q ∈ cs, q.2.stop = k.position

/-- **A definition frays**: carriage returns are between its end and the line break, and nothing
else. -/
structure Frays (k : Padding t) (s : Content × Span) : Prop where
  definition : s.1.isDefinition = true
  returns : k.returns ≤ s.2.stop
  stop : s.2.stop < k.position

/-- **What was found makes room for blanks**: there are no faults, the statements spare the line
break and no comment is around it. A rule with a directive that leaves the line break ends with it,
and no rule has a definition that frays. -/
structure Clear (k : Padding t) (d : Cursor) : Prop where
  faults : d.faults = []
  statements : ∀ s ∈ d.statements, k.Spares s
  comments : ∀ s ∈ d.comments, ¬ k.IsIn s.2
  leaves : ∀ s ∈ d.statements, k.Leaves d.comments s → ∀ r ∈ d.statements, r.1.isRule = true →
    r.2.start ≤ k.position → r.2.stop ≤ k.breakEnd
  frays : ∀ s ∈ d.statements, k.Frays s → ∀ r ∈ d.statements, r.1.isRule = true →
    ¬ (r.2.start ≤ s.2.start ∧ s.2.stop ≤ r.2.stop)

theorem Leaves.mono {cs cs' : List (Content × Span)} {s : Content × Span} (h : k.Leaves cs s)
    (hsub : cs ⊆ cs') : k.Leaves cs' s :=
  ⟨h.directive, h.stop, h.bare.imp_right fun ⟨q, hq, hstop⟩ => ⟨q, hsub hq, hstop⟩⟩

/-- What was found before makes room as well. -/
theorem Clear.mono {d : Cursor} (h : k.Clear d) (hfaults : c.faults = [])
    (hstatements : c.statements ⊆ d.statements) (hcomments : c.comments ⊆ d.comments) :
    k.Clear c where
  faults := hfaults
  statements s hs := h.statements s (hstatements hs)
  comments s hs := h.comments s (hcomments hs)
  leaves s hs hleaves r hr := h.leaves s (hstatements hs) (hleaves.mono hcomments) r (hstatements hr)
  frays s hs hfrays r hr := h.frays s (hstatements hs) hfrays r (hstatements hr)

theorem Clear.of_finds {source : Text} {d : Cursor} {ss cs : List (Content × Span)}
    (h : k.Clear d) (hfinds : Cursor.Finds source c d ss cs) : k.Clear c :=
  h.mono (hfinds.ahead.faults_nil h.faults)
    (hfinds.statements ▸ List.subset_append_left _ _) (hfinds.comments ▸ List.subset_append_left _ _)

end Padding

end MakeBlueprint.Makefile
