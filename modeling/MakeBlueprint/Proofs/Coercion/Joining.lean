import MakeBlueprint.Proofs.Coercion.Evaluation

/-!
# Joined text becomes joined values

What a value says does not depend on how its sums are nested, or on whether its literals are joined
already: it is a sequence of pieces (`Value.content`). Joined text has the joined pieces.

* `content_add`: a sum has the pieces of its sides.
* `exists_coerceString_append`: the pieces of a string are those of its parts.
* `words_append_char`, `exists_coerceList_append`: a blank separates words, so the pieces of a list
  are those of its parts too.
* `parts_of_partition`: directories come apart piece by piece.
* `coerceList_ofText`: a constant is the literal list of its words.
-/

namespace MakeBlueprint.Makefile.Phrase.Body

variable {p : Char → Bool} {c : Char}

/-! ## Cutting joined phrases -/

/-- A separator in front cuts off an empty piece. -/
theorem split_char_of_sep (hc : p c = true) (r : Body) :
    split p (.char c r) = .nil :: split p r := by
  unfold split
  rw [separators, if_pos hc, Nat.add_comm, splitAtMost, cut, if_pos hc]

/-- What is in front and is no separator goes to the first piece. -/
theorem split_front {front : Body → Body} {r : Body}
    (hseparators : separators p (front r) = separators p r)
    (hcut : cut p (front r) = (cut p r).map fun (a, b) => (front a, b)) :
    split p (front r) = (split p r).modifyHead front := by
  unfold split
  rw [hseparators]
  cases separators p r with
  | zero => rfl
  | succ n =>
    rw [splitAtMost, splitAtMost, hcut]
    cases cut p r <;> rfl

theorem split_char_of_not (hc : p c = false) (r : Body) :
    split p (.char c r) = (split p r).modifyHead (.char c) :=
  split_front (by rw [separators, hc]; exact Nat.zero_add _) (by rw [cut, hc]; rfl)

theorem split_ref (name : Body) (m n : Nat) (d : Delimiter) (r : Body) :
    split p (.ref name m n d r) = (split p r).modifyHead (.ref name m n d) :=
  split_front rfl rfl

theorem split_ne_nil (p : Char → Bool) (b : Body) : split p b ≠ [] := by
  rw [← List.length_pos_iff, length_split]
  exact Nat.succ_pos _

theorem modifyHead_split_append (front : Body → Body) (b : Body) (pieces : List Body) :
    (split p b ++ pieces).modifyHead front = (split p b).modifyHead front ++ pieces := by
  obtain ⟨piece, rest, h⟩ := List.exists_cons_of_ne_nil (split_ne_nil p b)
  rw [h]
  rfl

/-- **A separator between two phrases** cuts one from the other. -/
theorem split_append_char (hc : p c = true) (a b : Body) :
    split p (a ++ .char c b) = split p a ++ split p b := by
  induction a with
  | nil => exact split_char_of_sep hc b
  | char d r ih =>
    rw [char_append]
    by_cases hd : p d = true
    · rw [split_char_of_sep hd, split_char_of_sep hd, ih, List.cons_append]
    · have hnot := Bool.eq_false_iff.mpr hd
      rw [split_char_of_not hnot, split_char_of_not hnot, ih, modifyHead_split_append]
  | ref name m n d r _ ih => rw [ref_append, split_ref, split_ref, ih, modifyHead_split_append]

theorem split_ofText (p : Char → Bool) (t : Text) :
    split p (ofText t) = (Text.split p t).map ofText := by
  induction t with
  | nil => rfl
  | cons c t ih =>
    rw [ofText, Text.split]
    by_cases hc : p c = true
    · rw [split_char_of_sep hc, ih, if_pos hc]
      rfl
    · rw [split_char_of_not (Bool.eq_false_iff.mpr hc), ih, if_neg hc]
      obtain ⟨piece, pieces, h⟩ := List.exists_cons_of_ne_nil (Text.split_ne_nil p t)
      rw [h]
      rfl

end MakeBlueprint.Makefile.Phrase.Body

namespace MakeBlueprint.Blueprint

/-- **A piece of a value.** -/
inductive Value.Piece where
  /-- A character of a literal string. -/
  | char (c : Char)
  /-- An item of a literal list. -/
  | item (value : Value)
  /-- A literal boolean. -/
  | bool (b : Bool)
  /-- A variable. -/
  | var (name : Text) (kind : Kind)

/-- **The pieces of a value**, however its sums are nested. -/
def Value.content : Value → List Value.Piece
  | .string text => text.map .char
  | .list items => items.map .item
  | .bool b => [.bool b]
  | .map _ => []
  | .binary _ left right _ => content left ++ content right
  | .var name kind => [.var name kind]

/-- **Two values say the same**: they have one kind and the same pieces. In lists their order is
free. -/
def Value.SameContent (v w : Value) : Prop :=
  v.kind = w.kind ∧ if v.kind = .list then v.content.Perm w.content else v.content = w.content

theorem Value.sameContent_refl (v : Value) : v.SameContent v := by
  refine ⟨rfl, ?_⟩
  split
  · exact .refl _
  · rfl

end MakeBlueprint.Blueprint

namespace MakeBlueprint.Conversion

open Blueprint (Kind Value)
open Blueprint.Value (Piece)
open Makefile (Phrase Reference Scope)

/-! ## Pieces of sums -/

section Sums

variable {kind : Kind} {left right value : Value} {values : List Value}

theorem content_addSameKind (kind : Kind) (left right : Value) :
    (addSameKind kind left right).content = left.content ++ right.content := by
  unfold addSameKind
  split
  · exact List.map_append
  · exact List.map_append
  · rfl

/-- **A sum of two values of one kind has the pieces of both.** -/
theorem content_add (hkind : left.kind = right.kind) (h : add left right = .ok value) :
    value.content = left.content ++ right.content := by
  have hadd : addPromoted left right = .ok value := by
    unfold add at h
    split at h
    · next hl hr =>
      rw [hkind, hr] at hl
      cases hl
    · next hl hr =>
      rw [hkind, hr] at hl
      cases hl
    · exact h
  obtain ⟨-, -, rfl⟩ := addPromoted_iff.mp hadd
  exact content_addSameKind _ _ _

/-- A sum of two values of one kind is of that kind. -/
theorem kind_add_same (hl : left.kind = kind) (hr : right.kind = kind)
    (h : add left right = .ok value) : value.kind = kind := by
  have hsum := kind_add h
  rw [hl, hr] at hsum
  cases kind with
  | bool => cases hsum
  | string | list | map => exact (Option.some.inj hsum).symm

theorem content_foldlM_add (hl : left.kind = kind) (hvalues : ∀ v ∈ values, v.kind = kind)
    (h : values.foldlM add left = .ok value) :
    value.content = left.content ++ values.flatMap Value.content := by
  induction values generalizing left with
  | nil =>
    cases h
    exact (List.append_nil _).symm
  | cons right values ih =>
    rw [List.foldlM_cons] at h
    obtain ⟨total, htotal, h⟩ := bind_eq_ok h
    have hr := hvalues right List.mem_cons_self
    rw [ih (kind_add_same hl hr htotal) (fun v hv => hvalues v (List.mem_cons_of_mem right hv)) h,
      content_add (hl.trans hr.symm) htotal, List.append_assoc, List.flatMap_cons]

theorem content_sum {empty : Value} (hempty : empty.content = [])
    (hvalues : ∀ v ∈ values, v.kind = kind) (h : sum empty values = .ok value) :
    value.content = values.flatMap Value.content := by
  cases values with
  | nil =>
    cases h
    exact hempty
  | cons first values =>
    exact content_foldlM_add (hvalues first List.mem_cons_self)
      (fun v hv => hvalues v (List.mem_cons_of_mem first hv)) h

end Sums

/-! ## Pieces of strings -/

section Strings

variable {scope : Scope} {a b : Phrase.Body} {v w : Value}

/-- The pieces of a chunk. -/
def chunkContent (scope : Scope) (chunk : Phrase.Chunk) : List Piece :=
  match chunkString scope chunk with
  | .ok value => value.content
  | .error _ => []

/-- The pieces of a phrase as a string. -/
def stringContent (scope : Scope) : Phrase.Body → List Piece
  | .nil => []
  | .char c rest => .char c :: stringContent scope rest
  | .ref name namePos pos delimiter rest =>
    chunkContent scope (.reference ⟨⟨namePos, name⟩, pos, delimiter⟩) ++ stringContent scope rest

theorem stringContent_append (scope : Scope) (a b : Phrase.Body) :
    stringContent scope (a ++ b) = stringContent scope a ++ stringContent scope b := by
  induction a with
  | nil => rfl
  | char c rest ih => exact congrArg (Piece.char c :: ·) ih
  | ref name m n d rest _ ih =>
    rw [Phrase.Body.ref_append, stringContent, stringContent, ih, List.append_assoc]

/-- Literal characters share a chunk. -/
theorem flatMap_chunkContent (scope : Scope) (b : Phrase.Body) :
    b.chunks.flatMap (chunkContent scope) = stringContent scope b := by
  induction b with
  | nil => rfl
  | char c rest ih =>
    rw [Phrase.Body.chunks, stringContent, ← ih]
    split
    · next t cs h =>
      rw [h]
      rfl
    · rfl
  | ref name m n d rest _ ih =>
    rw [Phrase.Body.chunks, List.flatMap_cons, ih]
    rfl

theorem content_coerceString (h : coerceString scope b = .ok v) :
    v.content = stringContent scope b := by
  obtain ⟨pieces, hpieces, hsum⟩ := bind_eq_ok h
  have hkinds : ∀ piece ∈ pieces, piece.kind = .string := by
    intro piece hpiece
    obtain ⟨chunk, -, hchunk⟩ := mem_of_mapM_eq_ok hpieces piece hpiece
    exact (has_chunkString hchunk).2
  have hcontent : pieces.map Value.content = b.chunks.map (chunkContent scope) :=
    map_of_mapM_eq_ok hpieces fun chunk _ piece hpiece => by
      rw [chunkContent, hpiece]
  rw [content_sum rfl hkinds hsum, List.flatMap_def, hcontent,
    ← List.flatMap_def, flatMap_chunkContent]

/-- Joined text is a string if both parts are. -/
theorem exists_coerceString (ha : coerceString scope a = .ok v)
    (hb : coerceString scope b = .ok w) :
    ∃ total, coerceString scope (a ++ b) = .ok total := by
  cases h : coerceString scope (a ++ b) with
  | ok total => exact ⟨total, rfl⟩
  | error e =>
    obtain ⟨r, hr, hcomputed⟩ := coerceString_eq_error_iff.mp ⟨e, h⟩
    rw [Phrase.Body.references_append] at hr
    rcases List.mem_append.mp hr with hr | hr
    · obtain ⟨e, he⟩ := coerceString_eq_error_iff.mpr ⟨r, hr, hcomputed⟩
      rw [ha] at he
      cases he
    · obtain ⟨e, he⟩ := coerceString_eq_error_iff.mpr ⟨r, hr, hcomputed⟩
      rw [hb] at he
      cases he

/-- **Joined text as a string has the joined pieces.** -/
theorem exists_coerceString_append (ha : coerceString scope a = .ok v)
    (hb : coerceString scope b = .ok w) :
    ∃ total, coerceString scope (a ++ b) = .ok total ∧ total.content = v.content ++ w.content := by
  obtain ⟨total, htotal⟩ := exists_coerceString ha hb
  refine ⟨total, htotal, ?_⟩
  rw [content_coerceString htotal, content_coerceString ha, content_coerceString hb,
    stringContent_append]

theorem coerceString_ofText (scope : Scope) (t : Text) :
    coerceString scope (.ofText t) = .ok (.string t) := by
  have hchunks : (Phrase.Body.ofText t).chunks = if t = [] then [] else [.literal t] := by
    induction t with
    | nil => rfl
    | cons c t ih =>
      rw [Phrase.Body.ofText, Phrase.Body.chunks, ih]
      cases t <;> rfl
  unfold coerceString
  rw [hchunks]
  cases t <;> rfl

end Strings

/-! ## Pieces of lists -/

section Lists

variable {scope : Scope} {a b : Phrase.Body} {v w : Value} {blank : Char} {fields : List Field}
  {items items' : List Value}

/-- The piece of a list that a word is. -/
def Field.piece : Field → Piece
  | .item value => .item value
  | .reference name => .var name .list

/-- **A blank separates words.** -/
theorem words_append_char (hblank : Text.isBlank blank = true) (a b : Phrase.Body) :
    words (a ++ .char blank b) = words a ++ words b := by
  unfold words
  rw [Phrase.Body.split_append_char hblank, List.filter_append]

theorem words_ofText (t : Text) :
    words (.ofText t) = (Text.words t).map Phrase.Body.ofText := by
  unfold words Text.words
  rw [Phrase.Body.split_ofText, List.filter_map]
  refine congrArg _ (List.filter_congr fun word _ => ?_)
  cases word <;> rfl

theorem flatMap_content_groupFields (fields : List Field) :
    (groupFields fields).flatMap Value.content = fields.map Field.piece := by
  induction fields with
  | nil => rfl
  | cons f fields ih =>
    cases f with
    | reference name => exact congrArg (Piece.var name .list :: ·) ih
    | item value =>
      rw [groupFields, List.map_cons, ← ih]
      split
      · next items values h =>
        rw [h]
        rfl
      · rfl

theorem content_of_fields (hfields : (words b).mapM (field scope) = .ok fields)
    (hsum : sum (.list []) (groupFields fields) = .ok v) : v.content = fields.map Field.piece := by
  have htyped : ∀ f ∈ fields, f.Typed := by
    intro f hf
    obtain ⟨word, -, hword⟩ := mem_of_mapM_eq_ok hfields f hf
    exact typed_field hword
  rw [content_sum rfl (fun u hu => (has_groupFields htyped u hu).2) hsum,
    flatMap_content_groupFields]

theorem mapM_field_append {fields' : List Field} (hblank : Text.isBlank blank = true)
    (ha : (words a).mapM (field scope) = .ok fields)
    (hb : (words b).mapM (field scope) = .ok fields') :
    (words (a ++ .char blank b)).mapM (field scope) = .ok (fields ++ fields') := by
  rw [words_append_char hblank, List.mapM_append, ha, hb]
  rfl

/-- **Text with a blank between its parts has, as a list, the joined pieces.** -/
theorem exists_coerceList_append (hblank : Text.isBlank blank = true)
    (ha : coerceList scope a = .ok v) (hb : coerceList scope b = .ok w) :
    ∃ total, coerceList scope (a ++ .char blank b) = .ok total ∧
      total.content = v.content ++ w.content := by
  obtain ⟨fields, hfields, hv⟩ := bind_eq_ok ha
  obtain ⟨fields', hfields', hw⟩ := bind_eq_ok hb
  have hjoined := mapM_field_append hblank hfields hfields'
  obtain ⟨total, htotal, -⟩ := exists_sum_fields hjoined
  refine ⟨total, ?_, ?_⟩
  · unfold coerceList
    rw [hjoined]
    exact htotal
  · rw [content_of_fields hjoined htotal, content_of_fields hfields hv,
      content_of_fields hfields' hw, List.map_append]

/-! ## Literal lists -/

/-- Items share one list. -/
theorem sum_items (items : List Value) :
    sum (.list []) (groupFields (items.map .item)) = .ok (.list items) := by
  have hgroup : ∀ item items,
      groupFields (Field.item item :: List.map Field.item items) = [.list (item :: items)] := by
    intro item items
    induction items generalizing item with
    | nil => rfl
    | cons next items ih =>
      rw [List.map_cons, groupFields, ih]
  cases items with
  | nil => rfl
  | cons item items =>
    rw [List.map_cons, hgroup]
    rfl

/-- The words of a literal list are its items. -/
theorem mapM_field_of_list (h : coerceList scope b = .ok (.list items)) :
    (words b).mapM (field scope) = .ok (items.map .item) := by
  obtain ⟨fields, hfields, hsum⟩ := bind_eq_ok h
  have hpieces : items.map Piece.item = fields.map Field.piece := content_of_fields hfields hsum
  rw [hfields]
  clear h hfields hsum
  induction fields generalizing items with
  | nil =>
    rw [List.map_eq_nil_iff.mp hpieces]
    rfl
  | cons f fields ih =>
    cases items with
    | nil => cases hpieces
    | cons item items =>
      rw [List.map_cons, List.map_cons, List.cons.injEq] at hpieces
      cases f with
      | reference name => cases hpieces.1
      | item value =>
        cases hpieces.1
        exact congrArg (fun r : Except Refusal (List Field) => r.map (Field.item item :: ·))
          (ih hpieces.2)

/-- Literal lists are joined to a literal list. -/
theorem coerceList_append_of_lists (hblank : Text.isBlank blank = true)
    (ha : coerceList scope a = .ok (.list items)) (hb : coerceList scope b = .ok (.list items')) :
    coerceList scope (a ++ .char blank b) = .ok (.list (items ++ items')) := by
  have hjoined := mapM_field_append hblank (mapM_field_of_list ha) (mapM_field_of_list hb)
  rw [← List.map_append] at hjoined
  unfold coerceList
  rw [hjoined]
  exact sum_items _

/-- **A constant is the literal list of its words.** -/
theorem coerceList_ofText (scope : Scope) (t : Text) :
    coerceList scope (.ofText t) = .ok (.list ((Text.words t).map .string)) := by
  have hfield : ∀ word : Text, field scope (.ofText word) = .ok (.item (.string word)) := by
    intro word
    have hsole : (Phrase.Body.ofText word).soleReference? = none := by
      cases word <;> rfl
    unfold field
    rw [hsole]
    simp only [coerceString_ofText]
    rfl
  have hfields : ∀ words : List Text, (words.map Phrase.Body.ofText).mapM (field scope) =
      .ok ((words.map Value.string).map .item) := by
    intro words
    induction words with
    | nil => rfl
    | cons word words ih =>
      rw [List.map_cons, List.mapM_cons, hfield, ih]
      rfl
  unfold coerceList
  rw [words_ofText, hfields]
  exact sum_items _

end Lists

/-! ## Pieces of include directories -/

section Directories

variable {left right value own others : Value}

/-- The piece for the directories of the module that a piece becomes, if it becomes one. -/
def ownPiece? : Piece → Option Piece
  | .item value => (relativePath? value).map fun path => .item (.string path)
  | .var name _ => if name = localPathName then some (.item (.string ['.'])) else none
  | _ => none

/-- The pieces that stay as they are. -/
def isOther : Piece → Bool
  | .item value => (relativePath? value).isNone
  | .var name _ => name != localPathName
  | _ => true

/-- Only the literal list without items has no pieces. -/
def Solid (value : Value) : Prop := isEmptyList value = true ↔ value.content = []

theorem content_of_isEmptyList (h : isEmptyList value = true) : value.content = [] := by
  unfold isEmptyList at h
  split at h
  · rfl
  · cases h

theorem solid_list (items : List Value) : Solid (.list items) := by
  cases items with
  | nil => exact ⟨fun _ => rfl, fun _ => rfl⟩
  | cons item items => exact ⟨nofun, nofun⟩

theorem solid_var (name : Text) (kind : Kind) : Solid (.var name kind) :=
  ⟨nofun, nofun⟩

/-- Two lists that may be missing have the joined pieces. -/
theorem content_combine (hl : Solid left) (hr : Solid right) (hlk : left.kind = .list)
    (hrk : right.kind = .list) (h : combine left right = .ok value) :
    value.content = left.content ++ right.content ∧ Solid value ∧ value.kind = .list := by
  unfold combine at h
  split at h
  · next he =>
    cases h
    rw [hl.mp he]
    exact ⟨rfl, hr, hrk⟩
  · next he =>
    split at h
    · next he' =>
      cases h
      rw [hr.mp he', List.append_nil]
      exact ⟨rfl, hl, hlk⟩
    · have hcontent := content_add (hlk.trans hrk.symm) h
      refine ⟨hcontent, ⟨content_of_isEmptyList, fun hnone => ?_⟩, kind_add_same hlk hrk h⟩
      rw [hcontent] at hnone
      exact absurd (hl.mpr (List.append_eq_nil_iff.mp hnone).1) he

theorem content_partitionItems (items : List Value) :
    (partitionItems items).1.map Piece.item = (items.map Piece.item).filterMap ownPiece? ∧
      (partitionItems items).2.map Piece.item = (items.map Piece.item).filter isOther := by
  induction items with
  | nil => exact ⟨rfl, rfl⟩
  | cons item items ih =>
    obtain ⟨hown, hothers⟩ := ih
    rw [partitionItems, List.map_cons]
    cases hpath : relativePath? item with
    | some path =>
      have hpiece : ownPiece? (.item item) = some (.item (.string path)) := by
        rw [ownPiece?, hpath]
        rfl
      have hother : isOther (.item item) = false := by
        rw [isOther, hpath]
        rfl
      rw [List.filterMap_cons_some hpiece, List.filter_cons_of_neg (by rw [hother]; decide),
        ← hown, ← hothers]
      exact ⟨rfl, rfl⟩
    | none =>
      have hpiece : ownPiece? (.item item) = none := by
        rw [ownPiece?, hpath]
        rfl
      have hother : isOther (.item item) = true := by
        rw [isOther, hpath]
        rfl
      rw [List.filterMap_cons_none hpiece, List.filter_cons_of_pos hother, ← hown, ← hothers]
      exact ⟨rfl, rfl⟩

/-- **The two parts of a list of directories**, piece by piece. -/
structure Parts (value own others : Value) : Prop where
  ownContent : own.content = value.content.filterMap ownPiece?
  othersContent : others.content = value.content.filter isOther
  ownSolid : Solid own
  othersSolid : Solid others
  ownKind : own.kind = .list
  othersKind : others.kind = .list

/-- **Directories come apart piece by piece.** -/
theorem parts_of_partition (hv : value.Has .list) (h : partition value = .ok (own, others)) :
    Parts value own others := by
  obtain ⟨hw, hk⟩ := hv
  induction hw generalizing own others with
  | string text => cases hk
  | bool b => cases hk
  | list items hitems hkinds =>
    cases h
    obtain ⟨hown, hothers⟩ := content_partitionItems items
    exact ⟨hown, hothers, solid_list _, solid_list _, rfl, rfl⟩
  | var name kind =>
    rw [partition] at h
    split at h
    · next hname =>
      cases h
      have hpiece : ownPiece? (.var name kind) = some (.item (.string ['.'])) := if_pos hname
      have hother : isOther (.var name kind) = false := bne_eq_false_iff_eq.mpr hname
      refine ⟨?_, ?_, solid_list _, solid_list _, rfl, rfl⟩
      · rw [Value.content, Value.content, List.filterMap_cons_some hpiece]
        rfl
      · rw [Value.content, Value.content, List.filter_cons_of_neg (by rw [hother]; decide)]
        rfl
    · next hname =>
      cases h
      have hpiece : ownPiece? (.var name kind) = none := if_neg hname
      have hother : isOther (.var name kind) = true := bne_iff_ne.mpr hname
      refine ⟨?_, ?_, solid_list _, solid_var _ _, rfl, hk⟩
      · rw [Value.content, Value.content, List.filterMap_cons_none hpiece]
        rfl
      · rw [Value.content, List.filter_cons_of_pos hother]
        rfl
  | binary left right kind hleft hright hleftKind hrightKind hsum ihl ihr =>
    rw [partition] at h
    obtain ⟨⟨leftOwn, leftRest⟩, hl, h⟩ := bind_eq_ok h
    obtain ⟨⟨rightOwn, rightRest⟩, hr, h⟩ := bind_eq_ok h
    obtain ⟨total, hown, h⟩ := bind_eq_ok h
    obtain ⟨rest, hrest, h⟩ := bind_eq_ok h
    cases h
    have hleftParts := ihl hl (hleftKind.trans hk)
    have hrightParts := ihr hr (hrightKind.trans hk)
    obtain ⟨hownContent, hownSolid, hownKind⟩ := content_combine hleftParts.ownSolid
      hrightParts.ownSolid hleftParts.ownKind hrightParts.ownKind hown
    obtain ⟨hrestContent, hrestSolid, hrestKind⟩ := content_combine hleftParts.othersSolid
      hrightParts.othersSolid hleftParts.othersKind hrightParts.othersKind hrest
    refine ⟨?_, ?_, hownSolid, hrestSolid, hownKind, hrestKind⟩
    · rw [hownContent, hleftParts.ownContent, hrightParts.ownContent, Value.content,
        List.filterMap_append]
    · rw [hrestContent, hleftParts.othersContent, hrightParts.othersContent, Value.content,
        List.filter_append]

end Directories

end MakeBlueprint.Conversion
