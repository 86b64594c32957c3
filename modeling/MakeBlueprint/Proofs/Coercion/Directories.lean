import MakeBlueprint.Conversion.Vocabulary
import MakeBlueprint.Proofs.Coercion.Joining

/-!
# Include directories come apart

A list of directories is a sequence of pieces, however its sums are nested: literal items, and
variables that hold lists. Those of the module are written relative to the directory of the
makefile; the others stay as they are. `partition` separates the two kinds and loses nothing.

* `Below`: the pieces that are directories of the module, with their relative paths.
* `ownPiece?_eq_some_iff`, `isOther_iff`: the tests of the conversion are exact.
* `ComesApart`: a sequence of pieces and the two sequences that it comes apart into, each in order.
* `directories_come_apart`: every list that text can become is separated in this way.
-/

namespace MakeBlueprint.Conversion

open Blueprint (Kind Value)
open Blueprint.Value (Piece)
open Makefile (Phrase Scope)

/-! ## Directories of the module -/

/-- **A directory of the module**: a piece, and the path of the directory relative to the one of the
makefile. -/
inductive Below : Piece → Text → Prop
  /-- A reference to the directory of the makefile, in the place of a list. -/
  | list (kind : Kind) : Below (.var localPathName kind) ['.']
  /-- The directory of the makefile as an item. -/
  | item (kind : Kind) : Below (.item (.var localPathName kind)) ['.']
  /-- A literal path behind it. The slashes in front of the path are no part of it, and without them
  it may be empty. -/
  | path (kind sumKind : Kind) (slashes : Nat) (path : Text) (hpath : path.head? ≠ some '/') :
    Below (.item (.binary '+' (.var localPathName kind)
        (.string (List.replicate slashes '/' ++ path)) sumKind))
      (if path.isEmpty then ['.'] else path)

variable {piece : Piece} {path : Text} {value own others : Value}

/-- A text behind its slashes. -/
theorem exists_replicate_append (t : Text) :
    ∃ slashes, t = List.replicate slashes '/' ++ t.dropWhile (· == '/') ∧
      (t.dropWhile (· == '/')).head? ≠ some '/' := by
  induction t with
  | nil => exact ⟨0, rfl, nofun⟩
  | cons c t ih =>
    by_cases hc : c = '/'
    · subst hc
      obtain ⟨slashes, ht, hhead⟩ := ih
      refine ⟨slashes + 1, ?_, hhead⟩
      rw [List.replicate_succ, List.cons_append]
      exact congrArg ('/' :: ·) ht
    · have hstays : (c :: t).dropWhile (· == '/') = c :: t :=
        List.dropWhile_cons_of_neg (by simpa using hc)
      rw [hstays]
      exact ⟨0, rfl, fun h => hc (Option.some.inj h)⟩

theorem dropWhile_replicate_append (slashes : Nat) (hpath : path.head? ≠ some '/') :
    (List.replicate slashes '/' ++ path).dropWhile (· == '/') = path := by
  induction slashes with
  | zero =>
    cases path with
    | nil => rfl
    | cons c path =>
      exact List.dropWhile_cons_of_neg fun h => hpath (congrArg some (beq_iff_eq.mp h))
  | succ slashes ih => exact ih

/-- The relative path of an item, if it is a directory of the module. -/
theorem relativePath?_eq_some_iff : relativePath? value = some path ↔ Below (.item value) path := by
  constructor
  · intro h
    unfold relativePath? at h
    split at h
    · next name kind =>
      split at h
      · next hname =>
        cases h
        rw [hname]
        exact .item kind
      · cases h
    · next left t sumKind =>
      split at h
      · next hleft =>
        cases h
        cases left with
        | var name kind =>
          have hname : name = localPathName := beq_iff_eq.mp hleft
          obtain ⟨slashes, ht, hhead⟩ := exists_replicate_append t
          have hbelow := Below.path kind sumKind slashes _ hhead
          rw [← ht, ← hname] at hbelow
          exact hbelow
        | _ => cases hleft
      · cases h
    · cases h
  · rintro (_ | kind | ⟨kind, sumKind, slashes, rest, hrest⟩)
    · rfl
    · change some _ = some _
      rw [dropWhile_replicate_append slashes hrest]

/-- **A piece becomes a directory of the module** exactly if it is one. -/
theorem ownPiece?_eq_some_iff {own : Piece} :
    ownPiece? piece = some own ↔ ∃ path, Below piece path ∧ own = .item (.string path) := by
  cases piece with
  | char c | bool b =>
    constructor
    · intro h
      cases h
    · rintro ⟨_, ⟨⟩, -⟩
  | item value =>
    rw [ownPiece?, Option.map_eq_some_iff]
    exact exists_congr fun path => and_congr relativePath?_eq_some_iff eq_comm
  | var name kind =>
    rw [ownPiece?]
    split
    · next hname =>
      subst hname
      constructor
      · intro h
        exact ⟨['.'], .list kind, (Option.some.inj h).symm⟩
      · rintro ⟨_, ⟨⟩, rfl⟩
        rfl
    · next hname =>
      constructor
      · intro h
        cases h
      · rintro ⟨_, ⟨⟩, -⟩
        exact absurd rfl hname

theorem isOther_eq_isNone (piece : Piece) : isOther piece = (ownPiece? piece).isNone := by
  cases piece with
  | char c | bool b => rfl
  | item value => rw [isOther, ownPiece?, Option.isNone_map]
  | var name kind =>
    rw [isOther, ownPiece?]
    by_cases hname : name = localPathName
    · rw [if_pos hname, hname]
      rfl
    · rw [if_neg hname]
      exact bne_iff_ne.mpr hname

/-- **A piece stays as it is** exactly if it is no directory of the module. -/
theorem isOther_iff : isOther piece = true ↔ ∀ path, ¬ Below piece path := by
  rw [isOther_eq_isNone, Option.isNone_iff_eq_none]
  constructor
  · intro hnone path hbelow
    have hsome := ownPiece?_eq_some_iff.mpr ⟨path, hbelow, rfl⟩
    rw [hnone] at hsome
    cases hsome
  · intro hnot
    cases hpiece : ownPiece? piece with
    | none => rfl
    | some own =>
      obtain ⟨path, hbelow, -⟩ := ownPiece?_eq_some_iff.mp hpiece
      exact absurd hbelow (hnot path)

/-! ## Sequences of directories -/

/-- **A sequence of pieces comes apart** into the paths of the directories of the module and the
other pieces. Each piece goes to one of the two, and both are in order. -/
inductive ComesApart : List Piece → List Text → List Piece → Prop
  | nil : ComesApart [] [] []
  | own {piece path pieces paths others} (hbelow : Below piece path)
      (hrest : ComesApart pieces paths others) :
      ComesApart (piece :: pieces) (path :: paths) others
  | other {piece pieces paths others} (hnot : ∀ path, ¬ Below piece path)
      (hrest : ComesApart pieces paths others) :
      ComesApart (piece :: pieces) paths (piece :: others)

theorem exists_comesApart (pieces : List Piece) :
    ∃ paths, ComesApart pieces paths (pieces.filter isOther) ∧
      pieces.filterMap ownPiece? = paths.map fun path => .item (.string path) := by
  induction pieces with
  | nil => exact ⟨[], .nil, rfl⟩
  | cons piece pieces ih =>
    obtain ⟨paths, hapart, hown⟩ := ih
    by_cases hother : isOther piece = true
    · have hpiece : ownPiece? piece = none := by
        rwa [isOther_eq_isNone, Option.isNone_iff_eq_none] at hother
      rw [List.filter_cons_of_pos hother, List.filterMap_cons_none hpiece]
      exact ⟨paths, .other (isOther_iff.mp hother) hapart, hown⟩
    · have hsome : (ownPiece? piece).isSome = true := by
        rwa [isOther_eq_isNone, ← Option.not_isSome, Bool.not_eq_true', Bool.not_eq_false]
          at hother
      obtain ⟨ownPiece, hpiece⟩ := Option.isSome_iff_exists.mp hsome
      obtain ⟨path, hbelow, rfl⟩ := ownPiece?_eq_some_iff.mp hpiece
      rw [List.filter_cons_of_neg hother, List.filterMap_cons_some hpiece, hown]
      exact ⟨path :: paths, .own hbelow hapart, rfl⟩

/-! ## The two parts -/

/-- A literal list and a literal list are combined to a literal list. -/
theorem combine_lists (items items' : List Value) :
    combine (.list items) (.list items') = .ok (.list (items ++ items')) := by
  cases items with
  | nil => rfl
  | cons item items =>
    cases items' with
    | nil => exact congrArg (fun l => Except.ok (Value.list l)) (List.append_nil _).symm
    | cons item' items' => rfl

/-- The directories of the module are a literal list, also of a sum. -/
theorem exists_list_of_partition (h : partition value = .ok (own, others)) :
    ∃ items, own = .list items := by
  induction value using partition.induct generalizing own others with
  | case1 operator left right kind ihl ihr =>
    rw [partition] at h
    obtain ⟨⟨leftOwn, leftRest⟩, hl, h⟩ := bind_eq_ok h
    obtain ⟨⟨rightOwn, rightRest⟩, hr, h⟩ := bind_eq_ok h
    obtain ⟨total, hown, h⟩ := bind_eq_ok h
    obtain ⟨rest, -, h⟩ := bind_eq_ok h
    cases h
    obtain ⟨items, rfl⟩ := ihl hl
    obtain ⟨items', rfl⟩ := ihr hr
    rw [combine_lists] at hown
    cases hown
    exact ⟨_, rfl⟩
  | case2 kind =>
    rw [partition, if_pos rfl] at h
    cases h
    exact ⟨_, rfl⟩
  | case3 name kind hname =>
    rw [partition, if_neg hname] at h
    cases h
    exact ⟨_, rfl⟩
  | case4 items =>
    rw [partition] at h
    cases h
    exact ⟨_, rfl⟩
  | case5 value hbinary hvar hlist =>
    have hnone : partition value = .ok (.list [], value) := by
      unfold partition
      split
      · exact absurd rfl (hbinary _ _ _ _)
      · exact absurd rfl (hvar _ _)
      · exact absurd rfl (hlist _)
      · rfl
    rw [hnone] at h
    cases h
    exact ⟨_, rfl⟩

theorem comesApart_of_parts {items : List Value} (h : Parts value (.list items) others) :
    ∃ paths : List Text, items = paths.map .string ∧
      ComesApart value.content paths others.content := by
  obtain ⟨paths, hapart, hown⟩ := exists_comesApart value.content
  refine ⟨paths, ?_, ?_⟩
  · have hitems : items.map Piece.item = (paths.map Value.string).map Piece.item := by
      rw [List.map_map]
      exact h.ownContent.trans hown
    exact List.map_injective_iff.mpr (fun _ _ => Piece.item.inj) hitems
  · rw [h.othersContent]
    exact hapart

/-- **Include directories come apart without loss.** The list that a text becomes is always
separated. The directories of the module are a literal list of relative paths, the other part is a
list of the other pieces, and each piece of the list is in one of the two, in order. -/
theorem directories_come_apart {scope : Scope} {body : Phrase.Body}
    (h : coerceList scope body = .ok value) :
    ∃ (paths : List Text) (others : Value),
      partition value = .ok (.list (paths.map .string), others) ∧ others.kind = .list ∧
        ComesApart value.content paths others.content := by
  obtain ⟨own, others, hpartition, -, -⟩ := exists_partition_of_coerceList h
  have hparts : Parts value own others := parts_of_partition (has_coerceList h) hpartition
  obtain ⟨items, rfl⟩ := exists_list_of_partition hpartition
  obtain ⟨paths, rfl, hapart⟩ := comesApart_of_parts hparts
  exact ⟨paths, others, hpartition, hparts.othersKind, hapart⟩

/-- The words `a $(LOCAL_PATH)//x $(B) $(LOCAL_PATH)`. -/
def directoryWords : Phrase.Body :=
  .char 'a' (.char ' ' (.ref (.ofText localPathName) 0 0 .paren
    (.char '/' (.char '/' (.char 'x' (.char ' ' (.ref (.ofText ['B']) 0 0 .paren
      (.char ' ' (.ref (.ofText localPathName) 0 0 .paren .nil)))))))))

/-- The list that these words become. -/
def directoryList : Value :=
  .binary '+'
    (.binary '+'
      (.list [.string ['a'],
        .binary '+' (.var localPathName .string) (.string ['/', '/', 'x']) .string])
      (.var ['B'] .list) .list)
    (.var localPathName .list) .list

/-- Two of its pieces are directories of the module, one of them behind the other parts. -/
theorem directories_come_apart_words :
    coerceList rootScope directoryWords = .ok directoryList ∧
      ComesApart directoryList.content [['x'], ['.']]
        [.item (.string ['a']), .var ['B'] .list] := by
  have hlist : coerceList rootScope directoryWords = .ok directoryList := rfl
  have hparts : partition directoryList = .ok (.list ([['x'], ['.']].map .string),
      .binary '+' (.list [.string ['a']]) (.var ['B'] .list) .list) := rfl
  obtain ⟨paths, others, hpartition, -, hapart⟩ := directories_come_apart hlist
  rw [hparts] at hpartition
  obtain ⟨hown, rfl⟩ := Prod.mk.inj (Except.ok.inj hpartition)
  have hpaths : [['x'], ['.']] = paths :=
    List.map_injective_iff.mpr (fun _ _ => Value.string.inj) (Value.list.inj hown)
  rw [← hpaths] at hapart
  exact ⟨hlist, hapart⟩

end MakeBlueprint.Conversion
