import MakeBlueprint.Proofs.Coercion.Directories
import MakeBlueprint.Proofs.Coercion.Sums
import MakeBlueprint.Proofs.Conversion.Writes

/-!
# Where relative paths lead

Directories of the module are written relative to the directory of the makefile. They come from the
words that are a reference to that directory with a literal behind it. All slashes in front of the
literal are taken off, but it is not asked that there is one: text that is glued to the name of the
directory becomes a path below it.

* `PathForm`: a path up to repeated slashes, `.` segments and a slash at its end.
* `pathForm_relative_iff`: the paths that lead to the directory that the word names.
* `moduleText?`: the words that become relative paths; `ownPiece?_field`: no others do.
* `relative_paths`: what is written for both variables, and where it leads.
-/

namespace MakeBlueprint

/-! ## Paths -/

/-- **What a path says**: whether it starts at the root, and the names in it. -/
structure PathForm where
  absolute : Bool
  segments : List Text
  deriving DecidableEq

/-- Whether a segment of a path is a name: it is neither empty nor `.`. -/
def isSegment (s : Text) : Bool := s != [] && s != ['.']

/-- The names in a path. -/
def segments (t : Text) : List Text := (t.split (· == '/')).filter isSegment

/-- A path without repeated slashes, `.` segments and a slash at its end. -/
def pathForm (t : Text) : PathForm := ⟨t.head? == some '/', segments t⟩

@[simp] theorem segments_nil : segments [] = [] := rfl

/-- A slash separates the names in a path. -/
theorem segments_append_slash (s t : Text) :
    segments (s ++ '/' :: t) = segments s ++ segments t := by
  unfold segments
  rw [Text.split_append_cons (by decide), List.filter_append]

theorem segments_slash (t : Text) : segments ('/' :: t) = segments t :=
  segments_append_slash [] t

theorem segments_dropWhile_slash (t : Text) : segments (t.dropWhile (· == '/')) = segments t := by
  induction t with
  | nil => rfl
  | cons c t ih =>
    by_cases hc : c = '/'
    · rw [hc, segments_slash]
      exact ih
    · rw [List.dropWhile_cons_of_neg (by simpa using hc)]

/-- Without a slash in between, the last piece of one path and the first of another are one. -/
theorem split_append (p : Char → Bool) (s t : Text) :
    ∃ before last first behind, s.split p = before ++ [last] ∧ t.split p = first :: behind ∧
      (s ++ t).split p = before ++ (last ++ first) :: behind := by
  obtain ⟨first, behind, ht⟩ := List.exists_cons_of_ne_nil (Text.split_ne_nil p t)
  induction s with
  | nil => exact ⟨[], [], first, behind, rfl, ht, ht⟩
  | cons c s ih =>
    obtain ⟨before, last, first', behind', hs, ht', hst⟩ := ih
    rw [List.cons_append, Text.split, Text.split]
    split
    · refine ⟨[] :: before, last, first', behind', ?_, ht', ?_⟩
      · rw [hs, List.cons_append]
      · rw [hst, List.cons_append]
    · cases before with
      | nil => exact ⟨[], c :: last, first', behind', by rw [hs]; rfl, ht', by rw [hst]; rfl⟩
      | cons piece before =>
        exact ⟨(c :: piece) :: before, last, first', behind', by rw [hs]; rfl, ht', by rw [hst]; rfl⟩

theorem filter_glued_ne {last first : Text} (hlast : last ≠ []) (hfirst : first ≠ [])
    (before behind : List Text) :
    (before ++ (last ++ first) :: behind).filter isSegment ≠
      (before ++ [last]).filter isSegment ++ (first :: behind).filter isSegment := by
  have hglued : isSegment (last ++ first) = true := by
    obtain ⟨c, last, rfl⟩ := List.exists_cons_of_ne_nil hlast
    obtain ⟨d, first, rfl⟩ := List.exists_cons_of_ne_nil hfirst
    simp [isSegment]
  intro h
  rw [List.filter_append, List.filter_append, List.append_assoc, List.filter_cons_of_pos hglued] at h
  have htail := List.append_cancel_left h
  cases hl : isSegment last <;> cases hf : isSegment first <;>
    simp [hl, hf, hlast, hfirst] at htail

/-- **Glued names are another name.** -/
theorem segments_append_ne (s t : Text) {c d : Char} (hc : c ≠ '/') (hd : d ≠ '/') :
    segments (s ++ [c] ++ d :: t) ≠ segments (s ++ [c]) ++ segments (d :: t) := by
  have hsingle : Text.split (· == '/') [c] = [[c]] := by
    rw [Text.split, if_neg (by simpa using hc)]
    rfl
  obtain ⟨before, last, _, _, -, hlast, hs⟩ := split_append (· == '/') s [c]
  rw [hsingle] at hlast
  cases hlast
  obtain ⟨front, back, first, behind, hsc, hdt, hall⟩ := split_append (· == '/') (s ++ [c]) (d :: t)
  have hback : back ≠ [] := by
    rw [hs] at hsc
    obtain ⟨-, hsame⟩ := List.append_inj' hsc rfl
    rw [← (List.cons.inj hsame).1]
    exact List.append_ne_nil_of_right_ne_nil _ (List.cons_ne_nil c [])
  have hfirst : first ≠ [] := by
    rw [Text.split, if_neg (by simpa using hd)] at hdt
    obtain ⟨piece, pieces, hpieces⟩ := List.exists_cons_of_ne_nil (Text.split_ne_nil (· == '/') t)
    rw [hpieces] at hdt
    rw [← (List.cons.inj hdt).1]
    exact List.cons_ne_nil d piece
  unfold segments
  rw [hall, hsc, hdt]
  exact filter_glued_ne hback hfirst front behind

/-- A text behind a directory as a path relative to the directory. -/
def relative (t : Text) : Text :=
  let path := t.dropWhile (· == '/')
  if path.isEmpty then ['.'] else path

theorem segments_relative (t : Text) : segments (relative t) = segments t := by
  rw [← segments_dropWhile_slash t]
  unfold relative
  simp only
  split
  · next hempty =>
    rw [List.isEmpty_iff.mp hempty]
    rfl
  · rfl

/-- **Where a relative path leads.** Below a directory it leads where the text behind the name of the
directory does exactly if that text starts with a slash, or if there is no text or the name of the
directory ends with a slash. -/
theorem pathForm_relative_iff (d t : Text) :
    pathForm (d ++ '/' :: relative t) = pathForm (d ++ t) ↔
      t.head? = some '/' ∨ d ≠ [] ∧ (t = [] ∨ d.getLast? = some '/') := by
  have hsegments : segments (d ++ '/' :: relative t) = segments d ++ segments t := by
    rw [segments_append_slash, segments_relative]
  unfold pathForm
  rw [PathForm.mk.injEq, hsegments]
  rcases List.eq_nil_or_concat' d with rfl | ⟨d, c, rfl⟩
  · rw [List.nil_append, List.nil_append, segments_nil, List.nil_append]
    constructor
    · rintro ⟨habsolute, -⟩
      exact .inl (beq_iff_eq.mp habsolute.symm)
    · rintro (hslash | ⟨hne, -⟩)
      · rw [hslash]
        exact ⟨rfl, rfl⟩
      · exact absurd rfl hne
  · have hne : d ++ [c] ≠ [] := List.append_ne_nil_of_right_ne_nil d (List.cons_ne_nil c [])
    have habsolute : ∀ u : Text, (d ++ [c] ++ u).head? = (d ++ [c]).head? := by
      intro u
      cases d <;> rfl
    rw [habsolute, habsolute, List.getLast?_concat]
    rcases t with _ | ⟨x, t⟩
    · rw [segments_nil, List.append_nil, List.append_nil]
      exact iff_of_true ⟨rfl, rfl⟩ (.inr ⟨hne, .inl rfl⟩)
    · by_cases hx : x = '/'
      · subst hx
        rw [segments_slash, segments_append_slash]
        exact iff_of_true ⟨rfl, rfl⟩ (.inl rfl)
      · by_cases hc : c = '/'
        · subst hc
          rw [List.append_assoc, List.singleton_append, segments_append_slash,
            segments_append_slash, segments_nil, List.append_nil]
          exact iff_of_true ⟨rfl, rfl⟩ (.inr ⟨hne, .inr rfl⟩)
        · refine iff_of_false (fun h => segments_append_ne d t hc hx h.2.symm) ?_
          rintro (hslash | ⟨-, hnil | hlast⟩)
          · exact hx (Option.some.inj hslash)
          · cases hnil
          · exact hc (Option.some.inj hlast)

end MakeBlueprint

namespace MakeBlueprint.Conversion

open Blueprint (Path Value)
open Blueprint.Value (Piece)
open Makefile (Phrase Reference Scope)

variable {scope : Scope} {word body : Phrase.Body} {r : Reference} {t : Text} {v value : Value}

/-! ## Words that become relative paths -/

/-- The text of a literal value. -/
def literalText? : Except Refusal Value → Option Text
  | .ok (.string t) => some t
  | _ => none

/-- **The text behind the directory of the makefile** in a word that is a reference to it, alone or
with one literal chunk behind it. -/
def moduleText? (scope : Scope) (word : Phrase.Body) : Option Text :=
  match word.chunks with
  | [.reference r] => if r.name.constant? = some localPathName then some [] else none
  | [.reference r, chunk] =>
    if r.name.constant? = some localPathName then literalText? (chunkString scope chunk) else none
  | _ => none

/-- The paths of the directories of the module, in the order of their words. -/
def relativePaths (scope : Scope) (body : Phrase.Body) : List Text :=
  ((words body).filterMap (moduleText? scope)).map relative

theorem referenceString_localPath (scope : Scope) (hr : r.name.constant? = some localPathName) :
    referenceString scope r = .ok (.var localPathName .string) :=
  referenceString_of_name hr (by decide) (by decide)

/-- The chunks of a word that becomes a relative path. -/
theorem chunks_of_moduleText? (h : moduleText? scope word = some t) :
    ∃ r, r.name.constant? = some localPathName ∧
      (word.chunks = [.reference r] ∧ t = [] ∨
        ∃ chunk, word.chunks = [.reference r, chunk] ∧ chunkString scope chunk = .ok (.string t)) := by
  unfold moduleText? at h
  split at h
  · next r hchunks =>
    split at h
    · next hname =>
      cases h
      exact ⟨r, hname, .inl ⟨hchunks, rfl⟩⟩
    · cases h
  · next r chunk hchunks =>
    split at h
    · next hname =>
      unfold literalText? at h
      split at h
      · next text htext =>
        cases h
        exact ⟨r, hname, .inr ⟨chunk, hchunks, htext⟩⟩
      · cases h
    · cases h
  · cases h

/-- **What such a word stands for**: the directory of the makefile with the text behind it. -/
theorem value_of_moduleText? (hdollar : scope.get Makefile.dollarName = ['$'])
    (h : moduleText? scope word = some t) : word.value scope = scope.get localPathName ++ t := by
  obtain ⟨r, hname, hcases⟩ := chunks_of_moduleText? h
  have hr : r.value scope = scope.get localPathName :=
    Reference.value_of_constant (call?_of_name hname (by decide)) hname
  rw [← Phrase.Body.flatMap_value_chunks]
  rcases hcases with ⟨hchunks, rfl⟩ | ⟨chunk, hchunks, hchunk⟩
  · rw [hchunks, List.flatMap_singleton, List.append_nil]
    exact hr
  · have ht : t = chunk.value scope := Option.some.inj (text?_chunkString hdollar hchunk)
    rw [hchunks, List.flatMap_cons, List.flatMap_singleton, ht]
    exact congrArg (· ++ chunk.value scope) hr

/-- **An item becomes a relative path** exactly if its word is of this form. -/
theorem relativePath?_coerceString (hsole : word.soleReference? = none)
    (h : coerceString scope word = .ok v) :
    relativePath? v = (moduleText? scope word).map relative := by
  cases hm : moduleText? scope word with
  | some t =>
    obtain ⟨r, hname, ⟨hchunks, -⟩ | ⟨chunk, hchunks, hchunk⟩⟩ := chunks_of_moduleText? hm
    · rw [Phrase.Body.soleReference?_of_chunks hchunks] at hsole
      cases hsole
    · rw [coerceString_pair hchunks (referenceString_localPath scope hname) hchunk] at h
      cases h
      rfl
  | none =>
    cases hpath : relativePath? v with
    | none => rfl
    | some path =>
      cases relativePath?_eq_some_iff.mp hpath with
      | item kind =>
        obtain ⟨r, hr⟩ := exists_soleReference? h
        rw [hsole] at hr
        cases hr
      | path kind sumKind slashes path =>
        obtain ⟨r, chunk, hchunks, hname, hchunk⟩ := chunks_of_coerceString h
        unfold moduleText? at hm
        rw [hchunks] at hm
        simp only at hm
        rw [if_pos hname, hchunk] at hm
        cases hm

theorem ownPiece?_referenceField {f : Field} (h : referenceField scope r = .ok f) :
    ownPiece? f.piece =
      if r.name.constant? = some localPathName then some (.item (.string ['.'])) else none := by
  unfold referenceField at h
  split at h
  · next result hcall =>
    cases h
    split
    · next hname =>
      rw [call?_of_name hname (by decide)] at hcall
      cases hcall
    · rfl
  · obtain ⟨name, hname, rfl⟩ := Blueprint.Property.map_eq_ok h
    rw [constant?_of_literalName hname]
    simp only [Option.some.injEq]
    split
    · next htop =>
      rw [htop, if_neg (by decide)]
      rfl
    · split
      · next hdollar =>
        rw [hdollar, if_neg (by decide)]
        rfl
      · rfl

/-- **A word becomes a directory of the module** exactly if it is of this form. -/
theorem ownPiece?_field {f : Field} (h : field scope word = .ok f) :
    ownPiece? f.piece = (moduleText? scope word).map fun t => .item (.string (relative t)) := by
  unfold field at h
  split at h
  · next r hsole =>
    rw [ownPiece?_referenceField h]
    unfold moduleText?
    rw [Phrase.Body.chunks_of_soleReference? hsole]
    simp only
    split <;> rfl
  · next hsole =>
    obtain ⟨v, hv, rfl⟩ := Blueprint.Property.map_eq_ok h
    change (relativePath? v).map _ = _
    rw [relativePath?_coerceString hsole hv, Option.map_map]
    rfl

/-- **The directories of the module in a list** are the relative paths of its words. -/
theorem partition_coerceList (h : coerceList scope body = .ok value) :
    ∃ others, partition value = .ok (.list ((relativePaths scope body).map .string), others) := by
  obtain ⟨fields, hfields, hsum⟩ := bind_eq_ok h
  obtain ⟨own, others, hpartition, -, -⟩ := exists_partition_of_coerceList h
  have hparts := parts_of_partition (has_coerceList h) hpartition
  obtain ⟨items, rfl⟩ := exists_list_of_partition hpartition
  refine ⟨others, ?_⟩
  have hpieces : fields.map (fun f => ownPiece? f.piece) = (words body).map fun word =>
      (moduleText? scope word).map fun t => .item (.string (relative t)) :=
    map_of_mapM_eq_ok hfields fun word _ f hf => ownPiece?_field hf
  have hitems : items.map Piece.item =
      ((relativePaths scope body).map Value.string).map Piece.item := calc
    items.map Piece.item = value.content.filterMap ownPiece? := hparts.ownContent
    _ = (fields.map fun f => ownPiece? f.piece).filterMap id := by
      rw [content_of_fields hfields hsum, List.filterMap_map, List.filterMap_map]
      rfl
    _ = (words body).filterMap fun word =>
        (moduleText? scope word).map fun t => .item (.string (relative t)) := by
      rw [hpieces, List.filterMap_map]
      rfl
    _ = ((relativePaths scope body).map Value.string).map Piece.item := by
      unfold relativePaths
      rw [List.map_map, List.map_map, List.map_filterMap]
      rfl
  rw [hpartition, List.map_injective_iff.mpr (fun _ _ => Piece.item.inj) hitems]

/-! ## Both variables -/

/-- **Where the directories of a module lead.** Of the words of an accepted list, exactly those that
are a reference to the directory of the makefile, alone or with one literal chunk behind it, are
written as relative paths, by both variables and in their order. Such a word stands for that
directory with the literal text behind it. Its relative path leads to the same place for a
directory exactly if the text starts with a slash, or if there is no text or the directory ends
with a slash. -/
theorem relative_paths (scope : Scope) (path : Path) (body : Phrase.Body) (append : Bool)
    (value : Value) (h : coerceList scope body = .ok value) :
    (∃ others,
      writes scope "LOCAL_C_INCLUDES" path body append =
        .ok (listWrites path "local_include_dirs"
            (.list ((relativePaths scope body).map .string)) append ++
          listWrites path "include_dirs" others append) ∧
      writes scope "LOCAL_EXPORT_C_INCLUDE_DIRS" path body append =
        .ok (listWrites path "export_include_dirs"
            (.list ((relativePaths scope body).map .string)) append ++
          listWrites path "export_include_dirs" others
            (append || !(relativePaths scope body).isEmpty))) ∧
      ∀ word ∈ words body, ∀ t, moduleText? scope word = some t →
        (scope.get Makefile.dollarName = ['$'] →
          word.value scope = scope.get localPathName ++ t) ∧
        ∀ d, pathForm (d ++ '/' :: relative t) = pathForm (d ++ t) ↔
          t.head? = some '/' ∨ d ≠ [] ∧ (t = [] ∨ d.getLast? = some '/') := by
  refine ⟨?_, fun word _ t ht =>
    ⟨fun hdollar => value_of_moduleText? hdollar ht, fun d => pathForm_relative_iff d t⟩⟩
  obtain ⟨others, hpartition⟩ := partition_coerceList h
  refine ⟨others, ?_, ?_⟩
  · change specialWrites scope path body append .localIncludeDirs = _
    unfold specialWrites
    rw [h]
    change partition value >>= _ = _
    rw [hpartition]
    rfl
  · change specialWrites scope path body append .exportIncludeDirs = _
    unfold specialWrites
    rw [h]
    change partition value >>= _ = _
    rw [hpartition]
    cases relativePaths scope body <;> rfl

/-- The words `$(LOCAL_PATH)x` and `$(LOCAL_PATH)/y` both become relative paths. For the directory
`d` the second leads to `d/y` as it should, the first to `d/x` and not to `dx`. -/
theorem relative_paths_glued :
    let own : Reference := ⟨.ofText 2 localPathName, 0, .paren⟩
    let glued : Phrase.Body := .ofReference own ++ .ofText ['x']
    let below : Phrase.Body := .ofReference own ++ .ofText ['/', 'y']
    let body := glued ++ .char ' ' below
    words body = [glued, below] ∧ relativePaths rootScope body = [['x'], ['y']] ∧
      (∃ ws, writes rootScope "LOCAL_C_INCLUDES" [] body false =
        .ok (listWrites [] "local_include_dirs" (.list [.string ['x'], .string ['y']]) false ++
          ws)) ∧
      pathForm ['d', '/', 'x'] ≠ pathForm ['d', 'x'] ∧
      pathForm ['d', '/', 'y'] = pathForm ['d', '/', 'y'] := by
  intro own glued below body
  have hlist : coerceList rootScope body =
      .ok (.list [.binary '+' (.var localPathName .string) (.string ['x']) .string,
        .binary '+' (.var localPathName .string) (.string ['/', 'y']) .string]) := rfl
  have hwords : words body = [glued, below] := rfl
  have hpaths : relativePaths rootScope body = [['x'], ['y']] := rfl
  obtain ⟨⟨others, hlocal, -⟩, hwhere⟩ := relative_paths rootScope [] body false _ hlist
  rw [hpaths] at hlocal
  refine ⟨hwords, hpaths, ⟨_, hlocal⟩, ?_, ?_⟩
  · intro hsame
    have hglued := (hwhere glued (by rw [hwords]; simp) ['x'] rfl).2 ['d']
    exact absurd (hglued.mp hsame) (by decide)
  · have hbelow := (hwhere below (by rw [hwords]; simp) ['/', 'y'] rfl).2 ['d']
    exact hbelow.mpr (.inl rfl)

end MakeBlueprint.Conversion
