import MakeBlueprint.Proofs.Typing.Value

/-!
# Coercion keeps the meaning of makefile text

Makefile text has a value in a scope. The value that it is coerced to has one too: literals stand
for themselves, variables for what the scope says, and `+` joins (`Value.text?`, `Value.items?`).
The two agree:

* `text?_coerceString`: a coerced string evaluates to the value of the text.
* `items?_coerceList`: a coerced list evaluates to the values of the words of the text;
  `flatMap_words_words` says that these have the words of the value of the text.
* `coerceString_eq_error_iff`, `coerceList_eq_error_iff`: text is refused exactly when it has a
  reference without a literal name (`Reference.IsComputed`).

`coerce_keeps_meaning` puts them together.
-/

namespace MakeBlueprint.Text

/-! ## Words -/

/-- The words of a text: its pieces between blanks, without the empty ones. -/
def words (t : Text) : List Text := (t.split isBlank).filter fun word => !(word == [])

theorem split_append_cons {p : Char → Bool} {c : Char} (hc : p c = true) (s t : Text) :
    split p (s ++ c :: t) = split p s ++ split p t := by
  induction s with
  | nil => simp [split, hc]
  | cons d s ih =>
    rw [List.cons_append, split, split, ih]
    split
    · rfl
    · obtain ⟨piece, pieces, hs⟩ := List.exists_cons_of_ne_nil (split_ne_nil p s)
      rw [hs]
      rfl

/-- A blank separates words. -/
theorem words_append_cons {c : Char} (hc : isBlank c = true) (s t : Text) :
    words (s ++ c :: t) = words s ++ words t := by
  unfold words
  rw [split_append_cons hc, List.filter_append]

end MakeBlueprint.Text

namespace MakeBlueprint.Blueprint.Value

/-! ## The meaning of values -/

variable (strings : Text → Text) (lists : Text → List Text)

/-- The text of a string value when variables stand for texts. -/
def text? : Value → Option Text
  | .string text => some text
  | .var name .string => some (strings name)
  | .binary '+' left right .string => do
    let first ← text? left
    let second ← text? right
    some (first ++ second)
  | _ => none

/-- The items of a list value when string variables stand for texts and list variables for lists
of texts. -/
def items? : Value → Option (List Text)
  | .list items => items.mapM (text? strings)
  | .var name .list => some (lists name)
  | .binary '+' left right .list => do
    let first ← items? left
    let second ← items? right
    some (first ++ second)
  | _ => none

variable {strings lists} {v : Value}

theorem kind_of_text? {t : Text} (h : v.text? strings = some t) : v.kind = .string := by
  unfold text? at h
  split at h
  · rfl
  · rfl
  · rfl
  · cases h

theorem kind_of_items? {ts : List Text} (h : v.items? strings lists = some ts) :
    v.kind = .list := by
  unfold items? at h
  split at h
  · rfl
  · rfl
  · rfl
  · cases h

end MakeBlueprint.Blueprint.Value

namespace MakeBlueprint.Makefile

/-! ## The meaning of phrases -/

/-- **A reference without a literal name**: it is no function call, and its name has references in
it. -/
def Reference.IsComputed (scope : Scope) (r : Reference) : Prop :=
  r.call? scope = none ∧ r.name.constant? = none

/-- A reference of the body has a literal name. -/
def Phrase.Body.RefersTo (b : Body) (name : Text) : Prop :=
  ∃ r ∈ b.references, r.name.constant? = some name

instance (b : Phrase.Body) (name : Text) : Decidable (b.RefersTo name) :=
  inferInstanceAs (Decidable (∃ r ∈ b.references, r.name.constant? = some name))

variable {scope : Scope}

theorem Phrase.Body.value_ofText (scope : Scope) (t : Text) : (ofText t).value scope = t := by
  induction t with
  | nil => rfl
  | cons c t ih => exact congrArg (c :: ·) ih

theorem Reference.value_of_call {r : Reference} {t : Text} (h : r.call? scope = some t) :
    r.value scope = t := by
  unfold call? at h
  unfold value Expansion.referenceValue
  rw [h]

/-- A reference with a literal name that is no function call stands for a variable. -/
theorem Reference.value_of_constant {r : Reference} {name : Text} (h : r.call? scope = none)
    (hname : r.name.constant? = some name) : r.value scope = scope.get name := by
  have hbody : r.name.body = .ofText name := Phrase.Body.eq_ofText_of_constant? hname
  unfold call? at h
  unfold value Expansion.referenceValue
  rw [h, hbody]
  exact congrArg scope.get (Phrase.Body.value_ofText scope name)

namespace Phrase

/-- The value of a chunk. -/
def Chunk.value (scope : Scope) : Chunk → Text
  | .literal text => text
  | .reference r => r.value scope

namespace Body

theorem flatMap_value_chunks (scope : Scope) (b : Body) :
    b.chunks.flatMap (Chunk.value scope) = b.value scope := by
  induction b with
  | nil => rfl
  | char c r ih =>
    change _ = c :: r.value scope
    rw [chunks, ← ih]
    split
    · next t cs h => rw [h]; rfl
    · rfl
  | ref name m n d r _ ih =>
    change _ = Reference.value scope ⟨⟨m, name⟩, n, d⟩ ++ r.value scope
    rw [chunks, ← ih]
    rfl

theorem mem_chunks_iff {r : Reference} {b : Body} :
    .reference r ∈ b.chunks ↔ r ∈ b.references := by
  induction b with
  | nil => simp [chunks, references]
  | char c rest ih =>
    rw [references, ← ih, chunks]
    split
    · next t cs h => simp [h]
    · simp
  | ref name m n d rest _ ih => simp [chunks, references, ih]

theorem references_append (a b : Body) : (a ++ b).references = a.references ++ b.references := by
  induction a with
  | nil => rfl
  | char c r ih => exact ih
  | ref name m n d r _ ih => exact congrArg (_ :: ·) ih

/-- A literal text has no references. -/
theorem references_of_constant? {b : Body} {t : Text} (h : b.constant? = some t) :
    b.references = [] := by
  induction b generalizing t with
  | nil => rfl
  | char c r ih =>
    obtain ⟨u, hu, -⟩ := Option.map_eq_some_iff.mp h
    exact ih hu
  | ref => cases h

theorem references_trimStart (b : Body) : b.trimStart.references = b.references := by
  induction b with
  | nil => rfl
  | char c r ih =>
    rw [trimStart]
    split
    · exact ih
    · rfl
  | ref => rfl

theorem references_trimEnd (b : Body) : b.trimEnd.references = b.references := by
  induction b with
  | nil => rfl
  | char c r ih =>
    rw [trimEnd, references, ← ih]
    split
    · next h =>
      rw [h]
      split <;> rfl
    · rfl
  | ref name m n d r _ ih => rw [trimEnd, references, references, ih]

/-! ## Words of phrases -/

/-- The pieces of a phrase have the words of the phrase, wherever it is cut at blanks. -/
theorem flatMap_words_splitAtMost (scope : Scope) (cuts : Nat) (b : Body) :
    (b.splitAtMost Text.isBlank cuts).flatMap (fun piece => Text.words (piece.value scope))
      = Text.words (b.value scope) := by
  induction cuts generalizing b with
  | zero => simp [splitAtMost]
  | succ cuts ih =>
    rw [splitAtMost]
    split
    · simp
    · next piece rest h =>
      obtain ⟨c, hc, rfl⟩ := append_of_cut h
      rw [List.flatMap_cons, ih, value_append]
      exact (Text.words_append_cons hc _ _).symm

theorem mem_references_splitAtMost {r : Reference} {p : Char → Bool} {cuts : Nat} {b : Body} :
    (∃ piece ∈ b.splitAtMost p cuts, r ∈ piece.references) ↔ r ∈ b.references := by
  induction cuts generalizing b with
  | zero => simp [splitAtMost]
  | succ cuts ih =>
    rw [splitAtMost]
    split
    · simp
    · next piece rest h =>
      obtain ⟨c, hc, rfl⟩ := append_of_cut h
      rw [references_append, List.mem_append, references]
      simp [ih]

end Body

end Phrase

end MakeBlueprint.Makefile

namespace MakeBlueprint.Conversion

open Blueprint (Kind Value)
open Makefile (Phrase Reference Scope)

/-! ## The meaning of sums -/

section Sums

variable {strings : Text → Text} {lists : Text → List Text} {left right : Value}

/-- Two meanings one behind the other, if there are both. -/
def concat? {γ : Type} (first second : Option (List γ)) : Option (List γ) := do
  let a ← first
  let b ← second
  some (a ++ b)

theorem text?_addSameKind (hleft : left.kind = .string) :
    (addSameKind .string left right).text? strings =
      concat? (left.text? strings) (right.text? strings) := by
  unfold addSameKind
  split
  · rfl
  · cases hleft
  · rfl

theorem items?_addSameKind (hleft : left.kind = .list) :
    (addSameKind .list left right).items? strings lists =
      concat? (left.items? strings lists) (right.items? strings lists) := by
  unfold addSameKind
  split
  · cases hleft
  · rw [Value.items?, Value.items?, Value.items?, List.mapM_append]
    rfl
  · rfl

theorem text?_add {a b : Text} (hl : left.text? strings = some a)
    (hr : right.text? strings = some b) :
    ∃ v, add left right = .ok v ∧ v.text? strings = some (a ++ b) := by
  have hlk := Value.kind_of_text? hl
  have hrk := Value.kind_of_text? hr
  refine ⟨addSameKind .string left right, ?_, ?_⟩
  · unfold add addPromoted
    rw [hlk, hrk]
    rfl
  · rw [text?_addSameKind hlk, hl, hr]
    rfl

theorem items?_add {as bs : List Text} (hl : left.items? strings lists = some as)
    (hr : right.items? strings lists = some bs) :
    ∃ v, add left right = .ok v ∧ v.items? strings lists = some (as ++ bs) := by
  have hlk := Value.kind_of_items? hl
  have hrk := Value.kind_of_items? hr
  refine ⟨addSameKind .list left right, ?_, ?_⟩
  · unfold add addPromoted
    rw [hlk, hrk]
    rfl
  · rw [items?_addSameKind hlk, hl, hr]
    rfl

/-- **A sum means the joined meanings of its parts**, if the sum of two values does. -/
theorem eval_sum {γ : Type} {eval : Value → Option (List γ)} {empty : Value} {values : List Value}
    {parts : List (List γ)}
    (hadd : ∀ {left right a b}, eval left = some a → eval right = some b →
      ∃ v, add left right = .ok v ∧ eval v = some (a ++ b))
    (hempty : eval empty = some []) (h : values.mapM eval = some parts) :
    ∃ v, sum empty values = .ok v ∧ eval v = some parts.flatten := by
  have hfold : ∀ (values : List Value) (parts : List (List γ)) (acc : Value) (a : List γ),
      eval acc = some a → values.mapM eval = some parts →
      ∃ v, values.foldlM add acc = .ok v ∧ eval v = some (a ++ parts.flatten) := by
    intro values
    induction values with
    | nil =>
      intro parts acc a hacc h
      cases h
      exact ⟨acc, rfl, by simpa using hacc⟩
    | cons value values ih =>
      intro parts acc a hacc h
      rw [List.mapM_cons] at h
      obtain ⟨b, hb, h⟩ := Option.bind_eq_some_iff.mp h
      obtain ⟨rest, hrest, h⟩ := Option.bind_eq_some_iff.mp h
      cases h
      obtain ⟨total, htotal, heval⟩ := hadd hacc hb
      obtain ⟨v, hv, hmeaning⟩ := ih rest total (a ++ b) heval hrest
      refine ⟨v, ?_, ?_⟩
      · rw [List.foldlM_cons, htotal]
        exact hv
      · rw [hmeaning, List.flatten_cons, List.append_assoc]
  cases values with
  | nil =>
    cases h
    exact ⟨empty, rfl, hempty⟩
  | cons value values =>
    rw [List.mapM_cons] at h
    obtain ⟨a, ha, h⟩ := Option.bind_eq_some_iff.mp h
    obtain ⟨rest, hrest, h⟩ := Option.bind_eq_some_iff.mp h
    cases h
    exact hfold values rest value a ha hrest

end Sums

/-! ## The meaning of strings -/

section Coercions

variable {scope : Scope} {body : Phrase.Body} {r : Reference}

theorem constant?_of_literalName {name : Text} (h : literalName r = .ok name) :
    r.name.constant? = some name := by
  unfold literalName at h
  split at h
  · next hname =>
    cases h
    exact hname
  · cases h

/-- A reference whose name is literal and no function stands for the variable of that name. -/
theorem value_of_literalName {name : Text} (hcall : r.call? scope = none)
    (h : literalName r = .ok name) : r.value scope = scope.get name :=
  Reference.value_of_constant hcall (constant?_of_literalName h)

theorem text?_referenceString {value : Value}
    (hdollar : scope.get Makefile.dollarName = ['$'])
    (h : referenceString scope r = .ok value) : value.text? scope.get = some (r.value scope) := by
  unfold referenceString at h
  split at h
  · next result hcall =>
    cases h
    rw [Reference.value_of_call hcall]
    rfl
  · next hcall =>
    obtain ⟨name, hname, rfl⟩ := Blueprint.Property.map_eq_ok h
    rw [value_of_literalName hcall hname]
    split
    · next hn =>
      rw [hn, hdollar]
      rfl
    · rfl

theorem text?_chunkString {chunk : Phrase.Chunk} {value : Value}
    (hdollar : scope.get Makefile.dollarName = ['$'])
    (h : chunkString scope chunk = .ok value) :
    value.text? scope.get = some (chunk.value scope) := by
  cases chunk with
  | literal text =>
    cases h
    rfl
  | reference r => exact text?_referenceString hdollar h

/-- **A coerced string evaluates to the value of the text.** -/
theorem text?_coerceString {v : Value} (hdollar : scope.get Makefile.dollarName = ['$'])
    (h : coerceString scope body = .ok v) : v.text? scope.get = some (body.value scope) := by
  obtain ⟨pieces, hpieces, hsum⟩ := bind_eq_ok h
  have htexts : pieces.mapM (Value.text? scope.get) = some (body.chunks.map (·.value scope)) :=
    mapM_of_mapM_eq_ok hpieces fun chunk _ value hvalue => text?_chunkString hdollar hvalue
  have hempty : (Value.string []).text? scope.get = some [] := rfl
  obtain ⟨w, hw, hmeaning⟩ := eval_sum text?_add hempty htexts
  rw [hw] at hsum
  cases hsum
  rw [hmeaning, ← Phrase.Body.flatMap_value_chunks, List.flatMap_def]

/-! ## The meaning of lists -/

/-- The text of a field. -/
def Field.text? (strings : Text → Text) : Field → Option Text
  | .item value => value.text? strings
  | .reference name => some (strings name)

theorem references_of_soleReference? (h : body.soleReference? = some r) :
    body.references = [r] := by
  unfold Phrase.Body.soleReference? at h
  split at h
  · cases h
    rfl
  · cases h

theorem value_of_soleReference? (h : body.soleReference? = some r) :
    body.value scope = r.value scope := by
  unfold Phrase.Body.soleReference? at h
  split at h
  · cases h
    exact List.append_nil _
  · cases h

theorem text?_field {f : Field} (hdollar : scope.get Makefile.dollarName = ['$'])
    (htop : scope.get topName = ['.'] ∨ ¬ body.RefersTo topName)
    (h : field scope body = .ok f) : f.text? scope.get = some (body.value scope) := by
  unfold field at h
  split at h
  · next r hr =>
    rw [value_of_soleReference? hr]
    unfold referenceField at h
    split at h
    · next result hcall =>
      cases h
      rw [Reference.value_of_call hcall]
      rfl
    · next hcall =>
      obtain ⟨name, hname, rfl⟩ := Blueprint.Property.map_eq_ok h
      rw [value_of_literalName hcall hname]
      split
      · next hn =>
        have hrefers : body.RefersTo topName := by
          refine ⟨r, ?_, ?_⟩
          · rw [references_of_soleReference? hr]
            exact List.mem_singleton_self r
          · rw [← hn]
            exact constant?_of_literalName hname
        rw [hn, htop.resolve_right fun hnot => hnot hrefers]
        rfl
      · split
        · next hn =>
          rw [hn, hdollar]
          rfl
        · rfl
  · obtain ⟨v, hv, rfl⟩ := Blueprint.Property.map_eq_ok h
    exact text?_coerceString hdollar hv

/-- Items that share a list keep their texts. -/
theorem items?_groupFields {strings : Text → Text} {fields : List Field} {ts : List Text}
    (h : fields.mapM (Field.text? strings) = some ts) :
    ∃ parts, (groupFields fields).mapM (Value.items? strings fun name => [strings name])
      = some parts ∧ parts.flatten = ts := by
  induction fields generalizing ts with
  | nil =>
    cases h
    exact ⟨[], rfl, rfl⟩
  | cons f fields ih =>
    rw [List.mapM_cons] at h
    obtain ⟨t, ht, h⟩ := Option.bind_eq_some_iff.mp h
    obtain ⟨rest, hrest, h⟩ := Option.bind_eq_some_iff.mp h
    cases h
    obtain ⟨parts, hparts, rfl⟩ := ih hrest
    cases f with
    | reference name =>
      cases ht
      refine ⟨[strings name] :: parts, ?_, rfl⟩
      rw [groupFields, List.mapM_cons, hparts]
      rfl
    | item value =>
      rw [Field.text?] at ht
      rw [groupFields]
      split
      · next items values hg =>
        rw [hg, List.mapM_cons] at hparts
        obtain ⟨first, hfirst, hparts⟩ := Option.bind_eq_some_iff.mp hparts
        obtain ⟨others, hothers, hparts⟩ := Option.bind_eq_some_iff.mp hparts
        cases hparts
        rw [Value.items?] at hfirst
        refine ⟨(t :: first) :: others, ?_, rfl⟩
        rw [List.mapM_cons, Value.items?, List.mapM_cons, ht, hfirst, hothers]
        rfl
      · refine ⟨[t] :: parts, ?_, rfl⟩
        rw [List.mapM_cons, hparts, Value.items?, List.mapM_cons, ht]
        rfl

/-- A coerced list evaluates to the values of the words of the text, where the text does not refer
to `TOP` or the scope says of it what conversions say. -/
theorem items?_of_coerceList {v : Value} (hdollar : scope.get Makefile.dollarName = ['$'])
    (htop : scope.get topName = ['.'] ∨ ¬ body.RefersTo topName)
    (h : coerceList scope body = .ok v) :
    v.items? scope.get (fun name => [scope.get name])
      = some ((words body).map (Phrase.Body.value scope)) := by
  obtain ⟨fields, hfields, hsum⟩ := bind_eq_ok h
  have hword : ∀ word ∈ words body, scope.get topName = ['.'] ∨ ¬ word.RefersTo topName := by
    intro word hword
    refine htop.imp_right fun hnot hrefers => hnot ?_
    obtain ⟨r, hr, hname⟩ := hrefers
    exact ⟨r, Phrase.Body.mem_references_splitAtMost.mp ⟨word, List.mem_of_mem_filter hword, hr⟩,
      hname⟩
  have htexts : fields.mapM (Field.text? scope.get)
      = some ((words body).map (Phrase.Body.value scope)) :=
    mapM_of_mapM_eq_ok hfields fun word hmem f hf => text?_field hdollar (hword word hmem) hf
  obtain ⟨parts, hparts, hflatten⟩ := items?_groupFields htexts
  have hempty : (Value.list []).items? scope.get (fun name => [scope.get name]) = some [] := rfl
  obtain ⟨w, hw, hmeaning⟩ := eval_sum items?_add hempty hparts
  rw [hw] at hsum
  cases hsum
  rw [hmeaning, hflatten]

/-- **A coerced list evaluates to the values of the words of the text.** -/
theorem items?_coerceList {v : Value} (hdollar : scope.get Makefile.dollarName = ['$'])
    (htop : scope.get topName = ['.']) (h : coerceList scope body = .ok v) :
    v.items? scope.get (fun name => [scope.get name])
      = some ((words body).map (Phrase.Body.value scope)) :=
  items?_of_coerceList hdollar (.inl htop) h

/-- The words of a text have the words of its value; a word may have several when it holds
references. -/
theorem flatMap_words_words (scope : Scope) (body : Phrase.Body) :
    ((words body).map (Phrase.Body.value scope)).flatMap Text.words
      = Text.words (body.value scope) := by
  have hempty : ∀ pieces : List Phrase.Body,
      ((pieces.filter fun word => !(word == .nil)).map (Phrase.Body.value scope)).flatMap Text.words
        = pieces.flatMap fun piece => Text.words (piece.value scope) := by
    intro pieces
    induction pieces with
    | nil => rfl
    | cons piece pieces ih =>
      by_cases hp : piece = .nil
      · subst hp
        exact ih
      · simp [hp, ih]
  rw [words, hempty]
  exact Phrase.Body.flatMap_words_splitAtMost scope _ body

/-! ## Refusals -/

theorem literalName_eq_error_iff :
    (∃ e, literalName r = .error e) ↔ r.name.constant? = none := by
  unfold literalName
  split
  · next name h => simp [h]
  · next h => simp [h]

theorem referenceString_eq_error_iff :
    (∃ e, referenceString scope r = .error e) ↔ r.IsComputed scope := by
  unfold referenceString Reference.IsComputed
  split
  · next h => simp [h]
  · next h =>
    rw [← literalName_eq_error_iff]
    cases literalName r <;> simp [h, Except.map]

theorem referenceField_eq_error_iff :
    (∃ e, referenceField scope r = .error e) ↔ r.IsComputed scope := by
  unfold referenceField Reference.IsComputed
  split
  · next h => simp [h]
  · next h =>
    rw [← literalName_eq_error_iff]
    cases literalName r <;> simp [h, Except.map]

/-- **A string is refused exactly for a reference without a literal name.** -/
theorem coerceString_eq_error_iff :
    (∃ e, coerceString scope body = .error e) ↔ ∃ r ∈ body.references, r.IsComputed scope := by
  have hchunks : (∃ e, coerceString scope body = .error e) ↔
      ∃ e, body.chunks.mapM (chunkString scope) = .error e := by
    unfold coerceString
    cases hpieces : body.chunks.mapM (chunkString scope) with
    | error e => exact ⟨fun _ => ⟨e, rfl⟩, fun _ => ⟨e, rfl⟩⟩
    | ok pieces =>
      obtain ⟨v, hv, -⟩ := exists_sum_chunks hpieces
      simp [bind, Except.bind, hv]
  rw [hchunks, mapM_eq_error_iff]
  constructor
  · rintro ⟨chunk, hmem, e, he⟩
    cases chunk with
    | literal text => cases he
    | reference r =>
      exact ⟨r, Phrase.Body.mem_chunks_iff.mp hmem, referenceString_eq_error_iff.mp ⟨e, he⟩⟩
  · rintro ⟨r, hmem, hr⟩
    exact ⟨.reference r, Phrase.Body.mem_chunks_iff.mpr hmem, referenceString_eq_error_iff.mpr hr⟩

theorem field_eq_error_iff :
    (∃ e, field scope body = .error e) ↔ ∃ r ∈ body.references, r.IsComputed scope := by
  unfold field
  split
  · next r hr =>
    rw [referenceField_eq_error_iff, references_of_soleReference? hr]
    simp
  · rw [← coerceString_eq_error_iff]
    cases coerceString scope body <;> simp [Except.map]

/-- **A list is refused exactly for a reference without a literal name.** -/
theorem coerceList_eq_error_iff :
    (∃ e, coerceList scope body = .error e) ↔ ∃ r ∈ body.references, r.IsComputed scope := by
  have hfields : (∃ e, coerceList scope body = .error e) ↔
      ∃ e, (words body).mapM (field scope) = .error e := by
    unfold coerceList
    cases hfields : (words body).mapM (field scope) with
    | error e => exact ⟨fun _ => ⟨e, rfl⟩, fun _ => ⟨e, rfl⟩⟩
    | ok fields =>
      obtain ⟨v, hv, -⟩ := exists_sum_fields hfields
      simp [bind, Except.bind, hv]
  rw [hfields, mapM_eq_error_iff]
  constructor
  · rintro ⟨word, hword, hrefused⟩
    obtain ⟨r, hr, hcomputed⟩ := field_eq_error_iff.mp hrefused
    exact ⟨r, Phrase.Body.mem_references_splitAtMost.mp ⟨word, List.mem_of_mem_filter hword, hr⟩,
      hcomputed⟩
  · rintro ⟨r, hr, hcomputed⟩
    obtain ⟨word, hword, hmem⟩ := Phrase.Body.mem_references_splitAtMost.mpr hr
    refine ⟨word, List.mem_filter.mpr ⟨hword, ?_⟩, field_eq_error_iff.mpr ⟨r, hmem, hcomputed⟩⟩
    cases word with
    | nil => cases hmem
    | char | ref => rfl

end Coercions

/-- **Coercion keeps meaning.** Where the scope gives `$$` its usual value, a phrase that is
accepted as a string evaluates to its value. Where `$(TOP)` is the directory of the makefile too, a
phrase that is accepted as a list evaluates to texts with the words of its value. A phrase is
refused exactly when it has a reference that is no function call and has no literal name. -/
theorem coerce_keeps_meaning (scope : Scope) (body : Phrase.Body)
    (hdollar : scope.get Makefile.dollarName = ['$']) :
    (∀ v, coerceString scope body = .ok v → v.text? scope.get = some (body.value scope)) ∧
      (scope.get topName = ['.'] → ∀ v, coerceList scope body = .ok v →
        ∃ items, v.items? scope.get (fun name => [scope.get name]) = some items ∧
          items.flatMap Text.words = Text.words (body.value scope)) ∧
      ((∃ e, coerceString scope body = .error e) ↔ ∃ r ∈ body.references, r.IsComputed scope) ∧
      ((∃ e, coerceList scope body = .error e) ↔ ∃ r ∈ body.references, r.IsComputed scope) := by
  refine ⟨fun v hv => text?_coerceString hdollar hv, fun htop v hv => ?_,
    coerceString_eq_error_iff, coerceList_eq_error_iff⟩
  exact ⟨_, items?_coerceList hdollar htop hv, flatMap_words_words scope body⟩

/-- The text `$(TOP)/a$$ $(B)` as a list, where only `TOP` is bound: both kinds of words are
accepted, and the items have the words of the text. -/
theorem coerce_keeps_meaning_words :
    let scope := Scope.empty.set topName ['.']
    let body : Phrase.Body := .ref (.ofText topName) 2 0 .paren (.char '/' (.char 'a'
      (.ref (.ofText Makefile.dollarName) 8 8 .bare (.char ' '
        (.ref (.ofText ['B']) 13 11 .paren .nil)))))
    scope.get Makefile.dollarName = ['$'] ∧ scope.get topName = ['.'] ∧
      (∃ v, coerceList scope body = .ok v) ∧
      ∀ v, coerceList scope body = .ok v →
        ∃ items, v.items? scope.get (fun name => [scope.get name]) = some items ∧
          items.flatMap Text.words = Text.words (body.value scope) := by
  intro scope body
  have hdollar : scope.get Makefile.dollarName = ['$'] := by decide
  have htop : scope.get topName = ['.'] := by decide
  refine ⟨hdollar, htop, ?_, (coerce_keeps_meaning scope body hdollar).2.1 htop⟩
  exact ⟨_, rfl⟩

end MakeBlueprint.Conversion
