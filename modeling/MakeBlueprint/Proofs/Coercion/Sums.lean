import MakeBlueprint.Proofs.Coercion.Evaluation

/-!
# Sums with a variable in front

The chunks of a text are added from left to right. Literals are joined, and every other sum is
nested to the left, so a sum with a variable by itself on its left side comes from a text of two
chunks: the reference to that variable, and one chunk more.

* `exists_of_add`, `left_of_add`: what a sum is made of.
* `NoVariableInFront`: values without a variable in front, as are all sums that are added to.
* `stringCase`: the value of a text by the number of its chunks.
* `coerceString_pair`, `chunks_of_coerceString`: sums with a variable in front come from texts of
  two chunks, and the other way round.
-/

namespace MakeBlueprint.Makefile.Phrase.Body

/-- A reference in front of the chunks is in front of the body. -/
theorem exists_of_chunks_eq {b : Body} {r : Reference} {chunks : List Chunk}
    (h : b.chunks = .reference r :: chunks) :
    ∃ rest, b = ofReference r ++ rest ∧ rest.chunks = chunks := by
  cases b with
  | nil => cases h
  | char c rest =>
    rw [Phrase.Body.chunks] at h
    split at h <;> cases h
  | ref name namePos pos delimiter rest =>
    cases h
    exact ⟨rest, rfl, rfl⟩

theorem chunks_ofReference_append (r : Reference) (b : Body) :
    (ofReference r ++ b).chunks = .reference r :: b.chunks := rfl

theorem eq_nil_of_chunks {b : Body} (h : b.chunks = []) : b = .nil := by
  cases b with
  | nil => rfl
  | char c rest =>
    rw [chunks] at h
    split at h <;> cases h
  | ref => cases h

/-- One reference is one chunk. -/
theorem soleReference?_of_chunks {b : Body} {r : Reference} (h : b.chunks = [.reference r]) :
    b.soleReference? = some r := by
  obtain ⟨rest, rfl, hrest⟩ := exists_of_chunks_eq h
  rw [eq_nil_of_chunks hrest]
  rfl

theorem chunks_of_soleReference? {b : Body} {r : Reference} (h : b.soleReference? = some r) :
    b.chunks = [.reference r] := by
  unfold soleReference? at h
  split at h
  · cases h
    rfl
  · cases h

end MakeBlueprint.Makefile.Phrase.Body

namespace MakeBlueprint.Conversion

open Blueprint (Kind Value)
open Makefile (Phrase Reference Scope)

variable {scope : Scope} {body : Phrase.Body} {r : Reference} {chunk : Phrase.Chunk} {name : Text}
  {kind sumKind : Kind} {operator : Char} {v left right other : Value}

/-! ## What a sum is made of -/

theorem exists_of_addPromoted (h : addPromoted left right = .ok v) :
    ∃ kind, v = addSameKind kind left right := by
  obtain ⟨-, -, rfl⟩ := addPromoted_iff.mp h
  exact ⟨_, rfl⟩

/-- A sum is made of the left side, as it is or as a list, and a right side. -/
theorem exists_of_add (h : add left right = .ok v) :
    ∃ kind first second, (first = left ∨ first = promote left) ∧
      v = addSameKind kind first second := by
  unfold add at h
  split at h
  · obtain ⟨kind, rfl⟩ := exists_of_addPromoted h
    exact ⟨kind, _, _, .inr rfl, rfl⟩
  · obtain ⟨kind, rfl⟩ := exists_of_addPromoted h
    exact ⟨kind, _, _, .inl rfl, rfl⟩
  · obtain ⟨kind, rfl⟩ := exists_of_addPromoted h
    exact ⟨kind, _, _, .inl rfl, rfl⟩

/-- A sum is no variable. -/
theorem add_ne_var (h : add left right = .ok v) : v ≠ .var name kind := by
  obtain ⟨sumKind, first, second, -, rfl⟩ := exists_of_add h
  unfold addSameKind
  split <;> exact nofun

/-- **A variable on the left side of a sum** is the whole left side that was added to. -/
theorem left_of_add (h : add left right = .ok (.binary operator (.var name kind) other sumKind)) :
    left = .var name kind := by
  obtain ⟨_, first, second, hfirst, heq⟩ := exists_of_add h
  have hvar : first = .var name kind := by
    unfold addSameKind at heq
    split at heq
    · cases heq
    · cases heq
    · cases heq
      rfl
  rcases hfirst with rfl | rfl
  · exact hvar
  · cases left <;> cases hvar

/-- **A value without a variable in front**: it is neither a variable nor a sum with one on its left
side. -/
structure NoVariableInFront (v : Value) : Prop where
  notVar : ∀ name kind, v ≠ .var name kind
  notSum : ∀ operator name kind other sumKind, v ≠ .binary operator (.var name kind) other sumKind

/-- What is added to anything but a variable has no variable in front. -/
theorem noVariableInFront_add (hleft : ∀ name kind, left ≠ .var name kind)
    (h : add left right = .ok v) : NoVariableInFront v := by
  refine ⟨fun name kind => add_ne_var h, ?_⟩
  rintro operator name kind other sumKind rfl
  exact hleft name kind (left_of_add h)

theorem noVariableInFront_foldlM_add {values : List Value} (hleft : NoVariableInFront left)
    (h : values.foldlM add left = .ok v) : NoVariableInFront v :=
  foldlM_keeps (P := NoVariableInFront)
    (fun _ _ _ _ hb hc => noVariableInFront_add hb.notVar hc) hleft h

/-! ## Texts with a variable in front -/

/-- The value of a chunk is a literal, or a variable that has its name from a reference. -/
theorem chunkString_cases (h : chunkString scope chunk = .ok v) :
    (∃ text, v = .string text) ∨
      ∃ r name, chunk = .reference r ∧ r.name.constant? = some name ∧ v = .var name .string := by
  cases chunk with
  | literal text =>
    cases h
    exact .inl ⟨text, rfl⟩
  | reference r =>
    change referenceString scope r = _ at h
    unfold referenceString at h
    split at h
    · cases h
      exact .inl ⟨_, rfl⟩
    · obtain ⟨name, hname, rfl⟩ := Blueprint.Property.map_eq_ok h
      split
      · exact .inl ⟨_, rfl⟩
      · exact .inr ⟨r, name, rfl, constant?_of_literalName hname, rfl⟩

/-- **A name without blanks** is no function call. -/
theorem call?_of_name (hr : r.name.constant? = some name)
    (hblank : name.any Text.isBlank = false) : r.call? scope = none := by
  have hbody : r.name.body = .ofText name := Phrase.Body.eq_ofText_of_constant? hr
  have hhead : ∀ t : Text, t.any Text.isBlank = false →
      ((Phrase.Body.ofText t).expand scope).head? = none := by
    intro t
    induction t with
    | nil => exact fun _ => rfl
    | cons c t ih =>
      intro ht
      obtain ⟨hc, ht⟩ := Bool.or_eq_false_iff.mp (List.any_cons.symm.trans ht)
      rw [Phrase.Body.ofText, Phrase.Body.expand, Makefile.Expansion.head?, hc, ih ht]
      rfl
  unfold Reference.call? Makefile.Expansion.call?
  rw [hbody, hhead name hblank]

/-- A reference by a name without blanks, and not the escape `$$`, is a variable. -/
theorem referenceString_of_name (hr : r.name.constant? = some name)
    (hblank : name.any Text.isBlank = false) (hdollar : name ≠ Makefile.dollarName) :
    referenceString scope r = .ok (.var name .string) := by
  unfold referenceString literalName
  rw [call?_of_name hr hblank, hr]
  exact congrArg Except.ok (if_neg hdollar)

theorem coerceString_of_chunk (hchunk : body.chunks = [chunk]) :
    coerceString scope body = chunkString scope chunk := by
  unfold coerceString
  rw [hchunk, List.mapM_cons]
  cases chunkString scope chunk <;> rfl

/-- **A text of a variable and one chunk more** is the sum of the two. -/
theorem coerceString_pair (hchunks : body.chunks = [.reference r, chunk])
    (hr : referenceString scope r = .ok (.var name .string))
    (hchunk : chunkString scope chunk = .ok right) :
    coerceString scope body = .ok (.binary '+' (.var name .string) right .string) := by
  have hfirst : chunkString scope (.reference r) = .ok (.var name .string) := hr
  unfold coerceString
  rw [hchunks, List.mapM_cons, hfirst, List.mapM_cons, hchunk]
  rcases chunkString_cases hchunk with ⟨text, rfl⟩ | ⟨other, name, -, -, rfl⟩ <;> rfl

/-- **A string value** and the chunks that it comes from. -/
inductive StringCase (scope : Scope) (body : Phrase.Body) : Value → Prop
  | empty (hchunks : body.chunks = []) : StringCase scope body (.string [])
  | single (chunk : Phrase.Chunk) (hchunks : body.chunks = [chunk]) (v : Value)
      (hvalue : chunkString scope chunk = .ok v) : StringCase scope body v
  | pair (chunk next : Phrase.Chunk) (hchunks : body.chunks = [chunk, next])
      (first second v : Value) (hfirst : chunkString scope chunk = .ok first)
      (hsecond : chunkString scope next = .ok second) (hadd : add first second = .ok v) :
      StringCase scope body v
  | more (chunk next third : Phrase.Chunk) (chunks : List Phrase.Chunk)
      (hchunks : body.chunks = chunk :: next :: third :: chunks) (v : Value)
      (hfront : NoVariableInFront v) : StringCase scope body v

theorem stringCase (h : coerceString scope body = .ok v) : StringCase scope body v := by
  obtain ⟨pieces, hpieces, hsum⟩ := bind_eq_ok h
  rcases hchunks : body.chunks with _ | ⟨chunk, chunks⟩
  · rw [hchunks] at hpieces
    cases hpieces
    cases hsum
    exact .empty hchunks
  · rw [hchunks] at hpieces
    obtain ⟨first, rest, hfirst, hrest, rfl⟩ := mapM_cons_eq_ok hpieces
    change rest.foldlM add first = _ at hsum
    rcases chunks with _ | ⟨next, chunks⟩
    · cases hrest
      cases hsum
      exact .single chunk hchunks _ hfirst
    · obtain ⟨second, others, hsecond, hothers, rfl⟩ := mapM_cons_eq_ok hrest
      rw [List.foldlM_cons] at hsum
      obtain ⟨total, htotal, hsum⟩ := bind_eq_ok hsum
      rcases chunks with _ | ⟨third, chunks⟩
      · cases hothers
        cases hsum
        exact .pair chunk next hchunks first second _ hfirst hsecond htotal
      · obtain ⟨value, more, -, -, rfl⟩ := mapM_cons_eq_ok hothers
        rw [List.foldlM_cons] at hsum
        obtain ⟨whole, hwhole, hsum⟩ := bind_eq_ok hsum
        have hfront : NoVariableInFront whole :=
          noVariableInFront_add (fun _ _ => add_ne_var htotal) hwhole
        exact .more chunk next third chunks hchunks _ (noVariableInFront_foldlM_add hfront hsum)

/-- A text that becomes a variable is a reference. -/
theorem exists_soleReference? (h : coerceString scope body = .ok (.var name kind)) :
    ∃ r, body.soleReference? = some r := by
  cases stringCase h with
  | single chunk hchunks _ hvalue =>
    rcases chunkString_cases hvalue with ⟨text, htext⟩ | ⟨r, name, rfl, -, -⟩
    · cases htext
    · exact ⟨r, Phrase.Body.soleReference?_of_chunks hchunks⟩
  | pair _ _ _ _ _ _ _ _ hadd => exact absurd rfl (add_ne_var hadd)
  | more _ _ _ _ _ _ hfront => exact absurd rfl (hfront.notVar name kind)

/-- **A sum with a variable in front** comes from a text of two chunks: the reference to the
variable, and a chunk for the right side. -/
theorem chunks_of_coerceString
    (h : coerceString scope body = .ok (.binary operator (.var name kind) right sumKind)) :
    ∃ r chunk, body.chunks = [.reference r, chunk] ∧ r.name.constant? = some name ∧
      chunkString scope chunk = .ok right := by
  cases stringCase h with
  | single chunk hchunks _ hvalue =>
    rcases chunkString_cases hvalue with ⟨text, htext⟩ | ⟨r, name, -, -, hvar⟩
    · cases htext
    · cases hvar
  | pair chunk next hchunks first second _ hfirst hsecond hadd =>
    obtain rfl := left_of_add hadd
    rcases chunkString_cases hfirst with ⟨text, htext⟩ | ⟨r, _, rfl, hname, hvar⟩
    · cases htext
    · cases hvar
      refine ⟨r, next, hchunks, hname, ?_⟩
      rw [hsecond]
      rcases chunkString_cases hsecond with ⟨text, rfl⟩ | ⟨_, _, -, -, rfl⟩
      · cases hadd
        rfl
      · cases hadd
        rfl
  | more _ _ _ _ _ _ hfront => exact absurd rfl (hfront.notSum operator name kind right sumKind)

end MakeBlueprint.Conversion
