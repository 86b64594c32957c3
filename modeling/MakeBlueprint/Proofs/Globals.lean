import MakeBlueprint.Proofs.Coercion.Evaluation
import MakeBlueprint.Proofs.Conversion.Globals
import MakeBlueprint.Proofs.Conversion.Modules

/-!
# The views of a variable of the file agree

A variable of the file is a text in the scope, a kind in `globals` and a number of definitions in
the file, and an assignment that adds to it does so once as text and once as a blueprint value.
Every run keeps the three in step. `emissions` remembers in which scope each definition was made;
the invariant is `InStep`.

* `InStep.defines`, `inStep_step`, `inStep_run`: what one assignment, one statement and a run keep.
* `words_of_defines`: a definition evaluates to the words that its assignment adds.
* `sameGlobals_of_failed`: an assignment that fails changes none of the three.
* `views_agree`: a variable is bound exactly when it is recorded and exactly when it is defined,
  and its words are those of its definitions from the last one that sets it on.
-/

namespace MakeBlueprint.Makefile.Scope

/-- The binding of a variable in the innermost frame. -/
def own? (s : Scope) (name : Text) : Option Text :=
  s.frames.head?.bind fun f => f.bindings.lookup name

theorem own?_set (s : Scope) (name value other : Text) :
    (s.set name value).own? other = if other = name then some value else s.own? other := by
  obtain ⟨frames⟩ := s
  by_cases h : other = name
  · cases frames <;> simp [set, modifyTop, own?, h]
  · have hb : (other == name) = false := by simpa using h
    cases frames <;> simp [set, modifyTop, own?, List.lookup_cons, h, hb]

end MakeBlueprint.Makefile.Scope

namespace MakeBlueprint.Conversion

open Blueprint (Value)
open Makefile (Assignment Scope Statement)

/-! ## Definitions and their scopes -/

/-- A definition, with the scope in which it was made. -/
structure Emission where
  definition : Blueprint.Assignment
  scope : Scope

/-- The items of a definition, evaluated in its scope. -/
def Emission.items? (e : Emission) : Option (List Text) :=
  e.definition.value.items? e.scope.get fun name => [e.scope.get name]

/-- The definitions of one variable. -/
def definitionsOf (name : Text) (es : List Emission) : List Emission :=
  es.filter fun e => e.definition.name == name

/-- **A text has the words of definitions**, from the last of them that sets the variable on. -/
def Accumulates (text : Text) (es : List Emission) : Prop :=
  ∃ earlier first added items,
    es = earlier ++ first :: added ∧ first.definition.assigner = .set ∧
      (∀ e ∈ added, e.definition.assigner = .append) ∧
      (first :: added).mapM Emission.items? = some items ∧
      Text.words text = items.flatten.flatMap Text.words

section Accumulates

variable {text old : Text} {es : List Emission} {e : Emission} {items : List Text}

/-- A definition that sets the variable leaves the earlier ones behind. -/
theorem accumulates_set (hassigner : e.definition.assigner = .set) (hitems : e.items? = some items)
    (hwords : Text.words text = items.flatMap Text.words) : Accumulates text (es ++ [e]) := by
  refine ⟨es, e, [], [items], rfl, hassigner, fun _ h => absurd h List.not_mem_nil, ?_, ?_⟩
  · rw [List.mapM_cons, hitems]
    rfl
  · rw [hwords, List.flatten_singleton]

/-- A definition that adds to the variable has its words behind the others. -/
theorem Accumulates.append (h : Accumulates old es) (hassigner : e.definition.assigner = .append)
    (hitems : e.items? = some items)
    (hwords : Text.words text = Text.words old ++ items.flatMap Text.words) :
    Accumulates text (es ++ [e]) := by
  obtain ⟨earlier, first, added, parts, rfl, hfirst, hadded, hparts, hold⟩ := h
  refine ⟨earlier, first, added ++ [e], parts ++ [items], by simp, hfirst, ?_, ?_, ?_⟩
  · intro d hd
    rcases List.mem_append.mp hd with hd | hd
    · exact hadded d hd
    · rw [List.mem_singleton.mp hd]
      exact hassigner
  · rw [← List.cons_append, List.mapM_append, hparts, List.mapM_cons, hitems]
    rfl
  · rw [hwords, hold, List.flatten_append, List.flatMap_append, List.flatten_singleton]

end Accumulates

namespace State

variable {s t : State} {quoted name : Text} {options : Options} {source : Text} {a : Assignment}
  {list : Value} {es : List Emission} {sts : List Statement} {st : Statement}

/-- **The definitions that a run adds**, each with the scope before its statement. -/
def emissions (options : Options) (source : Text) : State → List Statement → List Emission
  | _, [] => []
  | s, st :: sts =>
    let t := s.step options source st
    (t.file.assignments.drop s.file.assignments.length).map (⟨·, s.scope⟩) ++
      emissions options source t sts

/-! ## Texts that mean the same on both sides -/

/-- An assignment gives `$$` no other value, and does not refer to `TOP`. -/
structure LeavesBuiltins (a : Assignment) : Prop where
  dollar : a.target = none → a.name.constant? ≠ some Makefile.dollarName
  top : ¬ a.value.body.RefersTo topName

theorem baseName_ne_dollarName {written : Text} (h : written ≠ Makefile.dollarName) :
    baseName written ≠ Makefile.dollarName := by
  intro hbase
  by_cases hlocal : isLocalName written = true
  · obtain ⟨rest, hrest⟩ := baseName_prefix written
    rw [hbase] at hrest
    subst hrest
    cases hlocal
  · exact h ((if_neg hlocal).symm.trans hbase)

/-- **A definition evaluates to the words that its assignment adds.** -/
theorem words_of_defines (hdollar : s.scope.get Makefile.dollarName = ['$'])
    (htop : ¬ a.value.body.RefersTo topName) (h : Defines s quoted a name list t) :
    ∃ items, list.items? s.scope.get (fun other => [s.scope.get other]) = some items ∧
      items.flatMap Text.words = Text.words (a.value.body.value s.scope) :=
  ⟨_, items?_of_coerceList hdollar (.inr htop) h.coerced, flatMap_words_words _ _⟩

/-! ## The invariant -/

/-- **The views of all variables are in step** with the definitions that were made. -/
structure InStep (s : State) (es : List Emission) : Prop where
  emitted : es.map Emission.definition = s.file.assignments
  dollar : s.scope.get Makefile.dollarName = ['$']
  bound : ∀ name, (s.scope.own? name).isSome = s.records name
  recorded : ∀ name, s.records name = true ↔ definitionsOf name es ≠ []
  first : ∀ name, ∀ e ∈ (definitionsOf name es).head?, e.definition.assigner = .set
  words : ∀ name, definitionsOf name es ≠ [] →
    Accumulates (s.scope.get name) (definitionsOf name es)

theorem inStep_start : InStep start [] where
  emitted := rfl
  dollar := by decide +kernel
  bound _ := rfl
  recorded _ := by simp [records, start, definitionsOf]
  first _ e he := by cases he
  words _ h := absurd rfl h

theorem InStep.same (h : InStep s es) (hst : SameGlobals s t) : InStep t es where
  emitted := by rw [hst.assignments, h.emitted]
  dollar := by rw [hst.scope, h.dollar]
  bound name := by
    unfold records
    rw [hst.scope, hst.globals]
    exact h.bound name
  recorded name := by
    unfold records
    rw [hst.globals]
    exact h.recorded name
  first := h.first
  words name hne := by
    rw [hst.scope]
    exact h.words name hne

theorem records_of_defines (h : Defines s quoted a name list t) (other : Text) :
    t.records other = (other == name || s.records other) := by
  obtain ⟨kind, hglobals⟩ := h.globals
  unfold records
  rw [hglobals, List.lookup_cons]
  cases other == name <;> rfl

theorem definitionsOf_append (name : Text) (es rest : List Emission) :
    definitionsOf name (es ++ rest) = definitionsOf name es ++ definitionsOf name rest :=
  List.filter_append ..

/-- A definition is one of the variable that it names. -/
theorem definitionsOf_concat_self (es : List Emission) (e : Emission) :
    definitionsOf e.definition.name (es ++ [e]) = definitionsOf e.definition.name es ++ [e] := by
  rw [definitionsOf_append]
  simp [definitionsOf]

theorem definitionsOf_concat_of_ne (es : List Emission) {e : Emission} {other : Text}
    (h : other ≠ e.definition.name) : definitionsOf other (es ++ [e]) = definitionsOf other es := by
  rw [definitionsOf_append]
  simp [definitionsOf, Ne.symm h]

theorem dollarName_ne_of_defines (ha : LeavesBuiltins a) (hd : Defines s quoted a name list t) :
    Makefile.dollarName ≠ name := by
  obtain ⟨written, hwritten, rfl, -⟩ := hd.written
  refine (baseName_ne_dollarName ?_).symm
  rintro rfl
  exact ha.dollar hd.target hwritten

/-- What is added to has a definition. -/
theorem InStep.definitionsOf_ne_nil (h : InStep s es) (hext : s.extends? name a = true) :
    definitionsOf name es ≠ [] :=
  (h.recorded name).mp (Bool.and_eq_true_iff.mp hext).2

/-- The first definition of a variable sets it: only a variable that is recorded is added to. -/
theorem InStep.first_of_defines (h : InStep s es) {e : Emission}
    (he : e ∈ (definitionsOf name es ++
      [(⟨s.definition name a list, s.scope⟩ : Emission)]).head?) :
    e.definition.assigner = .set := by
  cases hes : definitionsOf name es with
  | nil =>
    rw [hes] at he
    cases he
    exact if_neg fun hext => h.definitionsOf_ne_nil hext hes
  | cons first rest =>
    refine h.first name e ?_
    rw [hes] at he ⊢
    exact he

/-- The text of a variable has the words of its definitions, with the new one behind them. -/
theorem InStep.accumulates_of_defines (h : InStep s es) (ha : LeavesBuiltins a)
    (hd : Defines s quoted a name list t) :
    Accumulates (s.textAfter name a)
      (definitionsOf name es ++ [⟨s.definition name a list, s.scope⟩]) := by
  obtain ⟨items, hitems, hwords⟩ := words_of_defines h.dollar ha.top hd
  unfold textAfter
  split
  · next hext =>
    refine (h.words name (h.definitionsOf_ne_nil hext)).append (if_pos hext) hitems ?_
    rw [hwords, List.append_assoc]
    exact Text.words_append_cons (by decide) _ _
  · next hext => exact accumulates_set (if_neg hext) hitems hwords.symm

/-- **An assignment that defines a variable keeps the views in step.** For the other variables
nothing changes. -/
theorem InStep.defines (h : InStep s es) (ha : LeavesBuiltins a)
    (hd : Defines s quoted a name list t) :
    InStep t (es ++ [⟨s.definition name a list, s.scope⟩]) := by
  have hself : definitionsOf name (es ++ [⟨s.definition name a list, s.scope⟩]) =
      definitionsOf name es ++ [⟨s.definition name a list, s.scope⟩] :=
    definitionsOf_concat_self es ⟨s.definition name a list, s.scope⟩
  have hother : ∀ other, other ≠ name →
      definitionsOf other (es ++ [⟨s.definition name a list, s.scope⟩]) =
        definitionsOf other es := fun other hne => definitionsOf_concat_of_ne es hne
  refine ⟨?_, ?_, ?_, ?_, ?_, ?_⟩
  · rw [List.map_append, h.emitted, hd.assignments]
    rfl
  · rw [hd.scope, Scope.get_set_of_ne _ _ (dollarName_ne_of_defines ha hd), h.dollar]
  · intro other
    rw [records_of_defines hd, hd.scope, Scope.own?_set, ← h.bound]
    by_cases hne : other = name
    · simp [hne]
    · simp [hne]
  · intro other
    rw [records_of_defines hd]
    by_cases hne : other = name
    · simp [hne, hself]
    · rw [hother other hne, ← h.recorded]
      simp [hne]
  · intro other e he
    by_cases hne : other = name
    · subst hne
      rw [hself] at he
      exact h.first_of_defines he
    · rw [hother other hne] at he
      exact h.first other e he
  · intro other hdefined
    by_cases hne : other = name
    · subst hne
      rw [hself, hd.scope, Scope.get_set_self]
      exact h.accumulates_of_defines ha hd
    · rw [hother other hne] at hdefined ⊢
      rw [hd.scope, Scope.get_set_of_ne _ _ hne]
      exact h.words other hdefined

/-! ## Runs -/

/-- The definitions that one statement adds. -/
theorem inStep_step (h : InStep s es)
    (ha : ∀ a, st.content = .assignment a → LeavesBuiltins a) :
    InStep (s.step options source st)
      (es ++ ((s.step options source st).file.assignments.drop s.file.assignments.length).map
        (⟨·, s.scope⟩)) := by
  rcases globalCase options source s st with hsame | ⟨a, name, list, hcontent, hd⟩
  · rw [hsame.assignments, List.drop_length, List.map_nil, List.append_nil]
    exact h.same hsame
  · have hmoved : InStep (s.moveTo st.lines) es := h.same ⟨rfl, rfl, rfl⟩
    have hdefined := hmoved.defines (ha a hcontent) hd
    have hdrop : (s.step options source st).file.assignments.drop s.file.assignments.length =
        [(s.moveTo st.lines).definition name a list] := by
      rw [hd.assignments]
      exact List.drop_left
    rw [hdrop]
    exact hdefined

/-- **A run keeps the views in step.** -/
theorem inStep_run (h : InStep s es)
    (ha : ∀ st ∈ sts, ∀ a, st.content = .assignment a → LeavesBuiltins a) :
    InStep (s.run options source sts) (es ++ emissions options source s sts) := by
  induction sts generalizing s es with
  | nil =>
    rw [emissions, List.append_nil]
    exact h
  | cons st sts ih =>
    rw [emissions, run_cons, ← List.append_assoc]
    exact ih (inStep_step h (ha st List.mem_cons_self)) fun u hu =>
      ha u (List.mem_cons_of_mem st hu)

/-! ## Failures -/

/-- **A statement failed**: converting it reported a problem, other than that a suffix outranks the
conditional around it. -/
def Failed (quoted : Text) (s t : State) : Prop :=
  ∃ problem : Problem, problem ≠ .suffixInConditional ∧
    ⟨problem.report quoted, t.line⟩ ∈ t.file.comments.drop s.file.comments.length

/-- Only one problem has the message of a suffix inside a conditional. -/
theorem message_ne_suffixInConditional {problem : Problem} (h : problem ≠ .suffixInConditional) :
    problem.message ≠ Problem.suffixInConditional.message := by
  intro hm
  have hletters := congrArg (List.take 3) hm
  cases problem with
  | suffixInConditional => exact h rfl
  | refused cause => cases cause <;> cases hletters
  | _ => exact absurd hletters (by decide)

/-- **A statement that fails changes no variable of the file.** -/
theorem sameGlobals_of_failed (h : Failed (st.quote source) s (s.step options source st)) :
    SameGlobals s (s.step options source st) := by
  rcases globalCase options source s st with hsame | ⟨b, name, list, hb, hd⟩
  · exact hsame
  · exfalso
    obtain ⟨problem, hproblem, hmem⟩ := h
    rcases hd.comments with hc | hc
    · rw [hc] at hmem
      change _ ∈ s.file.comments.drop s.file.comments.length at hmem
      rw [List.drop_length] at hmem
      cases hmem
    · rw [hc] at hmem
      change _ ∈ (s.file.comments ++ [_]).drop s.file.comments.length at hmem
      rw [List.drop_left, List.mem_singleton] at hmem
      have hlines := congrArg Blueprint.Comment.lines hmem
      have hmessage := List.append_cancel_left (List.cons.inj hlines).1
      exact message_ne_suffixInConditional hproblem hmessage

/-! ## The views of one variable -/

/-- **The views of a variable agree.** -/
structure ViewsAgree (s : State) (es : List Emission) (name : Text) : Prop where
  /-- The variable is bound in the innermost frame exactly when it is recorded. -/
  bound : (s.scope.own? name).isSome = true ↔ s.records name = true
  /-- It is recorded exactly when it has a definition. -/
  recorded : s.records name = true ↔ ∃ d ∈ s.file.assignments, d.name = name
  /-- Its first definition sets it. -/
  first : ∀ e ∈ (definitionsOf name es).head?, e.definition.assigner = .set
  /-- A definition that adds to it has one that sets it in front. -/
  preceded : ∀ earlier e later, definitionsOf name es = earlier ++ e :: later →
    e.definition.assigner = .append → ∃ d ∈ earlier, d.definition.assigner = .set
  /-- Its words are those of its definitions, from the last one that sets it on. -/
  words : s.records name = true → Accumulates (s.scope.get name) (definitionsOf name es)

theorem InStep.viewsAgree (h : InStep s es) (name : Text) : ViewsAgree s es name where
  bound := by rw [h.bound]
  recorded := by
    rw [h.recorded, ← h.emitted]
    simp [definitionsOf, List.filter_eq_nil_iff]
  first := h.first name
  preceded earlier e later hes happend := by
    have hfirst := h.first name
    rw [hes] at hfirst
    cases earlier with
    | nil =>
      have hset := hfirst e rfl
      rw [happend] at hset
      cases hset
    | cons d earlier => exact ⟨d, List.mem_cons_self, hfirst d rfl⟩
  words hrecorded := h.words name ((h.recorded name).mp hrecorded)

/-- **The views of variables agree.** Where no assignment gives `$$` another value and no value
refers to `TOP`, the variables of the file are in step after every run, and each of its definitions
is among the emissions. An assignment that fails changes none of the three views, in any state. -/
theorem views_agree (options : Options) (source : Text) (sts : List Statement)
    (hdollar : ∀ a ∈ Makefile.assignments sts,
      a.target = none → a.name.constant? ≠ some Makefile.dollarName)
    (htop : ∀ a ∈ Makefile.assignments sts, ¬ a.value.body.RefersTo topName) :
    (emissions options source start sts).map Emission.definition =
        (start.run options source sts).file.assignments ∧
      (∀ name, ViewsAgree (start.run options source sts) (emissions options source start sts)
        name) ∧
      ∀ (s : State) (st : Statement) (a : Assignment), st.content = .assignment a →
        Failed (st.quote source) s (s.step options source st) →
        SameGlobals s (s.step options source st) := by
  have hleaves : ∀ st ∈ sts, ∀ a, st.content = .assignment a → LeavesBuiltins a := by
    intro st hst a ha
    have hmem : a ∈ Makefile.assignments sts := by
      refine List.mem_filterMap.mpr ⟨st, hst, ?_⟩
      rw [ha]
    exact ⟨hdollar a hmem, htop a hmem⟩
  have hrun : InStep (start.run options source sts) (emissions options source start sts) :=
    inStep_run inStep_start hleaves
  exact ⟨hrun.emitted, hrun.viewsAgree, fun s st a _ hfailed => sameGlobals_of_failed hfailed⟩

/-- A variable that is set, set again to a reference, and added to. -/
def addingUp : List Statement :=
  [setting ['A'] ['x'], ⟨.ofText 0 ['A'], .recursive, ⟨0, .ref (.ofText ['B']) 0 0 .paren .nil⟩, none⟩,
    { setting ['A'] ['d', ' ', 'e'] with op := .append }].map fun a => aside (.assignment a)

/-- The views agree on the variable `A`, of which the first definition no longer counts. -/
theorem views_agree_addingUp :
    (∀ a ∈ Makefile.assignments addingUp,
        a.target = none → a.name.constant? ≠ some Makefile.dollarName) ∧
      (∀ a ∈ Makefile.assignments addingUp, ¬ a.value.body.RefersTo topName) ∧
      (definitionsOf ['A'] (emissions {} [] start addingUp)).map (·.definition.assigner) =
        [.set, .set, .append] ∧
      ViewsAgree (start.run {} [] addingUp) (emissions {} [] start addingUp) ['A'] := by
  have hdollar : ∀ a ∈ Makefile.assignments addingUp,
      a.target = none → a.name.constant? ≠ some Makefile.dollarName := by decide
  have htop : ∀ a ∈ Makefile.assignments addingUp, ¬ a.value.body.RefersTo topName := by decide
  exact ⟨hdollar, htop, by decide +kernel, (views_agree {} [] addingUp hdollar htop).2.1 ['A']⟩

end State

end MakeBlueprint.Conversion
