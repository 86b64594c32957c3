import MakeBlueprint.Proofs.Assignments.Accepted

/-!
# Assignments that write in place

A converter that keeps its state in place makes a write by going down the property tree. It puts in
the maps that are missing on its way before it knows whether the value at the end can be changed,
and an assignment that makes several writes makes the first one before it tries the second. Nothing
is taken back when a value is refused.

`State.assignInPlace` is that way to assign: it gives the state that it leaves behind, refused or
not. What it leaves behind when it is refused is the state that it was given:

* `updateInPlace_eq`: a refused change adds no map, because a value that is missing is never
  refused.
* `writeAllInPlace_eq`: of several writes only the first can be refused.
* `assignInPlace_eq`: so assigning in place is `assign`.
* `step_of_refused`: an assignment that is refused is reported, and changes nothing else.
-/

namespace MakeBlueprint.Blueprint.Property

variable {ε : Type}

/-! ## Changes in place -/

/-- Changes the value of the first property with a name in place, or adds one at the end. -/
def alterInPlace (name : Text) (line : Nat) (change : Option Value → Except ε Value) :
    List Property → List Property × Option ε
  | [] =>
    match change none with
    | .ok value => ([⟨name, value, line⟩], none)
    | .error e => ([], some e)
  | p :: ps =>
    if p.name = name then
      match change (some p.value) with
      | .ok value => (⟨p.name, value, p.line⟩ :: ps, none)
      | .error e => (p :: ps, some e)
    else
      let (qs, e) := alterInPlace name line change ps
      (p :: qs, e)

/-- Goes into the first property with a name. When there is none, an empty map is put at the end
first, and it stays whatever happens inside. -/
def enter (level : Text) (line : Nat) (notAMap : Text → ε)
    (inside : List Property → List Property × Option ε) :
    List Property → List Property × Option ε
  | [] =>
    let (inner, e) := inside []
    ([⟨level, .map inner, line⟩], e)
  | p :: ps =>
    if p.name = level then
      match p.value with
      | .map inner =>
        let (inner, e) := inside inner
        (⟨p.name, .map inner, p.line⟩ :: ps, e)
      | _ => (p :: ps, some (notAMap level))
    else
      let (qs, e) := enter level line notAMap inside ps
      (p :: qs, e)

/-- Changes the value behind a path of maps in place. -/
def updateInPlace (line : Nat) (notAMap : Text → ε) (name : Text)
    (change : Option Value → Except ε Value) : Path → List Property → List Property × Option ε
  | [], ps => alterInPlace name line change ps
  | level :: path, ps => enter level line notAMap (updateInPlace line notAMap name change path) ps

/-- What is left of a value in place: the new one, or the old one with the reason. -/
def settled {α : Type} (old : α) : Except ε α → α × Option ε
  | .ok new => (new, none)
  | .error e => (old, some e)

variable {line : Nat} {notAMap : Text → ε} {name : Text} {change : Option Value → Except ε Value}
  {value : Value}

theorem alterInPlace_eq (ps : List Property) :
    alterInPlace name line change ps = settled ps (alter name line change ps) := by
  induction ps with
  | nil =>
    rw [alterInPlace, alter]
    cases change none <;> rfl
  | cons p ps ih =>
    rw [alterInPlace, alter, ih]
    by_cases hp : p.name = name
    · rw [if_pos hp, if_pos hp]
      cases change (some p.value) <;> rfl
    · rw [if_neg hp, if_neg hp]
      cases alter name line change ps <;> rfl

/-- A value that is missing is put where it is missing, behind any path. -/
theorem exists_update_nil (hnone : change none = .ok value) (path : Path) :
    ∃ qs, update line notAMap name change path [] = .ok qs := by
  induction path with
  | nil =>
    refine ⟨[⟨name, value, line⟩], ?_⟩
    rw [update, alter, hnone]
    rfl
  | cons level path ih =>
    obtain ⟨inner, hinner⟩ := ih
    refine ⟨[⟨level, .map inner, line⟩], ?_⟩
    rw [update, alter, hinner]
    rfl

/-- **A refused change leaves the tree as it was**, if a value that is missing is never refused. -/
theorem updateInPlace_eq (hnone : change none = .ok value) (path : Path) (ps : List Property) :
    updateInPlace line notAMap name change path ps =
      settled ps (update line notAMap name change path ps) := by
  induction path generalizing ps with
  | nil => exact alterInPlace_eq ps
  | cons level path ih =>
    rw [updateInPlace]
    induction ps with
    | nil =>
      -- The new map stays, but nothing can be refused in it.
      obtain ⟨inner, hinner⟩ : ∃ inner, update line notAMap name change path [] = .ok inner :=
        exists_update_nil hnone path
      rw [enter, ih, update, alter, hinner]
      rfl
    | cons p ps ihps =>
      rw [update] at ihps ⊢
      rw [enter, alter, ihps]
      by_cases hp : p.name = level
      · rw [if_pos hp, if_pos hp]
        cases hv : p.value with
        | map inner =>
          simp only [ih]
          cases update line notAMap name change path inner with
          | ok new => rfl
          | error e =>
            obtain ⟨pname, pvalue, pline⟩ := p
            change pvalue = .map inner at hv
            rw [hv]
            rfl
        | _ => rfl
      · rw [if_neg hp, if_neg hp]
        cases alter level line _ ps <;> rfl

end MakeBlueprint.Blueprint.Property

namespace MakeBlueprint.Conversion.State

open Blueprint (Comment Path Property Value)
open Blueprint.Property (settled updateInPlace updateInPlace_eq)
open Makefile (Assignment Phrase Statement)

variable {s t before after : State} {w : Write} {ws : List Write} {name : Text} {path : Path}
  {body : Phrase.Body} {append : Bool} {sts : List Statement} {quoted : Text} {a : Assignment}
  {cause : Refusal}

/-! ## Assignments in place -/

/-- Makes a write in place. -/
def writeInPlace (s : State) (w : Write) : State × Option Refusal :=
  match s.draft with
  | none => (s, some (.outsideModule (Path.dotted (w.path ++ [w.name]))))
  | some d =>
    let (properties, cause) :=
      updateInPlace s.line .notAMap w.name (changed w.append w.value) w.path d.properties
    ({ s with draft := some { d with properties } }, cause)

/-- Makes writes in place up to the first that is refused. -/
def writeAllInPlace : State → List Write → State × Option Refusal
  | s, [] => (s, none)
  | s, w :: ws =>
    match s.writeInPlace w with
    | (t, none) => writeAllInPlace t ws
    | (t, some cause) => (t, some cause)

/-- Writes a value in place. A variable of the file is only written when its list and its sum are
known. -/
def assignInPlace (s : State) (name : Text) (path : Path) (body : Phrase.Body) (append : Bool) :
    State × Option Refusal :=
  if Meaning.ofName name = .global then settled s (s.assignGlobal name body append)
  else
    match writes s.scope name path body append with
    | .ok ws => s.writeAllInPlace ws
    | .error cause => (s, some cause)

theorem writeInPlace_eq (s : State) (w : Write) : s.writeInPlace w = settled s (s.write w) := by
  unfold writeInPlace write setProperty
  cases hd : s.draft with
  | none => rfl
  | some d =>
    simp only
    have hnone : changed w.append w.value none = .ok w.value := rfl
    rw [updateInPlace_eq hnone]
    cases Property.update s.line .notAMap w.name (changed w.append w.value) w.path d.properties with
    | ok properties => rfl
    | error cause =>
      change ({ s with draft := some d }, some cause) = (s, some cause)
      rw [← hd]

/-- Of writes that are all made, each one is made in place. -/
theorem writeAllInPlace_of_ok (h : ws.foldlM write s = .ok t) :
    s.writeAllInPlace ws = (t, none) := by
  induction ws generalizing s with
  | nil =>
    cases h
    rfl
  | cons w ws ih =>
    rw [List.foldlM_cons] at h
    obtain ⟨u, hu, h⟩ := bind_eq_ok h
    rw [writeAllInPlace, writeInPlace_eq, hu]
    exact ih h

/-- What the first write is refused for, all are refused for. -/
theorem writeAllInPlace_of_head (h : s.write w = .error cause) :
    s.writeAllInPlace (w :: ws) = settled s ((w :: ws).foldlM write s) := by
  rw [writeAllInPlace, writeInPlace_eq, List.foldlM_cons, h]
  rfl

/-- **Of the writes of an assignment only the first can be refused.** -/
theorem writeAllInPlace_eq (hs : Sound sts s) (hpath : path ∈ propertyPaths)
    (h : writes s.scope name path body append = .ok ws) :
    s.writeAllInPlace ws = settled s (ws.foldlM write s) := by
  cases hw : ws.foldlM write s with
  | ok t => exact writeAllInPlace_of_ok hw
  | error cause =>
    rw [← hw]
    cases ws with
    | nil => cases hw
    | cons w ws =>
      cases hfirst : s.write w with
      | error cause => exact writeAllInPlace_of_head hfirst
      | ok t =>
        -- The module is open, so later writes are refused only for sums of booleans.
        exfalso
        obtain ⟨d, properties, hd, -, rfl⟩ := setProperty_eq_ok hfirst
        rcases single_or_kind_ne_bool h with ⟨v, hv, -⟩ | hsum
        · cases hv
          rw [List.foldlM_cons, hfirst] at hw
          cases hw
        · obtain ⟨qs, hqs⟩ := exists_intoAll s.line (hs.draft d hd)
            (typed_of_writes hpath h) hsum
          rw [foldlM_write hd, hqs] at hw
          cases hw

/-- **Assigning in place is assigning**: what is left behind when a value is refused is the state
before. -/
theorem assignInPlace_eq (hs : Sound sts s) (hpath : path ∈ propertyPaths) :
    s.assignInPlace name path body append = settled s (s.assign name path body append) := by
  unfold assignInPlace
  by_cases hg : Meaning.ofName name = .global
  · rw [if_pos hg, assign_of_global hg]
  · rw [if_neg hg, assign_eq_writes hg]
    cases hws : writes s.scope name path body append with
    | error cause => rfl
    | ok ws => exact writeAllInPlace_eq hs hpath hws

/-! ## Statements -/

/-- Where the value of a variable without its suffix is handed on. -/
def handedLocated? (s : State) (quoted name : Text) (suffix : Option Path) :
    Option (State × Text × Path) :=
  match if isLocalName name then s.conditional? else none, suffix with
  | none, _ => some (s, name, suffix.getD [])
  | some _, some path => some (s.diagnose quoted .suffixInConditional, name, path)
  | some c, none => c.path.map fun path => (s, name, path)

/-- **Where the value of an assignment is handed on**: the state that it is written to, the name of
the variable without its suffix, and the path of the property. -/
def handed? (s : State) (quoted : Text) (a : Assignment) : Option (State × Text × Path) :=
  if a.target.isSome then none
  else
    match a.name.constant? with
    | none => none
    | some name =>
      if name.any Text.isWhite then none
      else if isLocalName name then
        s.handedLocated? quoted (splitSuffix name).1 (splitSuffix name).2
      else s.handedLocated? quoted name none

/-- What it means that an assignment is handed on. -/
structure HandedOn (s : State) (quoted : Text) (a : Assignment) (before : State) (name : Text)
    (path : Path) (t : State) : Prop where
  origin : before = s ∨ before = s.diagnose quoted .suffixInConditional
  place : path ∈ s.places
  result : t =
    match before.assign name path a.value.body (a.op == .append) with
    | .ok t => t
    | .error cause => before.diagnose quoted (.refused cause)

theorem handedOn_assignLocated {suffix : Option Path}
    (hsuffix : ∀ p, suffix = some p → p ∈ suffixes.map Prod.snd) {other : Text}
    (h : s.handedLocated? quoted other suffix = some (before, name, path)) :
    HandedOn s quoted a before name path (s.assignLocated quoted other suffix a) := by
  have hplace : suffix.getD [] ∈ s.places := by
    cases suffix with
    | none => exact List.mem_cons_self
    | some p => exact List.mem_cons_of_mem _ (List.mem_append_left _ (hsuffix p rfl))
  unfold handedLocated? at h
  unfold assignLocated
  cases hcond : if isLocalName other then s.conditional? else none with
  | none =>
    rw [hcond] at h
    cases h
    exact ⟨.inl rfl, hplace, rfl⟩
  | some c =>
    rw [hcond] at h
    cases suffix with
    | some p =>
      cases h
      exact ⟨.inr rfl, hplace, rfl⟩
    | none =>
      obtain ⟨p, hp, he⟩ := Option.map_eq_some_iff.mp h
      cases he
      simp only [hp]
      refine ⟨.inl rfl, ?_, rfl⟩
      have hc : s.conditional? = some c := by
        split at hcond
        · exact hcond
        · cases hcond
      apply List.mem_cons_of_mem
      apply List.mem_append_right
      rw [hc, Option.bind_some, hp]
      exact List.mem_singleton_self path

theorem handedOn_assignment (h : s.handed? quoted a = some (before, name, path)) :
    HandedOn s quoted a before name path (s.assignment quoted a) := by
  unfold handed? at h
  unfold assignment
  split at h
  · cases h
  · next htarget =>
    rw [if_neg htarget]
    cases hwritten : a.name.constant? with
    | none =>
      rw [hwritten] at h
      cases h
    | some written =>
      rw [hwritten] at h
      cases hwhite : written.any Text.isWhite with
      | true =>
        simp only [hwhite, if_true] at h
        cases h
      | false =>
        simp only [hwhite, Bool.false_eq_true, if_false] at h ⊢
        by_cases hlocal : isLocalName written = true
        · rw [if_pos hlocal] at h ⊢
          exact handedOn_assignLocated (fun p hp => mem_suffixes_of_splitSuffix hp) h
        · rw [if_neg hlocal] at h ⊢
          exact handedOn_assignLocated (fun p hp => by cases hp) h

/-- **A statement leaves all but the comments and the lines** as they were. -/
structure Untouched (s t : State) : Prop where
  draft : t.draft = s.draft
  definitions : t.file.definitions = s.file.definitions
  globals : t.globals = s.globals
  scope : t.scope = s.scope
  conditionals : t.conditionals = s.conditionals
  assigning : t.assigning = s.assigning
  comments : s.file.comments <+: t.file.comments

theorem untouched_diagnose (s : State) (quoted : Text) (problem : Problem) :
    Untouched s (s.diagnose quoted problem) :=
  ⟨rfl, rfl, rfl, rfl, rfl, rfl, List.prefix_append _ _⟩

theorem Untouched.trans {u : State} (h : Untouched s t) (h' : Untouched t u) : Untouched s u :=
  ⟨h'.draft.trans h.draft, h'.definitions.trans h.definitions, h'.globals.trans h.globals,
    h'.scope.trans h.scope, h'.conditionals.trans h.conditionals,
    h'.assigning.trans h.assigning, h.comments.trans h'.comments⟩

variable {options : Options} {source : Text} {st : Statement}

/-- **A refused assignment changes nothing.** Wherever a makefile has led, an assignment that writes
in place and is refused leaves behind the state that it was given. It is reported, and nothing but
the comments and the lines changes. -/
theorem step_of_refused (hs : Reachable options source s) (hst : st.content = .assignment a)
    (hhanded : (s.moveTo st.lines).handed? (st.quote source) a = some (before, name, path))
    (hrefused : before.assignInPlace name path a.value.body (a.op == .append) =
      (after, some cause)) :
    after = before ∧
      s.step options source st = after.diagnose (st.quote source) (.refused cause) ∧
      Untouched s (s.step options source st) := by
  obtain ⟨sts, rfl⟩ := hs
  have hrun : Sound sts (start.run options source sts) := sound_run (sound_start sts)
  have hsound := hrun.moveTo st.lines
  have hon := handedOn_assignment hhanded
  have hbefore : Sound sts before := by
    rcases hon.origin with rfl | rfl
    · exact hsound
    · exact hsound.diagnose _ trivial
  have hplace := mem_propertyPaths_of_mem_places hsound.frames hon.place
  rw [assignInPlace_eq hbefore hplace] at hrefused
  have hresult : (start.run options source sts).step options source st = _ :=
    (step_of_assignment hst).trans hon.result
  cases hassign : before.assign name path a.value.body (a.op == .append) with
  | ok t =>
    rw [hassign] at hrefused
    cases hrefused
  | error e =>
    rw [hassign] at hrefused hresult
    cases hrefused
    refine ⟨rfl, hresult, ?_⟩
    rw [hresult]
    have hmoved : Untouched (start.run options source sts)
        ((start.run options source sts).moveTo st.lines) :=
      ⟨rfl, rfl, rfl, rfl, rfl, rfl, List.prefix_refl _⟩
    refine hmoved.trans (Untouched.trans ?_ (untouched_diagnose _ _ _))
    rcases hon.origin with hb | hb
    · rw [hb]
      exact ⟨rfl, rfl, rfl, rfl, rfl, rfl, List.prefix_refl _⟩
    · rw [hb]
      exact untouched_diagnose _ _ _

/-- Booleans are not added up, and the first one stays. -/
theorem step_of_refused_booleans :
    let name : Text := "LOCAL_CLANG"
    let path : Path := ["arch", "arm"]
    let written : Text := "LOCAL_CLANG_arm"
    let s := justBegun.step {} [] (assigned written .simple (.ofText "true"))
    let st := assigned written .append (.ofText "false")
    let t := s.moveTo st.lines
    Reachable {} [] s ∧
      t.assignInPlace name path (.ofText "false") true =
        (t, some (.unsupportedAddition (.noSum .bool))) ∧
      Untouched s (s.step {} [] st) := by
  intro name path written s st t
  have hs : Reachable {} [] s := ⟨[beginning, assigned written .simple (.ofText "true")], rfl⟩
  have hhanded : t.handed? (st.quote []) ⟨.ofText 0 written, .append, ⟨0, .ofText "false"⟩, none⟩ =
      some (t, name, path) := rfl
  have hrefused : t.assignInPlace name path (.ofText "false") true =
      (t, some (.unsupportedAddition (.noSum .bool))) := rfl
  exact ⟨hs, hrefused, (step_of_refused hs rfl hhanded hrefused).2.2⟩

end MakeBlueprint.Conversion.State
