import MakeBlueprint.Proofs.Lifecycle.Run
import MakeBlueprint.Proofs.Names
import MakeBlueprint.Proofs.Typing.Conversion

/-!
# Names that start with `LOCAL_`

A name that starts with `LOCAL_` is that of a module variable, and an assignment to it leaves the
variables of the file alone, but for eight names. The suffix is taken off before the meaning of a
name is looked up, and `LOCAL` alone means a variable of the file. So an assignment to `LOCAL_64`
defines the variable `LOCAL`, which no makefile wrote, and nothing is reported.

* `bareLocals`: the names that are `LOCAL` and a suffix.
* `ofName_baseName_eq_global_iff`: of the names that start with `LOCAL_`, these and no others mean a
  variable of the file.
* `sameGlobals_step_iff`: an assignment to a name that starts with `LOCAL_` leaves the variables of
  the file alone, unless it is one of these and the value is a list.
* `Produces`, `produced_before`: each definition of a file comes from one assignment, with the name
  that is written there.
* `local_names`: the two results together.
-/

namespace MakeBlueprint.Conversion

open Blueprint (Value)
open Makefile (Assignment Phrase Statement)

/-! ## Names without their suffix -/

/-- **The names of which only `LOCAL` is left** without their suffix. -/
def bareLocals : List Text := suffixes.map fun row => bareLocal ++ '_' :: row.1

/-- The name of the variable of the file that an assignment to a name defines. -/
def definedName (written : Text) : Text := if written ∈ bareLocals then bareLocal else written

theorem fst_splitSuffix_of_mem_suffixes :
    ∀ row ∈ suffixes, (splitSuffix (bareLocal ++ '_' :: row.1)).1 = bareLocal := by decide

namespace State

variable {s t : State} {quoted written name : Text} {options : Options} {source : Text}
  {a : Assignment} {st : Statement} {sts : List Statement} {body : Phrase.Body} {list : Value}
  {append : Bool} {n : Nat}

theorem isLocalName_of_mem_bareLocals (h : written ∈ bareLocals) : isLocalName written = true := by
  obtain ⟨row, -, rfl⟩ := List.mem_map.mp h
  rfl

theorem fst_splitSuffix_of_mem_bareLocals (h : written ∈ bareLocals) :
    (splitSuffix written).1 = bareLocal := by
  obtain ⟨row, hrow, rfl⟩ := List.mem_map.mp h
  exact fst_splitSuffix_of_mem_suffixes row hrow

theorem baseName_of_mem_bareLocals (h : written ∈ bareLocals) :
    baseName written = bareLocal := by
  rw [baseName, if_pos (isLocalName_of_mem_bareLocals h)]
  exact fst_splitSuffix_of_mem_bareLocals h

/-- Only a suffix can leave `LOCAL` of a name that starts with `LOCAL_`. -/
theorem mem_bareLocals_of_baseName (hlocal : isLocalName written = true)
    (hbase : baseName written = bareLocal) : written ∈ bareLocals := by
  rw [baseName, if_pos hlocal] at hbase
  cases hsuffix : (splitSuffix written).2 with
  | none =>
    rw [splitSuffix_of_none hsuffix] at hbase
    cases hbase
    cases hlocal
  | some path =>
    have hsplit : splitSuffix written = (bareLocal, some path) := Prod.ext hbase hsuffix
    obtain ⟨ending, hmem, happend⟩ := append_of_splitSuffix hsplit
    exact List.mem_map.mpr ⟨_, hmem, happend⟩

/-- **The names that start with `LOCAL_` and mean a variable of the file.** -/
theorem ofName_baseName_eq_global_iff (hlocal : isLocalName written = true) :
    Meaning.ofName (baseName written) = .global ↔ written ∈ bareLocals := by
  constructor
  · intro hglobal
    rcases baseName_of_global hglobal with hsame | hbare
    · rw [hsame] at hglobal
      exact absurd hglobal (ofName_ne_global hlocal)
    · exact mem_bareLocals_of_baseName hlocal hbare
  · intro hmem
    rw [baseName_of_mem_bareLocals hmem]
    exact ofName_eq_global_iff.mpr rfl

theorem baseName_eq_definedName (h : Meaning.ofName (baseName written) = .global) :
    baseName written = definedName written := by
  unfold definedName
  split
  · next hmem => exact baseName_of_mem_bareLocals hmem
  · next hnot =>
    by_cases hlocal : isLocalName written = true
    · exact absurd ((ofName_baseName_eq_global_iff hlocal).mp h) hnot
    · exact if_neg hlocal

/-! ## Assignments -/

/-- A variable of the file takes every list. -/
theorem Sound.exists_assignGlobal (h : Sound sts s) (name : Text) (append : Bool)
    (hlist : coerceList s.scope body = .ok list) :
    ∃ t, s.assignGlobal name body append = .ok t := by
  cases hassign : s.assignGlobal name body append with
  | ok t => exact ⟨t, rfl⟩
  | error cause =>
    exfalso
    rcases bind_eq_error hassign with herror | ⟨value, hvalue, herror⟩
    · rw [hlist] at herror
      cases herror
    · rcases bind_eq_error herror with hset | ⟨u, -, hset⟩
      · obtain ⟨total, htotal, -⟩ := h.exists_total name append (has_coerceList hvalue)
        have hchanged : changed true value
            ((s.knownKind name append).map fun k => Value.var name k) = .error cause :=
          map_eq_error hset
        rw [htotal] at hchanged
        cases hchanged
      · cases hset

/-- An assignment to `LOCAL` and a suffix is handed on as one to `LOCAL`, which no conditional
takes. -/
theorem assignment_of_mem_bareLocals (hmem : written ∈ bareLocals) (htarget : a.target = none)
    (hwritten : a.name.constant? = some written) (hspace : written.any Text.isWhite = false) :
    s.assignment quoted a =
      s.assignOrReport quoted bareLocal (splitSuffix written).2 a := by
  rw [assignment_of_isLocalName htarget hwritten hspace (isLocalName_of_mem_bareLocals hmem),
    baseName_of_mem_bareLocals hmem]
  rfl

/-- An assignment of a list to `LOCAL` and a suffix makes a definition. -/
theorem exists_definition_of_mem_bareLocals (quoted : Text) (hs : Sound sts s)
    (hmem : written ∈ bareLocals) (htarget : a.target = none)
    (hwritten : a.name.constant? = some written) (hspace : written.any Text.isWhite = false)
    (hlist : coerceList s.scope a.value.body = .ok list) :
    ∃ d, (s.assignment quoted a).file.assignments = s.file.assignments ++ [d] := by
  have hglobal : Meaning.ofName bareLocal = .global := ofName_eq_global_iff.mpr rfl
  obtain ⟨t, ht⟩ := hs.exists_assignGlobal bareLocal (a.op == .append) hlist
  obtain ⟨value, kind, -, rfl⟩ := assignGlobal_eq_ok ht
  refine ⟨s.definition bareLocal a value, ?_⟩
  rw [assignment_of_mem_bareLocals hmem htarget hwritten hspace, assignOrReport,
    assign_of_global hglobal, ht]
  exact assignments_define_assignment s _

/-- **An assignment to a name that starts with `LOCAL_` leaves the variables of the file alone**,
unless only `LOCAL` is left of the name, and the value is a list. -/
theorem sameGlobals_step_iff (hs : Sound sts s) (ha : st.content = .assignment a)
    (htarget : a.target = none) (hwritten : a.name.constant? = some written)
    (hspace : written.any Text.isWhite = false) (hlocal : isLocalName written = true) :
    SameGlobals s (s.step options source st) ↔
      ¬ (written ∈ bareLocals ∧ ∃ list, coerceList s.scope a.value.body = .ok list) := by
  constructor
  · rintro hsame ⟨hmem, list, hlist⟩
    obtain ⟨d, hd⟩ := exists_definition_of_mem_bareLocals (st.quote source)
      (hs.moveTo st.lines) hmem htarget hwritten hspace hlist
    have hlength := congrArg List.length hsame.assignments
    rw [step_of_assignment ha, hd, List.length_append] at hlength
    change s.file.assignments.length + 1 = s.file.assignments.length at hlength
    omega
  · intro hnot
    rcases globalCase options source s st with hsame | ⟨b, name, list, hb, hdefines⟩
    · exact hsame
    · rw [ha] at hb
      cases hb
      obtain ⟨other, hother, rfl, -⟩ := hdefines.written
      rw [hwritten] at hother
      cases hother
      have hmem := (ofName_baseName_eq_global_iff hlocal).mp hdefines.meaning
      exact absurd ⟨hmem, list, hdefines.coerced⟩ hnot

/-! ## Definitions -/

/-- **A definition comes from the assignment at a place**, which makes no other, and has the name
that is written there, unless only `LOCAL` is left of that. -/
structure Produces (options : Options) (source : Text) (sts : List Statement) (n : Nat)
    (d : Blueprint.Assignment) : Prop where
  assignment : ∃ st a written, sts[n]? = some st ∧ st.content = .assignment a ∧ a.target = none ∧
    a.name.constant? = some written ∧ written.any Text.isWhite = false ∧
    d.name = definedName written
  defined : (before options source sts (n + 1)).file.assignments =
    (before options source sts n).file.assignments ++ [d]

/-- **Each definition before a place comes from an assignment**, and they are in order. -/
theorem produced_before (options : Options) (source : Text) (hn : n ≤ sts.length) :
    ∃ places : List Nat, places.Pairwise (· < ·) ∧ (∀ place ∈ places, place < n) ∧
      List.Forall₂ (Produces options source sts) places
        (before options source sts n).file.assignments := by
  induction n with
  | zero => exact ⟨[], .nil, fun _ h => absurd h List.not_mem_nil, .nil⟩
  | succ n ih =>
    obtain ⟨places, hsorted, hbound, hproduced⟩ := ih (by omega)
    have hst : sts[n]? = some sts[n] := List.getElem?_eq_getElem hn
    have hstep : before options source sts (n + 1) =
        (before options source sts n).step options source sts[n] := before_succ hst
    rcases globalCase options source (before options source sts n) sts[n] with
      hsame | ⟨a, name, list, ha, hdefines⟩
    · refine ⟨places, hsorted, fun place hplace => Nat.lt_succ_of_lt (hbound place hplace), ?_⟩
      rw [hstep, hsame.assignments]
      exact hproduced
    · obtain ⟨written, hwritten, rfl, hspace⟩ := hdefines.written
      have hadded := hdefines.assignments
      rw [← hstep] at hadded
      have hnext : Produces options source sts n _ :=
        ⟨⟨_, a, written, hst, ha, hdefines.target, hwritten, hspace,
          baseName_eq_definedName hdefines.meaning⟩, hadded⟩
      refine ⟨places ++ [n], ?_, ?_, ?_⟩
      · refine List.pairwise_append.mpr ⟨hsorted, List.pairwise_singleton _ _, ?_⟩
        intro place hplace other hother
        rw [List.mem_singleton.mp hother]
        exact hbound place hplace
      · intro place hplace
        rcases List.mem_append.mp hplace with hplace | hplace
        · exact Nat.lt_succ_of_lt (hbound place hplace)
        · rw [List.mem_singleton.mp hplace]
          exact Nat.lt_succ_self n
      · rw [hadded]
        exact List.rel_append hproduced (.cons hnext .nil)

/-- **Names that start with `LOCAL_`.** In every state that a makefile can lead to, an assignment
to such a name leaves the variables of the file alone, unless it is `LOCAL` and a suffix, and the
value is a list. The definitions of a file come from its assignments, one each and in order, with
the names that are written there, but for `LOCAL` in the place of these names. -/
theorem local_names (options : Options) (source : Text) :
    (∀ s, Reachable options source s → ∀ (st : Statement) (a : Assignment) (written : Text),
        st.content = .assignment a → a.target = none → a.name.constant? = some written →
        written.any Text.isWhite = false → isLocalName written = true →
        (SameGlobals s (s.step options source st) ↔
          ¬ (written ∈ bareLocals ∧ ∃ list, coerceList s.scope a.value.body = .ok list))) ∧
      ∀ sts, ∃ places : List Nat, places.Pairwise (· < ·) ∧
        List.Forall₂ (Produces options source sts) places
          (toBlueprint options source sts).assignments := by
  constructor
  · rintro s ⟨sts, rfl⟩ st a written ha htarget hwritten hspace hlocal
    exact sameGlobals_step_iff (sound_run (sound_start sts)) ha htarget hwritten hspace hlocal
  · intro sts
    obtain ⟨places, hsorted, -, hproduced⟩ :=
      produced_before options source (Nat.le_refl sts.length)
    refine ⟨places, hsorted, ?_⟩
    unfold toBlueprint Blueprint.File.assignments
    rw [definitions_finish, ← before_length]
    exact hproduced

/-- `LOCAL` and a word size. -/
def wordSize : Text := "LOCAL_64"

/-- An assignment to it. -/
def settingWordSize : Statement := aside (.assignment (setting wordSize ['x']))

/-- **A name that starts with `LOCAL_` and defines a variable**, which is called `LOCAL`. -/
theorem local_names_wordSize :
    isLocalName wordSize = true ∧ ¬ SameGlobals start (start.step {} [] settingWordSize) ∧
      (toBlueprint {} [] [settingWordSize]).assignments.map (·.name) = [bareLocal] := by
  have hlocal : isLocalName wordSize = true := by decide
  have hlist : coerceList start.scope (setting wordSize ['x']).value.body =
    .ok (.list [.string ['x']]) := rfl
  refine ⟨hlocal, fun h => ?_, by decide +kernel⟩
  exact ((local_names {} []).1 start ⟨[], rfl⟩ settingWordSize _ wordSize rfl rfl (by decide)
    (by decide) hlocal).mp h ⟨by decide, _, hlist⟩

end State

end MakeBlueprint.Conversion
