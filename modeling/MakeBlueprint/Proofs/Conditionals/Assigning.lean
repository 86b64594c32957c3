import MakeBlueprint.Proofs.Conditionals.Nesting

/-!
# The conditional that properties are put under

A conversion keeps the conditionals around a statement on a pile, and the place of one of them,
under which the properties of the module are put. The pile grows and shrinks, modules begin and end
between its conditionals, and the place stays right: it is always that of the outermost conditional
that can be expressed and was begun while a module was open.

* `PileCase`, `pileCase`: what one statement does to the pile and to the place.
* `begunBefore`: the places of the statements that began the conditionals on the pile.
* `ToldBefore`, `toldBefore`: the pile is told by these statements, and the place by the modules that
  were open before them.
* `Balanced`: statements that end the conditionals that they begin, and no others.
* `Within`, `within_step`, `within_run`: the states between such statements.
* `conditionals_discipline`: the two results, for all states that a makefile can lead to.
-/

namespace MakeBlueprint.Conversion

open Makefile (Content Directive Keyword Phrase Statement)

/-- The branches of the condition of a directive, if it can be expressed. -/
def branchesOf? : Content → Option Branches
  | .directive d => Branches.ofCondition? d.arguments.dump
  | _ => none

namespace State

variable {s t base : State} {options : Options} {source quoted : Text} {sts : List Statement}
  {st : Statement} {n m : Nat}

/-! ## One statement -/

/-- **What a statement does to the pile**, and to the place that properties are put under. -/
inductive PileCase (s : State) (st : Statement) (t : State) : Prop
  /-- A conditional is begun. Properties are put under it if they were under none, it can be
  expressed, and a module is open. -/
  | begins (holds : Bool) (hst : begins st = true)
      (hpile : t.conditionals =
        s.conditionals ++ [(branchesOf? st.content).map fun b => ⟨b, holds⟩])
      (hassigning : t.assigning = s.assigning.or
        (if (branchesOf? st.content).isSome && s.draft.isSome then some s.conditionals.length
          else none))
  | turns (hst : keywordOf? st.content = some .elseBranch)
      (hpile : t.conditionals = s.conditionals.dropLast ++
        (s.conditionals.getLast?.map (Option.map Conditional.flip)).toList)
      (hassigning : t.assigning = s.assigning)
  | ends (hst : keywordOf? st.content = some .endIf)
      (hpile : t.conditionals = s.conditionals.dropLast)
      (hassigning : t.assigning =
        if s.assigning = some s.conditionals.dropLast.length then none else s.assigning)
  | keeps (hst : steers st = false) (hpile : t.conditionals = s.conditionals)
      (hassigning : t.assigning = s.assigning)

theorem assigning_includeFile (s : State) (file : Phrase) :
    (s.includeFile options quoted file).assigning = s.assigning := by
  unfold includeFile
  simp only
  split
  · unfold openModule
    rw [dropModule_eq]
  · split
    · exact (closed_closeModule s quoted _).assigning
    · rfl

theorem assigning_beginConditional (s : State) (holds : Bool) (condition : Text) :
    (s.beginConditional quoted holds condition).assigning = s.assigning.or
      (if (Branches.ofCondition? condition).isSome && s.draft.isSome then
        some s.conditionals.length else none) := by
  unfold beginConditional
  split
  · next hnone =>
    rw [hnone]
    exact Option.or_none.symm
  · next b hsome =>
    rw [hsome, Option.isSome_some, Bool.true_and]
    simp only
    cases s.draft with
    | none => exact Option.or_none.symm
    | some d => cases hs : s.assigning <;> rfl

theorem assigning_otherBranch (s : State) : (s.otherBranch quoted).assigning = s.assigning := by
  unfold otherBranch
  split <;> rfl

theorem assigning_endConditional (hs : WellFramed s) :
    (s.endConditional quoted).assigning =
      if s.assigning = some s.conditionals.dropLast.length then none else s.assigning := by
  by_cases hnil : s.conditionals = []
  · have hnone : s.assigning ≠ some s.conditionals.dropLast.length := by
      intro hi
      obtain ⟨c, hc⟩ := hs.assigning _ hi
      rw [hnil] at hc
      cases hc
    rw [if_neg hnone]
    unfold endConditional
    rw [hnil]
    rfl
  · rw [endConditional_eq quoted hs hnil]

theorem pileCase_beginConditional (s : State) (holds : Bool) {condition : Text}
    (hst : begins st = true)
    (hbranches : branchesOf? st.content = Branches.ofCondition? condition) :
    PileCase s st (s.beginConditional quoted holds condition) := by
  refine .begins holds hst ?_ ?_
  · rw [hbranches]
    exact conditionals_beginConditional s holds condition
  · rw [hbranches]
    exact assigning_beginConditional s holds condition

theorem pileCase_directive (options : Options) (quoted : Text) (hs : WellFramed s) {d : Directive}
    (h : st.content = .directive d) : PileCase s st (s.directive options quoted d) := by
  obtain ⟨keyword, arguments⟩ := d
  have hkeyword : keywordOf? st.content = some keyword := by
    rw [h]
    rfl
  have hbranches : branchesOf? st.content = Branches.ofCondition? arguments.dump := by
    rw [h]
    rfl
  cases keyword with
  | includeFile | includeOptional | includeSilent =>
    refine .keeps ?_ (conditionals_includeFile s arguments) (assigning_includeFile s arguments)
    rw [steers, begins, hkeyword]
    rfl
  | define | endDefine =>
    refine .keeps ?_ rfl rfl
    rw [steers, begins, hkeyword]
    rfl
  | ifEq | ifNotEq | ifDefined | ifNotDefined =>
    have hst : begins st = true := by
      rw [begins, hkeyword]
      rfl
    exact pileCase_beginConditional s _ hst hbranches
  | elseBranch => exact .turns hkeyword (conditionals_otherBranch s) (assigning_otherBranch s)
  | endIf => exact .ends hkeyword (conditionals_endConditional s) (assigning_endConditional hs)

theorem steers_eq_false_of_keyword (h : keywordOf? st.content = none) : steers st = false := by
  rw [steers, begins, h]
  rfl

/-- **The cases of a statement**, for the pile. -/
theorem pileCase (options : Options) (source : Text) (hs : WellFramed s) (st : Statement) :
    PileCase s st (s.step options source st) := by
  have hm : WellFramed (s.moveTo st.lines) := hs.congr rfl rfl
  unfold step
  simp only
  split
  · next text h => exact .keeps (steers_eq_false_of_keyword (by rw [h]; rfl)) rfl rfl
  · next a h =>
    have hkept := (assignmentCase (s.moveTo st.lines) (st.quote source) a).kept
    exact .keeps (steers_eq_false_of_keyword (by rw [h]; rfl)) hkept.conditionals hkept.assigning
  · next d h =>
    cases pileCase_directive options (st.quote source) hm h with
    | begins holds hst hpile hassigning => exact .begins holds hst hpile hassigning
    | turns hst hpile hassigning => exact .turns hst hpile hassigning
    | ends hst hpile hassigning => exact .ends hst hpile hassigning
    | keeps hst hpile hassigning => exact .keeps hst hpile hassigning
  · next h => exact .keeps (steers_eq_false_of_keyword (by rw [h]; rfl)) rfl rfl
  · next h => exact .keeps (steers_eq_false_of_keyword (by rw [h]; rfl)) rfl rfl

theorem begins_eq_false_of_else (h : keywordOf? st.content = some .elseBranch) :
    begins st = false := by
  rw [begins, h]
  rfl

theorem begins_eq_false_of_endIf (h : keywordOf? st.content = some .endIf) :
    begins st = false := by
  rw [begins, h]
  rfl

theorem of_not_steers (h : steers st = false) :
    begins st = false ∧ keywordOf? st.content ≠ some .elseBranch ∧
      keywordOf? st.content ≠ some .endIf := by
  unfold steers at h
  obtain ⟨⟨hbegins, helse⟩, hend⟩ : (begins st = false ∧ _) ∧ _ := by
    rwa [Bool.or_eq_false_iff, Bool.or_eq_false_iff] at h
  exact ⟨hbegins, beq_eq_false_iff_ne.mp helse, beq_eq_false_iff_ne.mp hend⟩

/-! ## The statements that began the conditionals -/

/-- **The places of the statements that began the conditionals** which stand before a place, the
outermost first. -/
def begunBefore (sts : List Statement) : Nat → List Nat
  | 0 => []
  | n + 1 =>
    match sts[n]? with
    | none => begunBefore sts n
    | some st =>
      if begins st then begunBefore sts n ++ [n]
      else if keywordOf? st.content = some .endIf then (begunBefore sts n).dropLast
      else begunBefore sts n

theorem begunBefore_succ (hst : sts[n]? = some st) :
    begunBefore sts (n + 1) =
      if begins st then begunBefore sts n ++ [n]
      else if keywordOf? st.content = some .endIf then (begunBefore sts n).dropLast
      else begunBefore sts n := by
  rw [begunBefore, hst]

/-- The branches of the condition at a place, if it can be expressed. -/
def branchesAt (sts : List Statement) (n : Nat) : Option Branches :=
  sts[n]?.bind fun st => branchesOf? st.content

/-- Whether the conditional at a place can be expressed and is begun while a module is open. -/
def begunInside (options : Options) (source : Text) (sts : List Statement) (n : Nat) : Bool :=
  (branchesAt sts n).isSome && (before options source sts n).draft.isSome

/-- The last item gone, the first that has a property is the same, unless it was the last. -/
theorem findIdx?_dropLast {α : Type} (p : α → Bool) (as : List α) :
    as.dropLast.findIdx? p =
      if as.findIdx? p = some as.dropLast.length then none else as.findIdx? p := by
  rcases List.eq_nil_or_concat as with rfl | ⟨init, last, rfl⟩
  · rfl
  · rw [List.concat_eq_append, List.dropLast_concat, List.findIdx?_append]
    cases hfirst : init.findIdx? p with
    | some i =>
      have hlt : i < init.length := (List.findIdx?_eq_some_iff_getElem.mp hfirst).1
      rw [Option.some_or, if_neg fun h => absurd (Option.some.inj h) (Nat.ne_of_lt hlt)]
    | none =>
      rw [Option.none_or]
      cases hlast : p last <;> simp [hlast]

theorem map_branches_otherBranch (frames : List (Option Conditional)) :
    (frames.dropLast ++ (frames.getLast?.map (Option.map Conditional.flip)).toList).map
        (Option.map Conditional.branches) =
      frames.map (Option.map Conditional.branches) := by
  rcases List.eq_nil_or_concat frames with rfl | ⟨init, last, rfl⟩
  · rfl
  · rw [List.concat_eq_append, List.dropLast_concat, List.getLast?_concat, List.map_append,
      List.map_append]
    cases last <;> rfl

/-- **The pile and the place before a statement are told by the statements in front of it**: the
conditionals on the pile are those that `begunBefore` gives, and properties are put under the first
of them that could be expressed and was begun while a module was open. -/
structure ToldBefore (options : Options) (source : Text) (sts : List Statement) (n : Nat) :
    Prop where
  pile : (before options source sts n).conditionals.map (Option.map Conditional.branches) =
    (begunBefore sts n).map (branchesAt sts)
  assigning : (before options source sts n).assigning =
    (begunBefore sts n).findIdx? (begunInside options source sts)

theorem ToldBefore.length (h : ToldBefore options source sts n) :
    (begunBefore sts n).length = (before options source sts n).conditionals.length := by
  have hlength := congrArg List.length h.pile
  rw [List.length_map, List.length_map] at hlength
  exact hlength.symm

/-- One more statement is told. -/
theorem ToldBefore.succ (h : ToldBefore options source sts n) (hst : sts[n]? = some st) :
    ToldBefore options source sts (n + 1) := by
  have hwell : WellFramed (before options source sts n) :=
    Reachable.wellFramed ⟨sts.take n, rfl⟩
  have hbranches : branchesAt sts n = branchesOf? st.content := by
    rw [branchesAt, hst, Option.bind_some]
  have hcase := pileCase options source hwell st
  rw [← before_succ hst] at hcase
  cases hcase with
  | begins holds hbegins hpile hassigning =>
    have hplaces : begunBefore sts (n + 1) = begunBefore sts n ++ [n] :=
      (begunBefore_succ hst).trans (if_pos hbegins)
    constructor
    · rw [hpile, hplaces, List.map_append, List.map_append, h.pile, List.map_singleton,
        List.map_singleton, hbranches, Option.map_map]
      exact congrArg (_ ++ [·]) Option.map_id'
    · rw [hassigning, hplaces, List.findIdx?_append, h.assigning, h.length, ← hbranches]
      congr 1
      rw [List.findIdx?_singleton]
      unfold begunInside
      split <;> simp
  | turns helse hpile hassigning =>
    have hplaces : begunBefore sts (n + 1) = begunBefore sts n := by
      simp [begunBefore_succ hst, begins_eq_false_of_else helse, helse]
    constructor
    · rw [hpile, hplaces, map_branches_otherBranch, h.pile]
    · rw [hassigning, hplaces, h.assigning]
  | ends hend hpile hassigning =>
    have hplaces : begunBefore sts (n + 1) = (begunBefore sts n).dropLast := by
      simp [begunBefore_succ hst, begins_eq_false_of_endIf hend, hend]
    constructor
    · rw [hpile, hplaces, List.map_dropLast, h.pile, List.map_dropLast]
    · rw [hassigning, hplaces, findIdx?_dropLast, h.assigning, List.length_dropLast,
        List.length_dropLast, h.length]
  | keeps hsteers hpile hassigning =>
    obtain ⟨hbegins, -, hend⟩ := of_not_steers hsteers
    have hplaces : begunBefore sts (n + 1) = begunBefore sts n := by
      simp [begunBefore_succ hst, hbegins, hend]
    constructor
    · rw [hpile, hplaces, h.pile]
    · rw [hassigning, hplaces, h.assigning]

/-- **The pile and the place are told before every statement.** -/
theorem toldBefore (options : Options) (source : Text) (hn : n ≤ sts.length) :
    ToldBefore options source sts n := by
  induction n with
  | zero => exact ⟨rfl, rfl⟩
  | succ n ih => exact (ih (by omega)).succ (List.getElem?_eq_getElem hn)

/-! ## Balanced statements -/

/-- How many conditionals stand after a statement, if some of them stand before it. An `else` or an
`endif` needs one to stand. -/
def nextLevel (n : Nat) (st : Statement) : Option Nat :=
  if begins st then some (n + 1)
  else if keywordOf? st.content = some .elseBranch then if n = 0 then none else some n
  else if keywordOf? st.content = some .endIf then if n = 0 then none else some (n - 1)
  else some n

/-- **Statements are balanced**: every conditional that they begin has its `endif` among them, and
every `else` and every `endif` belongs to one of these conditionals. -/
def Balanced (sts : List Statement) : Prop := sts.foldlM nextLevel 0 = some 0

instance (sts : List Statement) : Decidable (Balanced sts) :=
  inferInstanceAs (Decidable (_ = _))

/-- **A state inside conditionals that were begun since another state.** Those of the other state
are still on the pile, and properties are put under the same one, or under one begun since if there
they were put under none. -/
structure Within (base s : State) (n : Nat) : Prop where
  pile : ∃ inner, inner.length = n ∧ s.conditionals = base.conditionals ++ inner
  assigning : s.assigning = base.assigning ∨
    base.assigning = none ∧ ∃ i, s.assigning = some i ∧ base.conditionals.length ≤ i

theorem WellFramed.lt_length (hs : WellFramed s) {i : Nat} (hi : s.assigning = some i) :
    i < s.conditionals.length := by
  obtain ⟨c, hc⟩ := hs.assigning i hi
  exact (List.getElem?_eq_some_iff.mp hc).1

theorem Within.refl (s : State) : Within s s 0 := ⟨⟨[], rfl, (List.append_nil _).symm⟩, .inl rfl⟩

/-- Outside of the conditionals begun since, everything is as it was. -/
theorem Within.same (h : Within base s 0) (hs : WellFramed s) :
    s.conditionals = base.conditionals ∧ s.assigning = base.assigning := by
  obtain ⟨⟨inner, hlength, hpile⟩, hassigning⟩ := h
  rw [List.length_eq_zero_iff.mp hlength, List.append_nil] at hpile
  refine ⟨hpile, hassigning.resolve_right ?_⟩
  rintro ⟨-, i, hi, hle⟩
  have hlt := hs.lt_length hi
  rw [hpile] at hlt
  omega

/-- A conditional is begun. -/
theorem Within.begins {frame : Option Conditional} {known : Bool} (h : Within base s n)
    (hpile : t.conditionals = s.conditionals ++ [frame])
    (hassigning : t.assigning =
      s.assigning.or (if known then some s.conditionals.length else none)) :
    Within base t (n + 1) := by
  obtain ⟨⟨inner, rfl, hinner⟩, hplace⟩ := h
  refine ⟨⟨inner ++ [frame], List.length_append, ?_⟩, ?_⟩
  · rw [hpile, hinner, List.append_assoc]
  · rcases hplace with hsame | ⟨hnone, i, hi, hle⟩
    · cases hbase : base.assigning with
      | some i =>
        rw [hassigning, hsame, hbase]
        exact .inl rfl
      | none =>
        rw [hassigning, hsame, hbase, Option.none_or]
        cases known with
        | false => exact .inl rfl
        | true =>
          refine .inr ⟨rfl, _, rfl, ?_⟩
          rw [hinner, List.length_append]
          omega
    · rw [hassigning, hi]
      exact .inr ⟨hnone, i, rfl, hle⟩

/-- The innermost conditional goes to its other branch. -/
theorem Within.turns (h : Within base s n) (hn : n ≠ 0)
    (hpile : t.conditionals = s.conditionals.dropLast ++
      (s.conditionals.getLast?.map (Option.map Conditional.flip)).toList)
    (hassigning : t.assigning = s.assigning) : Within base t n := by
  obtain ⟨⟨inner, rfl, hinner⟩, hplace⟩ := h
  rw [← hassigning] at hplace
  refine ⟨?_, hplace⟩
  rcases List.eq_nil_or_concat inner with rfl | ⟨init, last, rfl⟩
  · exact absurd rfl hn
  · rw [List.concat_eq_append] at hinner ⊢
    refine ⟨init ++ [last.map Conditional.flip], by simp, ?_⟩
    rw [hpile, hinner, ← List.append_assoc, List.dropLast_concat, List.getLast?_concat,
      List.append_assoc]
    rfl

/-- The innermost conditional ends. -/
theorem Within.ends (h : Within base s n) (hn : n ≠ 0) (hbase : WellFramed base)
    (hpile : t.conditionals = s.conditionals.dropLast)
    (hassigning : t.assigning =
      if s.assigning = some s.conditionals.dropLast.length then none else s.assigning) :
    Within base t (n - 1) := by
  obtain ⟨⟨inner, rfl, hinner⟩, hplace⟩ := h
  rcases List.eq_nil_or_concat inner with rfl | ⟨init, last, rfl⟩
  · exact absurd rfl hn
  · have hrest : s.conditionals.dropLast = base.conditionals ++ init := by
      rw [hinner, List.concat_eq_append, ← List.append_assoc, List.dropLast_concat]
    rw [hrest] at hpile hassigning
    refine ⟨⟨init, by simp, hpile⟩, ?_⟩
    split at hassigning
    · next hlast =>
      rcases hplace with hsame | ⟨hnone, -⟩
      · -- The one that ends was begun since, so properties were not put under it before.
        have hlt := hbase.lt_length (hsame.symm.trans hlast)
        rw [List.length_append] at hlt
        omega
      · exact .inl (hassigning.trans hnone.symm)
    · rw [hassigning]
      exact hplace

/-- **What one statement of a balanced part does**, by the cases of the pile. -/
theorem within_step (hbase : WellFramed base) (hs : WellFramed s) (h : Within base s n)
    (hlevel : nextLevel n st = some m) : Within base (s.step options source st) m := by
  unfold nextLevel at hlevel
  cases pileCase options source hs st with
  | begins holds hbegins hpile hassigning =>
    rw [if_pos hbegins] at hlevel
    cases hlevel
    exact h.begins hpile hassigning
  | turns helse hpile hassigning =>
    rw [if_neg (by simp [begins_eq_false_of_else helse]), if_pos helse] at hlevel
    split at hlevel
    · cases hlevel
    · next hn =>
      cases hlevel
      exact h.turns hn hpile hassigning
  | ends hend hpile hassigning =>
    rw [if_neg (by simp [begins_eq_false_of_endIf hend]), if_neg (by simp [hend]),
      if_pos hend] at hlevel
    split at hlevel
    · cases hlevel
    · next hn =>
      cases hlevel
      exact h.ends hn hbase hpile hassigning
  | keeps hsteers hpile hassigning =>
    obtain ⟨hbegins, helse, hend⟩ := of_not_steers hsteers
    rw [if_neg (by simp [hbegins]), if_neg helse, if_neg hend] at hlevel
    cases hlevel
    refine ⟨?_, ?_⟩
    · rw [hpile]
      exact h.pile
    · rw [hassigning]
      exact h.assigning

/-- **What statements do inside conditionals**, by induction over them. -/
theorem within_run (hbase : WellFramed base) (hs : WellFramed s) (h : Within base s n)
    (hlevel : sts.foldlM nextLevel n = some m) : Within base (s.run options source sts) m := by
  induction sts generalizing s n with
  | nil =>
    cases hlevel
    exact h
  | cons st sts ih =>
    rw [List.foldlM_cons] at hlevel
    obtain ⟨next, hnext, hrest⟩ := Option.bind_eq_some_iff.mp hlevel
    rw [run_cons]
    exact ih (wellFramed_step hs st) (within_step hbase hs h hnext) hrest

/-! ## Runs -/

/-- **The discipline of conditionals.** After every makefile, the conditionals on the pile are those
that its statements leave standing, and properties are put under the outermost of them that can be
expressed and was begun while a module was open; if there is none, they are put under none. In every
state that a makefile can lead to, balanced statements leave the pile and the place as they were,
whatever modules they begin and build. -/
theorem conditionals_discipline (options : Options) (source : Text) :
    (∀ sts, (start.run options source sts).conditionals.map (Option.map Conditional.branches) =
        (begunBefore sts sts.length).map (branchesAt sts) ∧
      (start.run options source sts).assigning =
        (begunBefore sts sts.length).findIdx? (begunInside options source sts)) ∧
      ∀ s, Reachable options source s → ∀ sts, Balanced sts →
        (s.run options source sts).conditionals = s.conditionals ∧
          (s.run options source sts).assigning = s.assigning := by
  refine ⟨fun sts => ?_, fun s hs sts hbalanced => ?_⟩
  · have htold := toldBefore options source (Nat.le_refl sts.length)
    rw [← before_length]
    exact ⟨htold.pile, htold.assigning⟩
  · have hwell := hs.wellFramed
    have hwithin : Within s (s.run options source sts) 0 :=
      within_run hwell hwell (.refl s) hbalanced
    exact hwithin.same (wellFramed_run hwell sts)

/-- In a conditional of a module that is then built, another conditional with two branches and a
module that is begun in one of them. -/
def acrossModules : List Statement :=
  [building, branching, turning, beginning, branching, ending, ending]

/-- Behind these statements properties are put under the first conditional again, which was not
begun in the module that is open now. -/
theorem conditionals_discipline_acrossModules :
    Balanced acrossModules ∧
      (start.run {} [] ([beginning, branching] ++ acrossModules)).conditionals.length = 1 ∧
      (start.run {} [] ([beginning, branching] ++ acrossModules)).assigning = some 0 := by
  have hbalanced : Balanced acrossModules := by decide
  have hreachable : Reachable {} [] (start.run {} [] [beginning, branching]) := ⟨_, rfl⟩
  obtain ⟨hpile, hassigning⟩ := (conditionals_discipline {} []).2 _ hreachable _ hbalanced
  rw [run_append, hpile, hassigning]
  exact ⟨hbalanced, rfl, rfl⟩

end State

end MakeBlueprint.Conversion
