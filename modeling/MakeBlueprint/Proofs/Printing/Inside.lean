import MakeBlueprint.Proofs.Conversion.Ordered
import MakeBlueprint.Proofs.Printing.Pieces

/-!
# Which comments are printed inside a module

The printer takes the definitions in the order in which they were finished. A variable that is
assigned while a module is open is finished before that module, and all comments up to its line are
printed before it. So a comment whose line lies inside a module is printed inside it unless a
variable is assigned on its line or below it before the module ends.

* `takeWhile_eq_filter`, `dropWhile_eq_filter`: in comments that are in order, a definition takes
  those that stand above it, wherever they are.
* `arrange_append`: the comments that are left for later definitions.
* `File.InOrder.exists_items`: what the printer makes of a module in a file that is in order.
* `comments_inside_modules`: **the comments inside the modules of a file**.
-/

namespace MakeBlueprint.Blueprint

variable {α : Type} {f : File} {m : Module} {cs : List Comment}

/-! ## Comments in order -/

section

variable {p : α → Bool} {l : List α}

theorem takeWhile_eq_filter (h : l.Pairwise fun a b => p b = true → p a = true) :
    l.takeWhile p = l.filter p := by
  induction l with
  | nil => rfl
  | cons a l ih =>
    obtain ⟨hhead, htail⟩ := List.pairwise_cons.mp h
    by_cases ha : p a = true
    · rw [List.takeWhile_cons_of_pos ha, List.filter_cons_of_pos ha, ih htail]
    · rw [List.takeWhile_cons_of_neg ha, List.filter_cons_of_neg ha]
      exact (List.filter_eq_nil_iff.mpr fun b hb hp => ha (hhead b hb hp)).symm

theorem dropWhile_eq_filter (h : l.Pairwise fun a b => p b = true → p a = true) :
    l.dropWhile p = l.filter fun a => !p a := by
  induction l with
  | nil => rfl
  | cons a l ih =>
    obtain ⟨hhead, htail⟩ := List.pairwise_cons.mp h
    by_cases ha : p a = true
    · rw [List.dropWhile_cons_of_pos ha, List.filter_cons_of_neg (by simp [ha]), ih htail]
    · rw [List.dropWhile_cons_of_neg ha, List.filter_eq_self.mpr]
      intro b hb
      rcases List.mem_cons.mp hb with rfl | hb
      · simpa using ha
      · simpa using fun hp => ha (hhead b hb hp)

end

/-- Comments stand in the order of their lines. -/
def Sorted (cs : List Comment) : Prop := cs.Pairwise fun a b => a.line ≤ b.line

theorem Sorted.filter (h : Sorted cs) (p : Comment → Bool) : Sorted (cs.filter p) :=
  List.Pairwise.filter p h

/-- A bound on lines cuts comments that are in order in two. -/
theorem Sorted.cut (h : Sorted cs) {p : Comment → Bool}
    (hp : ∀ a b : Comment, a.line ≤ b.line → p b = true → p a = true) :
    cs.takeWhile p = cs.filter p ∧ cs.dropWhile p = cs.filter fun c => !p c := by
  have hdown : cs.Pairwise fun a b => p b = true → p a = true := h.imp fun hle => hp _ _ hle
  exact ⟨takeWhile_eq_filter hdown, dropWhile_eq_filter hdown⟩

theorem Sorted.cut_le (h : Sorted cs) (n : Nat) :
    cs.takeWhile (fun c => decide (c.line ≤ n)) = cs.filter (fun c => decide (c.line ≤ n)) ∧
      cs.dropWhile (fun c => decide (c.line ≤ n)) = cs.filter (fun c => decide (n < c.line)) := by
  obtain ⟨htake, hdrop⟩ := h.cut (p := fun c => decide (c.line ≤ n)) (by grind)
  exact ⟨htake, hdrop.trans (List.filter_congr (by grind))⟩

theorem Sorted.cut_lt (h : Sorted cs) (n : Nat) :
    cs.takeWhile (fun c => decide (c.line < n)) = cs.filter (fun c => decide (c.line < n)) ∧
      cs.dropWhile (fun c => decide (c.line < n)) = cs.filter (fun c => decide (n ≤ c.line)) := by
  obtain ⟨htake, hdrop⟩ := h.cut (p := fun c => decide (c.line < n)) (by grind)
  exact ⟨htake, hdrop.trans (List.filter_congr (by grind))⟩

/-! ## What a definition takes and leaves -/

/-- Whether a comment stands strictly between the lines of a module. -/
def Module.spans (m : Module) (c : Comment) : Bool :=
  decide (m.line < c.line) && decide (c.line < m.endLine)

/-- Whether a definition leaves a comment to the later ones. -/
def Definition.leaves : Definition → Comment → Bool
  | .assignment a, c => decide (a.line < c.line)
  | .module m, c => decide (m.line < c.line) && decide (m.endLine ≤ c.line)

variable {a : Assignment} {ds es : List Definition}

theorem arrange_assignment (h : Sorted cs) (a : Assignment) (ds : List Definition) :
    arrange (.assignment a :: ds) cs =
      (cs.filter fun c => decide (c.line ≤ a.line)).map .comment ++
        .assignment a :: arrange ds (cs.filter (Definition.assignment a).leaves) := by
  obtain ⟨htake, hdrop⟩ := h.cut_le a.line
  have harrange : arrange (.assignment a :: ds) cs =
      (cs.takeWhile fun c => decide (c.line ≤ a.line)).map .comment ++
        .assignment a :: arrange ds (cs.dropWhile fun c => decide (c.line ≤ a.line)) := rfl
  rw [harrange, htake, hdrop]
  rfl

/-- A module takes the comments that it spans. -/
theorem arrange_module (h : Sorted cs) (m : Module) (ds : List Definition) :
    arrange (.module m :: ds) cs =
      (cs.filter fun c => decide (c.line ≤ m.line)).map .comment ++
        .module m (cs.filter m.spans) :: arrange ds (cs.filter (Definition.module m).leaves) := by
  obtain ⟨htake, hdrop⟩ := h.cut_le m.line
  obtain ⟨hinside, hbelow⟩ := (h.filter fun c => decide (m.line < c.line)).cut_lt m.endLine
  have hspans : m.spans = fun c => decide (m.line < c.line) && decide (c.line < m.endLine) := rfl
  have hleaves : (Definition.module m).leaves =
      fun c => decide (m.line < c.line) && decide (m.endLine ≤ c.line) := rfl
  have harrange : arrange (.module m :: ds) cs =
      (cs.takeWhile fun c => decide (c.line ≤ m.line)).map .comment ++
        .module m ((cs.dropWhile fun c => decide (c.line ≤ m.line)).takeWhile
            fun c => decide (c.line < m.endLine)) ::
          arrange ds ((cs.dropWhile fun c => decide (c.line ≤ m.line)).dropWhile
            fun c => decide (c.line < m.endLine)) := rfl
  rw [harrange, htake, hdrop, hinside, hbelow, List.filter_filter, List.filter_filter, hspans,
    hleaves]
  simp only [Bool.and_comm]

/-- **Later definitions get the comments that all earlier ones leave.** -/
theorem arrange_append (h : Sorted cs) (ds es : List Definition) :
    ∃ above, arrange (ds ++ es) cs =
      above ++ arrange es (cs.filter fun c => ds.all fun d => d.leaves c) := by
  induction ds generalizing cs with
  | nil => exact ⟨[], by simp⟩
  | cons d ds ih =>
    obtain ⟨above, habove⟩ := ih (h.filter d.leaves)
    have hleft : ((cs.filter d.leaves).filter fun c => ds.all fun d => d.leaves c) =
        cs.filter fun c => (d :: ds).all fun d => d.leaves c := by
      rw [List.filter_filter]
      exact List.filter_congr fun c _ => Bool.and_comm _ _
    rw [List.cons_append, ← hleft]
    cases d with
    | assignment a =>
      rw [arrange_assignment h, habove]
      exact ⟨_, (List.append_assoc _ (.assignment a :: above) _).symm⟩
    | module m =>
      rw [arrange_module h, habove]
      exact ⟨_, (List.append_assoc _ (.module m _ :: above) _).symm⟩

/-! ## Modules of a file in order -/

theorem File.mem_assignments : a ∈ f.assignments ↔ .assignment a ∈ f.definitions := by
  unfold File.assignments
  rw [List.mem_filterMap]
  constructor
  · rintro ⟨d, hd, he⟩
    cases d with
    | module n => cases he
    | assignment b =>
      cases he
      exact hd
  · exact fun ha => ⟨_, ha, rfl⟩

/-- **Whether a comment is printed inside a module**: the module spans it, and no variable that is
assigned before the module ends takes it along. -/
def File.keepsInside (f : File) (m : Module) (c : Comment) : Bool :=
  m.spans c && f.assignments.all fun a => decide (a.line < m.endLine → a.line < c.line)

theorem File.InOrder.sortedComments_eq (hf : f.InOrder) : f.sortedComments = f.comments :=
  List.mergeSort_of_pairwise (hf.comments.imp fun h => decide_eq_true h)

/-- A module in front of another ends before it. -/
theorem File.InOrder.endLine_lt (hf : f.InOrder) (hds : f.definitions = ds ++ .module m :: es)
    {n : Module} (hn : .module n ∈ ds) : n.endLine < m.line := by
  have hmodules : f.modules = ({ f with definitions := ds } : File).modules ++
      m :: ({ f with definitions := es } : File).modules := by
    unfold File.modules
    rw [hds, List.filterMap_append, List.filterMap_cons]
  have hapart := hf.apart
  rw [hmodules, List.pairwise_append] at hapart
  exact hapart.2.2 n (File.mem_modules.mpr hn) m List.mem_cons_self

/-- **The definitions in front of a module** take a comment that the module spans only with a
variable that is assigned before the module ends. -/
theorem File.InOrder.all_leaves (hf : f.InOrder) (hds : f.definitions = ds ++ .module m :: es)
    {c : Comment} (hc : m.spans c = true) :
    (ds.all fun d => d.leaves c) =
      f.assignments.all fun a => decide (a.line < m.endLine → a.line < c.line) := by
  have hends := hf.definitions
  rw [hds, List.pairwise_append, List.pairwise_cons] at hends
  obtain ⟨-, ⟨hbehind, -⟩, hfront⟩ := hends
  obtain ⟨hline, -⟩ : m.line < c.line ∧ c.line < m.endLine := by simpa [Module.spans] using hc
  rw [Bool.eq_iff_iff, List.all_eq_true, List.all_eq_true]
  constructor
  · intro hleaves a ha
    refine decide_eq_true fun hend => ?_
    have ha := File.mem_assignments.mp ha
    rw [hds] at ha
    rcases List.mem_append.mp ha with ha | ha
    · exact of_decide_eq_true (hleaves _ ha)
    · rcases List.mem_cons.mp ha with he | ha
      · cases he
      · have hlate : m.endLine < a.line := hbehind _ ha
        omega
  · intro hassigned d hd
    cases d with
    | assignment a =>
      have hend : a.line < m.endLine := hfront _ hd _ List.mem_cons_self
      have ha : a ∈ f.assignments := File.mem_assignments.mpr (hds ▸ List.mem_append_left _ hd)
      exact decide_eq_true (of_decide_eq_true (hassigned a ha) hend)
    | module n =>
      have hend : n.endLine < m.line := hf.endLine_lt hds hd
      have hn : n ∈ f.modules := File.mem_modules.mpr (hds ▸ List.mem_append_left _ hd)
      have hextent : n.line < n.endLine := (hf.modules n hn).extent
      have hleft : n.line < c.line ∧ n.endLine ≤ c.line := by omega
      simpa [Definition.leaves] using hleft

/-- **What the printer makes of a module** in a file that is in order. -/
theorem File.InOrder.exists_items (hf : f.InOrder) (hm : m ∈ f.modules) :
    ∃ above below, f.items =
      above ++ .module m (f.comments.filter (f.keepsInside m)) :: below := by
  obtain ⟨ds, es, hds⟩ := List.append_of_mem (File.mem_modules.mp hm)
  have hsorted : Sorted f.comments := hf.comments
  obtain ⟨above, habove⟩ := arrange_append hsorted ds (.module m :: es)
  have hinside : (f.comments.filter fun c => ds.all fun d => d.leaves c).filter m.spans =
      f.comments.filter (f.keepsInside m) := by
    rw [List.filter_filter]
    refine List.filter_congr fun c _ => ?_
    unfold File.keepsInside
    cases hc : m.spans c with
    | false => rfl
    | true => rw [hf.all_leaves hds hc]
  unfold File.items
  rw [hf.sortedComments_eq, hds, habove, arrange_module (hsorted.filter _), hinside]
  exact ⟨_, _, (List.append_assoc _ _ _).symm⟩

/-! ## The text of a file -/

namespace Item

theorem exists_printAfter (first : Item) (above below : List Item) (item : Item) :
    ∃ before behind, printAfter first (above ++ item :: below) =
      before ++ item.print ++ behind := by
  induction above generalizing first with
  | nil => exact ⟨_, _, rfl⟩
  | cons next above ih =>
    obtain ⟨before, behind, hrest⟩ := ih next
    rw [List.cons_append, printAfter, hrest]
    refine ⟨(if first.isSeparated next then ['\n'] else []) ++ next.print ++ before, behind, ?_⟩
    simp only [List.append_assoc]

/-- The text of an item stands in the text of the items around it. -/
theorem exists_printAll (above below : List Item) (item : Item) :
    ∃ before behind, printAll (above ++ item :: below) = before ++ item.print ++ behind := by
  cases above with
  | nil => exact ⟨[], _, rfl⟩
  | cons first above =>
    obtain ⟨before, behind, hrest⟩ := exists_printAfter first above below item
    rw [List.cons_append, printAll, hrest]
    refine ⟨first.print ++ before, behind, ?_⟩
    simp only [List.append_assoc]

end Item

end MakeBlueprint.Blueprint

namespace MakeBlueprint.Conversion

open Makefile (Statement)

/-- **The comments inside the modules of a file.** Between the braces of a module stand comments that
the module spans. A comment is missing there if a variable is assigned before the module ends, on the
line of the comment or below it, and so all of them stand there unless this happens. -/
theorem comments_inside_modules (options : Options) (source : Text) (sts : List Statement) :
    let file := toBlueprint options source sts
    ∀ m ∈ file.modules, ∃ above inside below before behind,
      file.items = above ++ .module m inside :: below ∧
      file.print = before ++ m.print inside ++ behind ∧
      (inside = file.comments.filter fun c => m.spans c && file.assignments.all fun a =>
        decide (a.line < m.endLine → a.line < c.line)) ∧
      ((∀ c ∈ file.comments, m.spans c = true → c ∈ inside) ↔
        ∀ c ∈ file.comments, m.spans c = true → ∀ a ∈ file.assignments,
          ¬ (c.line ≤ a.line ∧ a.line < m.endLine)) := by
  intro file m hm
  have hf : file.InOrder := inOrder_toBlueprint options source sts
  obtain ⟨above, below, hitems⟩ := hf.exists_items hm
  obtain ⟨before, behind, hprint⟩ := Blueprint.Item.exists_printAll above below
    (.module m (file.comments.filter (file.keepsInside m)))
  rw [← hitems] at hprint
  refine ⟨above, _, below, before, behind, hitems, hprint, rfl, ?_⟩
  refine forall₂_congr fun c hc => forall_congr' fun hspans => ?_
  rw [List.mem_filter]
  simp only [Blueprint.File.keepsInside, hspans, Bool.true_and, List.all_eq_true, decide_eq_true_eq]
  constructor
  · rintro ⟨-, hassigned⟩ a ha ⟨hbelow, hend⟩
    have habove : a.line < c.line := hassigned a ha hend
    omega
  · intro hnone
    refine ⟨hc, fun a ha hend => ?_⟩
    by_contra hbelow
    exact hnone a ha ⟨by omega, hend⟩

/-- A comment on each side of a variable, inside a module. -/
def interrupted : List Statement :=
  [beginning, aside (.comment ['c']), aside (.assignment (setting ['X'] ['1'])),
    aside (.comment ['d']), building]

/-- The comment above the variable is printed in front of the module. -/
theorem comments_inside_interrupted :
    let file := toBlueprint {} [] interrupted
    ∃ m ∈ file.modules, ∃ above below,
      file.items = above ++ .module m [⟨["//d".toList], 4⟩] :: below ∧
      file.comments.filter m.spans = [⟨["//c".toList], 2⟩, ⟨["//d".toList], 4⟩] := by
  intro file
  have hfile : file =
      ⟨[.assignment ⟨['X'], .list [.string ['1']], .set, 3⟩, .module ⟨"cc_binary".toList, [], 1, 5⟩],
        [⟨["//c".toList], 2⟩, ⟨["//d".toList], 4⟩]⟩ := rfl
  have hm : (⟨"cc_binary".toList, [], 1, 5⟩ : Blueprint.Module) ∈ file.modules := by
    rw [hfile]
    exact List.mem_singleton.mpr rfl
  obtain ⟨above, inside, below, -, -, hitems, -, hinside, -⟩ :=
    comments_inside_modules {} [] interrupted _ hm
  have hd : inside = [⟨["//d".toList], 4⟩] := by
    rw [hinside, ← show file = toBlueprint {} [] interrupted from rfl, hfile]
    rfl
  rw [hd] at hitems
  refine ⟨_, hm, above, below, hitems, ?_⟩
  rw [hfile]
  rfl

end MakeBlueprint.Conversion
