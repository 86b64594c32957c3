import Mathlib.Data.List.TakeWhile
import MakeBlueprint.Makefile.Document

/-!
# How statements lie in a text

Statements are apart or inside each other, in the order of their starts (`Follows`). `Laid` says
so for what is found in a part of a text, comments kept apart; what is found in two parts, one
behind the other, is laid out again (`Laid.append`), and so is a statement around what was found
(`Laid.enclose`).

* `Covered`: a part of a text where statements leave out nothing but blanks and line breaks.
* `pairwise_interleave`: putting comments between statements keeps the order.
* `Text.IsBoundary`: the positions that cut no character. `Text.mem_of_between`: a character
  that starts between two boundaries is a character of the text between them.
-/

namespace MakeBlueprint.Text

/-- A position of a text that cuts no character. -/
def IsBoundary (source : Text) (n : Nat) : Prop :=
  ∃ before after, source = before ++ after ∧ byteSize before = n

/-- Of two beginnings of a text, the one with no more bytes is a beginning of the other. -/
theorem exists_append_of_byteSize_le {p q r s : Text} (h : p ++ q = r ++ s)
    (hle : byteSize p ≤ byteSize r) : ∃ x, r = p ++ x ∧ q = x ++ s := by
  rcases List.append_eq_append_iff.mp h with ⟨x, hr, hq⟩ | ⟨x, hp, hs⟩
  · exact ⟨x, hr, hq⟩
  · have hx : x = [] := by
      by_contra hne
      have := byteSize_pos hne
      rw [hp, byteSize_append] at hle
      omega
    subst hx
    exact ⟨[], by simpa using hp.symm, by simpa using hs.symm⟩

/-- Beginnings of a text with as many bytes are the same. -/
theorem append_inj_of_byteSize {p q r s : Text} (h : p ++ q = r ++ s)
    (hsize : byteSize p = byteSize r) : p = r ∧ q = s := by
  obtain ⟨x, rfl, rfl⟩ := exists_append_of_byteSize_le h (Nat.le_of_eq hsize)
  obtain rfl : x = [] := by
    by_contra hne
    have := byteSize_pos hne
    rw [byteSize_append] at hsize
    omega
  exact ⟨(List.append_nil p).symm, rfl⟩

theorem mem_of_between {p t q before after : Text} {c : Char}
    (h : p ++ (t ++ q) = before ++ c :: after) (hle : byteSize p ≤ byteSize before)
    (hlt : byteSize before < byteSize p + byteSize t) : c ∈ t := by
  obtain ⟨x, rfl, hx⟩ := exists_append_of_byteSize_le h hle
  rw [byteSize_append] at hlt
  obtain ⟨y, rfl, hy⟩ := exists_append_of_byteSize_le hx.symm (by omega)
  rw [byteSize_append] at hlt
  cases y with
  | nil =>
    rw [byteSize] at hlt
    omega
  | cons d y =>
    cases hy
    simp

/-- The boundary behind a character is the next one. -/
theorem le_of_isBoundary {before after : Text} {c : Char} {n : Nat}
    (h : IsBoundary (before ++ c :: after) n) (hlt : byteSize before < n) :
    byteSize before + c.utf8Size ≤ n := by
  obtain ⟨p, q, hpq, rfl⟩ := h
  obtain ⟨x, rfl, hx⟩ := exists_append_of_byteSize_le hpq (Nat.le_of_lt hlt)
  rw [byteSize_append] at hlt ⊢
  cases x with
  | nil =>
    rw [byteSize] at hlt
    omega
  | cons d x =>
    cases hx
    rw [byteSize]
    omega

theorem splitAtByte?_append (p q : Text) : splitAtByte? (byteSize p) (p ++ q) = some (p, q) := by
  induction p with
  | nil =>
    rw [byteSize, List.nil_append]
    cases q <;> rfl
  | cons c p ih =>
    obtain ⟨n, hn⟩ : ∃ n, byteSize (c :: p) = n + 1 :=
      Nat.exists_eq_add_one.mpr (byteSize_pos (List.cons_ne_nil c p))
    have hle : c.utf8Size ≤ n + 1 := hn ▸ Nat.le_add_right _ _
    have hrest : n + 1 - c.utf8Size = byteSize p := by
      rw [← hn, byteSize, Nat.add_sub_cancel_left]
    rw [hn, List.cons_append, splitAtByte?, if_pos hle, hrest, ih]
    rfl

/-- A part of a text is cut out by its ends. -/
theorem slice?_append (p t q : Text) :
    slice? ⟨byteSize p, byteSize (p ++ t)⟩ (p ++ t ++ q) = some t := by
  unfold slice?
  rw [List.append_assoc, splitAtByte?_append]
  simp [splitAtByte?_append]

/-- The text between two boundaries. -/
theorem exists_part {source : Text} {lo hi : Nat} (hlo : IsBoundary source lo)
    (hhi : IsBoundary source hi) (hlt : lo < hi) :
    ∃ before part after, source = before ++ part ++ after ∧ part ≠ [] ∧
      byteSize before = lo ∧ byteSize (before ++ part) = hi := by
  obtain ⟨p, q, rfl, rfl⟩ := hlo
  obtain ⟨r, s, hrs, rfl⟩ := hhi
  obtain ⟨part, rfl, rfl⟩ := exists_append_of_byteSize_le hrs (Nat.le_of_lt hlt)
  refine ⟨p, part, s, (List.append_assoc _ _ _).symm, ?_, rfl, rfl⟩
  rintro rfl
  rw [List.append_nil] at hlt
  exact absurd hlt (Nat.lt_irrefl _)

end MakeBlueprint.Text

namespace MakeBlueprint.Makefile

/-- Whether a statement is a comment. -/
def Content.isComment : Content → Bool
  | .comment _ => true
  | _ => false

/-- Whether a statement is a directive. -/
def Content.isDirective : Content → Bool
  | .directive _ => true
  | _ => false

/-- Whether a statement is a rule. -/
def Content.isRule : Content → Bool
  | .rule _ => true
  | _ => false

/-- **One statement may hold another**: only comments are inside statements that are none, and
only directives are inside rules. -/
def Content.MayHold (outer inner : Content) : Prop :=
  (inner.isComment = true ∧ outer.isComment = false) ∨
    (outer.isRule = true ∧ inner.isDirective = true)

/-- **One statement starts behind the start of another**, and it is either behind or inside it. -/
def Follows (a b : Content × Span) : Prop :=
  a.2.start < b.2.start ∧ (a.2.stop ≤ b.2.start ∨ (b.2.stop ≤ a.2.stop ∧ a.1.MayHold b.1))

variable {P : Nat → Prop} {lo mid hi start : Nat} {a b : Content × Span} {content : Content}
  {ss ss' cs cs' : List (Content × Span)}

theorem follows_of_le (ha : a.2.start < a.2.stop) (h : a.2.stop ≤ b.2.start) : Follows a b :=
  ⟨Nat.lt_of_lt_of_le ha h, Or.inl h⟩

/-- **What is found in a part of a text**: statements and, apart from them, comments. -/
structure Laid (P : Nat → Prop) (lo hi : Nat) (ss cs : List (Content × Span)) : Prop where
  statements : ss.Pairwise Follows
  comments : cs.Pairwise Follows
  beside : ∀ s ∈ ss, ∀ k ∈ cs, Follows s k ∨ Follows k s
  inside : ∀ s ∈ ss ++ cs, lo ≤ s.2.start ∧ s.2.start < s.2.stop ∧ s.2.stop ≤ hi
  bounds : ∀ s ∈ ss ++ cs, P s.2.start ∧ P s.2.stop
  kinds : ∀ k ∈ cs, k.1.isComment = true

theorem Laid.nil (P : Nat → Prop) (lo hi : Nat) : Laid P lo hi [] [] where
  statements := .nil
  comments := .nil
  beside := nofun
  inside := nofun
  bounds := nofun
  kinds := nofun

/-- What is found in two parts of a text, one behind the other. -/
theorem Laid.append (h : Laid P lo mid ss cs) (h' : Laid P mid hi ss' cs') (hlo : lo ≤ mid)
    (hhi : mid ≤ hi) : Laid P lo hi (ss ++ ss') (cs ++ cs') := by
  have hcross : ∀ a ∈ ss ++ cs, ∀ b ∈ ss' ++ cs', Follows a b := by
    intro a ha b hb
    have hina := h.inside a ha
    have hinb := h'.inside b hb
    exact follows_of_le hina.2.1 (by omega)
  have hmem : ∀ s ∈ (ss ++ ss') ++ (cs ++ cs'), s ∈ ss ++ cs ∨ s ∈ ss' ++ cs' := by
    intro s hs
    simp only [List.mem_append] at hs ⊢
    exact or_or_or_comm.mp hs
  refine ⟨?_, ?_, ?_, ?_, ?_, ?_⟩
  · refine List.pairwise_append.mpr ⟨h.statements, h'.statements, fun a ha b hb => ?_⟩
    exact hcross a (List.mem_append_left _ ha) b (List.mem_append_left _ hb)
  · refine List.pairwise_append.mpr ⟨h.comments, h'.comments, fun a ha b hb => ?_⟩
    exact hcross a (List.mem_append_right _ ha) b (List.mem_append_right _ hb)
  · intro s hs k hk
    rcases List.mem_append.mp hs with hs | hs <;> rcases List.mem_append.mp hk with hk | hk
    · exact h.beside s hs k hk
    · exact Or.inl (hcross s (List.mem_append_left _ hs) k (List.mem_append_right _ hk))
    · exact Or.inr (hcross k (List.mem_append_right _ hk) s (List.mem_append_left _ hs))
    · exact h'.beside s hs k hk
  · intro s hs
    rcases hmem s hs with hs | hs
    · have := h.inside s hs
      omega
    · have := h'.inside s hs
      omega
  · intro s hs
    exact (hmem s hs).elim (h.bounds s) (h'.bounds s)
  · intro k hk
    exact (List.mem_append.mp hk).elim (h.kinds k) (h'.kinds k)

/-- A statement around what was found. -/
theorem Laid.enclose (h : Laid P lo hi ss cs) (hinside : ∀ s ∈ ss ++ cs, start < s.2.start)
    (hlo : lo ≤ start) (hlt : start < hi) (hstart : P start) (hstop : P hi)
    (hcontent : content.isComment = false) (hhold : ∀ s ∈ ss, content.MayHold s.1) :
    Laid P lo hi ((content, ⟨start, hi⟩) :: ss) cs := by
  have hfollows : ∀ s ∈ ss ++ cs, content.MayHold s.1 → Follows (content, ⟨start, hi⟩) s :=
    fun s hs hmay => ⟨hinside s hs, Or.inr ⟨(h.inside s hs).2.2, hmay⟩⟩
  refine ⟨?_, h.comments, ?_, ?_, ?_, h.kinds⟩
  · refine List.pairwise_cons.mpr ⟨fun s hs => ?_, h.statements⟩
    exact hfollows s (List.mem_append_left _ hs) (hhold s hs)
  · intro s hs k hk
    rcases List.mem_cons.mp hs with rfl | hs
    · exact Or.inl (hfollows k (List.mem_append_right _ hk) (Or.inl ⟨h.kinds k hk, hcontent⟩))
    · exact h.beside s hs k hk
  · intro s hs
    rcases List.mem_cons.mp hs with rfl | hs
    · exact ⟨hlo, hlt, Nat.le_refl _⟩
    · exact h.inside s hs
  · intro s hs
    rcases List.mem_cons.mp hs with rfl | hs
    · exact ⟨hstart, hstop⟩
    · exact h.bounds s hs

/-! ## Comments between statements -/

/-- What a class of elements ends at stays behind. -/
theorem takeWhile_append_of_head? {α : Type} {p : α → Bool} {l l' : List α}
    (h : ∀ x ∈ l'.head?, p x = false) : (l ++ l').takeWhile p = l.takeWhile p := by
  have hnil : l'.takeWhile p = [] := by
    cases l' with
    | nil => rfl
    | cons x l' => exact List.takeWhile_cons_of_neg (by simp [h x rfl])
  rw [List.takeWhile_append, hnil, List.append_nil]
  split
  · next hlength => exact ((List.takeWhile_prefix p).eq_of_length hlength).symm
  · rfl

theorem dropWhile_append_of_head? {α : Type} {p : α → Bool} {l l' : List α}
    (h : ∀ x ∈ l'.head?, p x = false) : (l ++ l').dropWhile p = l.dropWhile p ++ l' := by
  refine List.append_cancel_left (?_ : l.takeWhile p ++ _ = l.takeWhile p ++ _)
  rw [← List.append_assoc, List.takeWhile_append_dropWhile, ← takeWhile_append_of_head? h,
    List.takeWhile_append_dropWhile]

theorem mem_interleave {x : Content × Span} : x ∈ interleave ss cs ↔ x ∈ ss ∨ x ∈ cs := by
  induction ss generalizing cs with
  | nil => simp [interleave]
  | cons s ss ih =>
    rw [interleave]
    simp only [List.mem_append, List.mem_cons, ih]
    constructor
    · rintro (hx | hx | hx | hx)
      · exact Or.inr ((List.takeWhile_sublist _).subset hx)
      · exact Or.inl (Or.inl hx)
      · exact Or.inl (Or.inr hx)
      · exact Or.inr ((List.dropWhile_sublist _).subset hx)
    · rintro ((hx | hx) | hx)
      · exact Or.inr (Or.inl hx)
      · exact Or.inr (Or.inr (Or.inl hx))
      · rw [← List.takeWhile_append_dropWhile (p := fun c => decide (c.2.start < s.2.start))
          (l := cs)] at hx
        rcases List.mem_append.mp hx with hx | hx
        · exact Or.inl hx
        · exact Or.inr (Or.inr (Or.inr hx))

/-- In a list in the order of starts, what is behind the first that does not start before a
position does not start before it either. -/
theorem le_start_of_mem_dropWhile (hcs : cs.Pairwise Follows) {k : Content × Span}
    (hk : k ∈ cs.dropWhile fun c => decide (c.2.start < start)) : start ≤ k.2.start := by
  induction cs with
  | nil => cases hk
  | cons first cs ih =>
    obtain ⟨hfirst, hcs⟩ := List.pairwise_cons.mp hcs
    rw [List.dropWhile_cons] at hk
    split at hk
    · exact ih hcs hk
    · next hnot =>
      have hle : start ≤ first.2.start := by simpa using hnot
      rcases List.mem_cons.mp hk with rfl | hk
      · exact hle
      · exact Nat.le_trans hle (Nat.le_of_lt (hfirst k hk).1)

/-- **Comments between statements keep the order.** -/
theorem pairwise_interleave (hss : ss.Pairwise Follows) (hcs : cs.Pairwise Follows)
    (hbeside : ∀ s ∈ ss, ∀ k ∈ cs, Follows s k ∨ Follows k s) :
    (interleave ss cs).Pairwise Follows := by
  induction ss generalizing cs with
  | nil => exact hcs
  | cons s ss ih =>
    obtain ⟨hs, hss⟩ := List.pairwise_cons.mp hss
    have hcut := List.takeWhile_append_dropWhile (p := fun c => decide (c.2.start < s.2.start))
      (l := cs)
    have hpairs := hcut ▸ hcs
    obtain ⟨hbefore, hbehind, hcross⟩ := List.pairwise_append.mp hpairs
    have hsub : ∀ k ∈ cs.dropWhile fun c => decide (c.2.start < s.2.start), k ∈ cs :=
      fun k hk => (List.dropWhile_sublist _).subset hk
    have hstarts : ∀ k ∈ cs.takeWhile fun c => decide (c.2.start < s.2.start),
        k ∈ cs ∧ k.2.start < s.2.start := fun k hk =>
      ⟨(List.takeWhile_sublist _).subset hk, by simpa using List.mem_takeWhile_imp hk⟩
    rw [interleave]
    refine List.pairwise_append.mpr ⟨hbefore, List.pairwise_cons.mpr ⟨?_, ?_⟩, ?_⟩
    · intro x hx
      rcases mem_interleave.mp hx with hx | hx
      · exact hs x hx
      · have hle := le_start_of_mem_dropWhile hcs hx
        rcases hbeside s List.mem_cons_self x (hsub x hx) with h | h
        · exact h
        · exact absurd h.1 (Nat.not_lt.mpr hle)
    · exact ih hss hbehind fun s' hs' k hk =>
        hbeside s' (List.mem_cons_of_mem s hs') k (hsub k hk)
    · intro k hk x hx
      obtain ⟨hmem, hlt⟩ := hstarts k hk
      have hfollows : ∀ s' ∈ s :: ss, k.2.start < s'.2.start → Follows k s' := by
        intro s' hs' hlt'
        rcases hbeside s' hs' k hmem with h | h
        · exact absurd h.1 (Nat.not_lt.mpr (Nat.le_of_lt hlt'))
        · exact h
      rcases List.mem_cons.mp hx with rfl | hx
      · exact hfollows x List.mem_cons_self hlt
      · rcases mem_interleave.mp hx with hx | hx
        · exact hfollows x (List.mem_cons_of_mem s hx) (Nat.lt_trans hlt (hs x hx).1)
        · exact hcross k hk x hx

/-! ## What statements leave out -/

variable {source : Text} {l l' : List (Content × Span)} {mid : Nat}

/-- **Nothing is left out** between two positions but blanks and line breaks. -/
def Covered (source : Text) (lo hi : Nat) (l : List (Content × Span)) : Prop :=
  ∀ before ch after, source = before ++ ch :: after → lo ≤ Text.byteSize before →
    Text.byteSize before < hi →
    (∃ s ∈ l, s.2.start ≤ Text.byteSize before ∧ Text.byteSize before < s.2.stop) ∨
      ch ∈ [' ', '\t', '\r', '\n']

theorem covered_self (source : Text) (n : Nat) (l : List (Content × Span)) : Covered source n n l :=
  fun _ _ _ _ hlo hhi => absurd hhi (Nat.not_lt.mpr hlo)

theorem covered_of_mem (h : (content, ⟨lo, hi⟩) ∈ l) : Covered source lo hi l :=
  fun _ _ _ _ hlo hhi => Or.inl ⟨_, h, hlo, hhi⟩

theorem Covered.append (h : Covered source lo mid l) (h' : Covered source mid hi l') :
    Covered source lo hi (l ++ l') := by
  intro before ch after hs hlo hhi
  rcases Nat.lt_or_ge (Text.byteSize before) mid with hmid | hmid
  · refine (h before ch after hs hlo hmid).imp_left ?_
    rintro ⟨s, hs, hin⟩
    exact ⟨s, List.mem_append_left _ hs, hin⟩
  · refine (h' before ch after hs hmid hhi).imp_left ?_
    rintro ⟨s, hs, hin⟩
    exact ⟨s, List.mem_append_right _ hs, hin⟩

theorem Covered.mono (h : Covered source lo hi l) (hsub : ∀ s ∈ l, s ∈ l') :
    Covered source lo hi l' := by
  intro before ch after hs hlo hhi
  refine (h before ch after hs hlo hhi).imp_left ?_
  rintro ⟨s, hs, hin⟩
  exact ⟨s, hsub s hs, hin⟩

end MakeBlueprint.Makefile
