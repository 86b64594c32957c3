import MakeBlueprint.Blueprint.Printer
import MakeBlueprint.Proofs.Names

/-!
# Printing is unambiguous

The text of a definition tells the definition, but for what is not written: lines, kinds, and how
sums are grouped. Names must be identifiers, since they are written bare, and sums must be sums.

* `Value.operands`, `Definition.outline`: what the text shows of a value and of a definition.
* `Value.WellNamed`, `Definition.WellNamed`: names that may stand bare.
* `word_inj`, `quote_inj`, `rows_inj`: words, strings and the lines of lists and maps are told from
  what follows.
* `Value.WellNamed.told`: **a value is told from what follows it**, by induction on the value.
* `print_unambiguous`: **definitions with one text have one outline**.
-/

namespace MakeBlueprint.Blueprint

/-! ## Outlines -/

/-- An operand of a sum, without lines and kinds. The items of a list and the values of a map are
sums again, each the sequence of its operands. -/
inductive Operand where
  | string (text : Text)
  | bool (b : Bool)
  | var (name : Text)
  | list (items : List (List Operand))
  | map (entries : List (Text × List Operand))

mutual

/-- The operands of a value from left to right; a value that is no sum is its only operand. -/
def Value.operands : Value → List Operand
  | .string text => [.string text]
  | .bool b => [.bool b]
  | .var name _ => [.var name]
  | .binary _ left right _ => left.operands ++ right.operands
  | .list items => [.list (Value.operandsAll items)]
  | .map properties => [.map (Property.entries properties)]

/-- The operands of each list item. -/
def Value.operandsAll : List Value → List (List Operand)
  | [] => []
  | item :: items => item.operands :: Value.operandsAll items

/-- A property without its line. -/
def Property.entry : Property → Text × List Operand
  | ⟨name, value, _⟩ => (name, value.operands)

/-- Properties without their lines. -/
def Property.entries : List Property → List (Text × List Operand)
  | [] => []
  | p :: ps => p.entry :: Property.entries ps

end

theorem Value.operandsAll_eq_map (items : List Value) :
    Value.operandsAll items = items.map Value.operands := by
  induction items with
  | nil => rfl
  | cons item items ih => rw [Value.operandsAll, ih, List.map_cons]

theorem Property.entries_eq_map (ps : List Property) :
    Property.entries ps = ps.map Property.entry := by
  induction ps with
  | nil => rfl
  | cons p ps ih => rw [Property.entries, ih, List.map_cons]

/-- A definition without lines, kinds and the grouping of sums. -/
inductive Outline where
  | assignment (name : Text) (assigner : Assigner) (value : List Operand)
  | module (moduleType : Text) (properties : List (Text × List Operand))

/-- The outline of a definition. -/
def Definition.outline : Definition → Outline
  | .assignment a => .assignment a.name a.assigner a.value.operands
  | .module m => .module m.moduleType (m.properties.map Property.entry)

/-! ## Names that stand bare -/

/-- The words for truth values. -/
def truthWords : List Text := ["true", "false"]

/-- **The names in a value are identifiers**, those of variables are no truth values, and
expressions are sums. -/
inductive Value.WellNamed : Value → Prop
  | string (text : Text) : Value.WellNamed (.string text)
  | bool (b : Bool) : Value.WellNamed (.bool b)
  | var (name : Text) (kind : Kind) (hname : isIdentifier name = true)
      (htruth : name ∉ truthWords) : Value.WellNamed (.var name kind)
  | sum (left right : Value) (kind : Kind) (hleft : Value.WellNamed left)
      (hright : Value.WellNamed right) : Value.WellNamed (.binary '+' left right kind)
  | list (items : List Value) (hitems : ∀ item ∈ items, Value.WellNamed item) :
      Value.WellNamed (.list items)
  | map (ps : List Property) (hnames : ∀ p ∈ ps, isIdentifier p.name = true)
      (hvalues : ∀ p ∈ ps, Value.WellNamed p.value) : Value.WellNamed (.map ps)

/-- A property whose names are identifiers. -/
structure Property.WellNamed (p : Property) : Prop where
  name : isIdentifier p.name = true
  value : p.value.WellNamed

/-- **A definition whose names are identifiers.** -/
inductive Definition.WellNamed : Definition → Prop
  | assignment (a : Assignment) (hname : isIdentifier a.name = true) (hvalue : a.value.WellNamed) :
      Definition.WellNamed (.assignment a)
  | module (m : Module) (htype : isIdentifier m.moduleType = true)
      (hproperties : ∀ p ∈ m.properties, p.WellNamed) : Definition.WellNamed (.module m)

/-! ## Words and strings -/

/-- The characters inside identifiers. -/
def continuesIdentifier (c : Char) : Bool := startsIdentifier c || c.isDigit

/-- The text does not go on with a character of an identifier. -/
def Stops (t : Text) : Prop := t.takeWhile continuesIdentifier = []

theorem stops_cons {c : Char} (t : Text) (h : continuesIdentifier c = false) : Stops (c :: t) :=
  List.takeWhile_cons_of_neg (by rw [h]; decide)

theorem all_of_isIdentifier {name : Text} (h : isIdentifier name = true) :
    ∀ c ∈ name, continuesIdentifier c = true := by
  cases name with
  | nil => cases h
  | cons c name =>
    obtain ⟨hc, hname⟩ := Bool.and_eq_true_iff.mp h
    intro d hd
    rcases List.mem_cons.mp hd with rfl | hd
    · exact Bool.or_eq_true_iff.mpr (.inl hc)
    · exact List.all_eq_true.mp hname d hd

theorem exists_of_isIdentifier {name : Text} (h : isIdentifier name = true) :
    ∃ c rest, name = c :: rest ∧ startsIdentifier c = true := by
  cases name with
  | nil => cases h
  | cons c name => exact ⟨c, name, rfl, (Bool.and_eq_true_iff.mp h).1⟩

/-- **Identifiers are told from what follows.** -/
theorem word_inj {a b s t : Text} (ha : isIdentifier a = true) (hb : isIdentifier b = true)
    (hs : Stops s) (ht : Stops t) (h : a ++ s = b ++ t) : a = b ∧ s = t := by
  have htake := congrArg (List.takeWhile continuesIdentifier) h
  rw [List.takeWhile_append_of_pos (all_of_isIdentifier ha),
    List.takeWhile_append_of_pos (all_of_isIdentifier hb), hs, ht, List.append_nil,
    List.append_nil] at htake
  subst htake
  exact ⟨rfl, List.append_cancel_left h⟩

/-- The spelling of a character between quotes. -/
def escape (c : Char) : Text :=
  if c = '"' then ['\\', '"'] else if c = '\\' then ['\\', '\\']
  else if c = '\n' then ['\\', 'n'] else [c]

theorem quote_append (t s : Text) : quote t ++ s = '"' :: (t.flatMap escape ++ '"' :: s) := by
  unfold quote
  rw [List.append_assoc, List.append_assoc]
  rfl

/-- A spelling is no quote. -/
theorem escape_ne_quote (c : Char) (s t : Text) : escape c ++ s ≠ '"' :: t := by
  unfold escape
  split_ifs with hquote <;> simp_all

/-- No spelling is the start of another. -/
theorem escape_inj {c d : Char} {s t : Text} (h : escape c ++ s = escape d ++ t) :
    c = d ∧ s = t := by
  unfold escape at h
  split_ifs at h <;> grind

/-- **Strings are told from what follows.** -/
theorem quote_inj {a b s t : Text} (h : quote a ++ s = quote b ++ t) : a = b ∧ s = t := by
  rw [quote_append, quote_append] at h
  replace h := (List.cons.inj h).2
  induction a generalizing b with
  | nil =>
    cases b with
    | nil => exact ⟨rfl, (List.cons.inj h).2⟩
    | cons d b =>
      rw [List.flatMap_cons, List.append_assoc] at h
      exact absurd h.symm (escape_ne_quote d _ _)
  | cons c a ih =>
    cases b with
    | nil =>
      rw [List.flatMap_cons, List.append_assoc] at h
      exact absurd h (escape_ne_quote c _ _)
    | cons d b =>
      rw [List.flatMap_cons, List.flatMap_cons, List.append_assoc, List.append_assoc] at h
      obtain ⟨rfl, hrest⟩ := escape_inj h
      obtain ⟨rfl, hst⟩ := ih hrest
      exact ⟨rfl, hst⟩

/-! ## Rows -/

/-- Texts on lines of their own, each with a comma. -/
def rows {α : Type} (depth : Nat) (f : α → Text) (as : List α) : Text :=
  as.flatMap fun a => indentation depth ++ f a ++ [',', '\n']

theorem printItems_eq_rows (depth : Nat) (items : List Value) :
    Value.printItems depth items = rows depth (Value.print depth) items := by
  induction items with
  | nil => rfl
  | cons item items ih =>
    rw [Value.printItems, ih]
    rfl

/-- The text of a property between its indentation and its comma. -/
def Property.printBare (depth : Nat) (p : Property) : Text :=
  p.name ++ [':', ' '] ++ p.value.print depth

theorem print_eq_printBare (depth : Nat) (p : Property) :
    p.print depth = indentation depth ++ p.printBare depth ++ [',', '\n'] := by
  obtain ⟨name, value, line⟩ := p
  rw [Property.print, Property.printBare, ← List.append_assoc, ← List.append_assoc]

theorem printAll_eq_rows (depth : Nat) (ps : List Property) :
    Property.printAll depth ps = rows depth (Property.printBare depth) ps := by
  induction ps with
  | nil => rfl
  | cons p ps ih =>
    rw [Property.printAll, ih, print_eq_printBare]
    rfl

theorem printWithComments_nil (ps : List Property) :
    printWithComments ps [] = rows 1 (Property.printBare 1) ps := by
  induction ps with
  | nil => rfl
  | cons p ps ih =>
    rw [printWithComments]
    dsimp only [List.takeWhile_nil, List.dropWhile_nil]
    rw [ih, print_eq_printBare]
    rfl

/-- A row is no closing bracket, which stands at a smaller depth. -/
theorem row_ne_closing {c : Char} (hc : c ≠ ' ') (depth : Nat) (s t : Text) :
    indentation (depth + 1) ++ s ≠ indentation depth ++ c :: t := by
  have hdeeper : indentation (depth + 1) = indentation depth ++ [' ', ' ', ' ', ' '] := by
    unfold indentation
    rw [Nat.mul_succ, List.replicate_add]
    rfl
  intro h
  rw [hdeeper, List.append_assoc] at h
  exact hc (List.cons.inj (List.append_cancel_left h)).1.symm

/-- **Rows are told from the closing bracket**, if every text is told from its comma. -/
theorem rows_inj {α β : Type} {f : α → Text} {meaning : α → β} {closing : Char} {depth : Nat}
    {as bs : List α} {s t : Text} (hclosing : closing ≠ ' ')
    (htold : ∀ a ∈ as, ∀ b ∈ bs, ∀ s t, f a ++ ',' :: s = f b ++ ',' :: t →
      meaning a = meaning b ∧ s = t)
    (h : rows (depth + 1) f as ++ (indentation depth ++ closing :: s) =
      rows (depth + 1) f bs ++ (indentation depth ++ closing :: t)) :
    as.map meaning = bs.map meaning ∧ s = t := by
  have hrow : ∀ a as s, rows (depth + 1) f (a :: as) ++ s =
      indentation (depth + 1) ++ (f a ++ ',' :: '\n' :: (rows (depth + 1) f as ++ s)) := by
    intro a as s
    simp [rows]
  induction as generalizing bs with
  | nil =>
    cases bs with
    | nil => exact ⟨rfl, (List.cons.inj (List.append_cancel_left h)).2⟩
    | cons b bs =>
      rw [hrow] at h
      exact absurd h.symm (row_ne_closing hclosing depth _ _)
  | cons a as ih =>
    cases bs with
    | nil =>
      rw [hrow] at h
      exact absurd h (row_ne_closing hclosing depth _ _)
    | cons b bs =>
      rw [hrow, hrow] at h
      obtain ⟨hmeaning, hrest⟩ := htold a List.mem_cons_self b List.mem_cons_self _ _
        (List.append_cancel_left h)
      obtain ⟨hmap, hst⟩ := ih
        (fun a ha b hb => htold a (List.mem_cons_of_mem _ ha) b (List.mem_cons_of_mem _ hb))
        (List.cons.inj hrest).2
      exact ⟨by rw [List.map_cons, List.map_cons, hmeaning, hmap], hst⟩

/-! ## Sums -/

namespace Value

/-- A value that is no sum. -/
def IsOperand : Value → Prop
  | .binary .. => False
  | _ => True

/-- The text of further operands. -/
def printMore (depth : Nat) (vs : List Value) : Text :=
  vs.flatMap fun v => [' ', '+', ' '] ++ v.print depth

theorem printMore_cons (depth : Nat) (v : Value) (vs : List Value) (t : Text) :
    printMore depth (v :: vs) ++ t =
      ' ' :: '+' :: ' ' :: (v.print depth ++ (printMore depth vs ++ t)) := by
  simp [printMore]

/-- **A value is written as its operands**, however its sums are grouped. -/
theorem WellNamed.exists_operands {v : Value} (h : v.WellNamed) :
    ∃ w ws, (∀ x ∈ w :: ws, x.IsOperand ∧ x.WellNamed) ∧
      (∀ depth, v.print depth = w.print depth ++ printMore depth ws) ∧
      v.operands = (w :: ws).flatMap operands := by
  have halone : ∀ v : Value, v.IsOperand → v.WellNamed →
      ∃ w ws, (∀ x ∈ w :: ws, x.IsOperand ∧ x.WellNamed) ∧
        (∀ depth, v.print depth = w.print depth ++ printMore depth ws) ∧
        v.operands = (w :: ws).flatMap operands := fun v hoperand hv =>
    ⟨v, [], fun x hx => List.mem_singleton.mp hx ▸ ⟨hoperand, hv⟩,
      fun depth => (List.append_nil _).symm, (List.append_nil _).symm⟩
  induction h with
  | string text => exact halone _ trivial (.string text)
  | bool b => exact halone _ trivial (.bool b)
  | var name kind hname htruth => exact halone _ trivial (.var name kind hname htruth)
  | list items hitems ih => exact halone _ trivial (.list items hitems)
  | map ps hnames hvalues ih => exact halone _ trivial (.map ps hnames hvalues)
  | sum left right kind hleft hright ihl ihr =>
    obtain ⟨w, ws, hws, hprintl, hoperandsl⟩ := ihl
    obtain ⟨x, xs, hxs, hprintr, hoperandsr⟩ := ihr
    refine ⟨w, ws ++ x :: xs, ?_, fun depth => ?_, ?_⟩
    · rw [← List.cons_append]
      exact fun y hy => (List.mem_append.mp hy).elim (hws y) (hxs y)
    · rw [Value.print, hprintl, hprintr]
      simp [printMore]
    · rw [operands, hoperandsl, hoperandsr, ← List.cons_append, List.flatMap_append]

/-- The characters that a value may open with. -/
def Opens : Value → Char → Prop
  | .string _, c => c = '"'
  | .bool _, c | .var .., c => startsIdentifier c = true
  | .list _, c => c = '['
  | .map _, c => c = '{'
  | .binary .., _ => False

/-! ### Layouts of lists and maps -/

theorem print_list_rows (depth : Nat) (first second : Value) (items : List Value) (s : Text) :
    (list (first :: second :: items)).print depth ++ s =
      '[' :: '\n' :: (rows (depth + 1) (Value.print (depth + 1)) (first :: second :: items) ++
        (indentation depth ++ ']' :: s)) := by
  rw [← printItems_eq_rows]
  simp [Value.print]

theorem print_map_rows (depth : Nat) (p : Property) (ps : List Property) (s : Text) :
    (map (p :: ps)).print depth ++ s =
      '{' :: '\n' :: (rows (depth + 1) (Property.printBare (depth + 1)) (p :: ps) ++
        (indentation depth ++ '}' :: s)) := by
  rw [← printAll_eq_rows]
  simp [Value.print]

theorem IsOperand.exists_opens {v : Value} (hv : v.WellNamed) (h : v.IsOperand) (depth : Nat)
    (s : Text) : ∃ c rest, v.print depth ++ s = c :: rest ∧ v.Opens c := by
  cases hv with
  | string text => exact ⟨_, _, quote_append text s, rfl⟩
  | bool b => cases b <;> exact ⟨_, _, rfl, rfl⟩
  | var name kind hname =>
    obtain ⟨c, rest, rfl, hc⟩ := exists_of_isIdentifier hname
    exact ⟨c, rest ++ s, by rw [Value.print, List.cons_append], hc⟩
  | sum left right kind => exact h.elim
  | list items =>
    rcases items with _ | ⟨item, _ | ⟨next, items⟩⟩
    · exact ⟨_, _, rfl, rfl⟩
    · exact ⟨_, _, print_list_singleton depth item s, rfl⟩
    · exact ⟨_, _, print_list_rows depth item next items s, rfl⟩
  | map ps =>
    rcases ps with _ | ⟨p, ps⟩
    · exact ⟨_, _, rfl, rfl⟩
    · exact ⟨_, _, print_map_rows depth p ps s, rfl⟩

/-- No value opens with a closing bracket or a line feed. -/
theorem WellNamed.print_ne {v : Value} (h : v.WellNamed) {c : Char} (hc : c = ']' ∨ c = '\n')
    (depth : Nat) (s t : Text) : v.print depth ++ s ≠ c :: t := by
  obtain ⟨w, ws, hws, hprint, -⟩ := h.exists_operands
  obtain ⟨hoperand, hw⟩ := hws w List.mem_cons_self
  obtain ⟨d, rest, hopen, hd⟩ := hoperand.exists_opens hw depth (printMore depth ws ++ s)
  rw [hprint, List.append_assoc, hopen]
  intro heq
  obtain ⟨rfl, -⟩ := List.cons.inj heq
  rcases hc with rfl | rfl <;> cases w <;> simp [Opens, startsIdentifier] at hd

/-! ### What a value is told from -/

/-- The text goes on as it may behind a value: with a comma, a closing bracket or a line feed. -/
def Ends (t : Text) : Prop := ∃ c rest, t = c :: rest ∧ (c = ',' ∨ c = ']' ∨ c = '\n')

theorem Ends.stops {t : Text} (h : Ends t) : Stops t := by
  obtain ⟨c, rest, rfl, rfl | rfl | rfl⟩ := h <;> exact stops_cons _ rfl

theorem Ends.ne_blank {t s : Text} (h : Ends t) : t ≠ ' ' :: s := by
  obtain ⟨c, rest, rfl, rfl | rfl | rfl⟩ := h <;> exact fun h => by cases h

theorem Ends.stops_printMore {t : Text} (h : Ends t) (depth : Nat) (vs : List Value) :
    Stops (printMore depth vs ++ t) := by
  cases vs with
  | nil => exact h.stops
  | cons v vs =>
    rw [printMore_cons]
    exact stops_cons _ rfl

/-- **The operand `v` is told from what follows it**: no other operand has its text. -/
def OperandTold (v : Value) : Prop :=
  ∀ (w : Value) (depth : Nat) (s t : Text), w.IsOperand → w.WellNamed → Stops s → Stops t →
    v.print depth ++ s = w.print depth ++ t → v.operands = w.operands ∧ s = t

/-- **The value `v` is told from what follows it.** In front of the operands `w`, `ws`, some of
them are those of `v`, and the others are what follows. -/
def Told (v : Value) : Prop :=
  ∀ (w : Value) (ws : List Value) (depth : Nat) (s t : Text), (∀ x ∈ w :: ws, x.IsOperand ∧ x.WellNamed) → Stops s → Ends t →
    v.print depth ++ s = w.print depth ++ (printMore depth ws ++ t) →
      ∃ xs ys, ws = xs ++ ys ∧ v.operands = (w :: xs).flatMap operands ∧
        s = printMore depth ys ++ t

theorem OperandTold.told {v : Value} (h : v.OperandTold) : v.Told := by
  intro w ws depth s t hws hs ht htext
  obtain ⟨hoperand, hw⟩ := hws w List.mem_cons_self
  obtain ⟨hoperands, hrest⟩ := h w depth s _ hoperand hw hs (ht.stops_printMore depth ws) htext
  exact ⟨[], ws, rfl, hoperands.trans (List.append_nil _).symm, hrest⟩

/-- Between two whole values, nothing is left over. -/
theorem Told.eq {v w : Value} (h : v.Told) (hw : w.WellNamed) {depth : Nat} {s t : Text}
    (hs : Ends s) (ht : Ends t) (htext : v.print depth ++ s = w.print depth ++ t) :
    v.operands = w.operands ∧ s = t := by
  obtain ⟨x, xs, hxs, hprint, hoperands⟩ := hw.exists_operands
  rw [hprint, List.append_assoc] at htext
  obtain ⟨ys, zs, rfl, hv, hrest⟩ := h x xs depth s t hxs hs.stops ht htext
  cases zs with
  | nil =>
    rw [List.append_nil] at hoperands
    exact ⟨hv.trans hoperands.symm, hrest⟩
  | cons z zs =>
    rw [printMore_cons] at hrest
    exact absurd hrest hs.ne_blank

/-- A value is told from the comma behind it. -/
theorem Told.eq_comma {v w : Value} (h : v.Told) (hw : w.WellNamed) (depth : Nat) (s t : Text)
    (htext : v.print depth ++ ',' :: s = w.print depth ++ ',' :: t) :
    v.operands = w.operands ∧ s = t := by
  obtain ⟨hoperands, hrest⟩ :=
    h.eq hw ⟨_, _, rfl, .inl rfl⟩ ⟨_, _, rfl, .inl rfl⟩ htext
  exact ⟨hoperands, (List.cons.inj hrest).2⟩

/-- A property is told from the comma behind it. -/
theorem Told.property_eq {p q : Property} (h : p.value.Told) (hp : isIdentifier p.name = true)
    (hq : isIdentifier q.name = true) (hw : q.value.WellNamed) (depth : Nat) (s t : Text)
    (htext : p.printBare depth ++ ',' :: s = q.printBare depth ++ ',' :: t) :
    p.entry = q.entry ∧ s = t := by
  obtain ⟨name, value, line⟩ := p
  obtain ⟨name', value', line'⟩ := q
  rw [Property.printBare, Property.printBare, List.append_assoc, List.append_assoc,
    List.append_assoc, List.append_assoc] at htext
  obtain ⟨hname, hrest⟩ := word_inj hp hq (stops_cons _ rfl) (stops_cons _ rfl) htext
  obtain ⟨hvalue, hst⟩ := h.eq_comma hw depth s t
    (List.cons.inj (List.cons.inj hrest).2).2
  exact ⟨congrArg₂ Prod.mk hname hvalue, hst⟩

theorem told_sum {left right : Value} {kind : Kind} (hleft : left.Told) (hright : right.Told) :
    (binary '+' left right kind).Told := by
  intro w ws depth s t hws hs ht htext
  have hsum : (binary '+' left right kind).print depth ++ s =
      left.print depth ++ (' ' :: '+' :: ' ' :: (right.print depth ++ s)) := by
    simp [Value.print]
  rw [hsum] at htext
  obtain ⟨xs, ys, rfl, hoperandsl, hrest⟩ :=
    hleft w ws depth _ t hws (stops_cons _ rfl) ht htext
  cases ys with
  | nil => exact absurd hrest.symm ht.ne_blank
  | cons y ys =>
    rw [printMore_cons] at hrest
    obtain ⟨us, vs, rfl, hoperandsr, hs'⟩ := hright y ys depth s t
      (fun x hx => hws x (List.mem_cons_of_mem w (List.mem_append_right xs hx))) hs ht
      (List.cons.inj (List.cons.inj (List.cons.inj hrest).2).2).2
    refine ⟨xs ++ y :: us, vs, by rw [List.append_assoc, List.cons_append], ?_, hs'⟩
    rw [operands, hoperandsl, hoperandsr, ← List.cons_append, List.flatMap_append]

/-! ### Operands -/

/-- Operands with one text open with one character. -/
theorem exists_opens_of_eq {v w : Value} {depth : Nat} {s t : Text} (hv : v.WellNamed)
    (hw : w.WellNamed) (hoperand : v.IsOperand) (hoperand' : w.IsOperand)
    (h : v.print depth ++ s = w.print depth ++ t) : ∃ c, v.Opens c ∧ w.Opens c := by
  obtain ⟨c, rest, hc, hopens⟩ := hoperand.exists_opens hv depth s
  obtain ⟨d, rest', hd, hopens'⟩ := hoperand'.exists_opens hw depth t
  rw [h, hd] at hc
  obtain ⟨rfl, -⟩ := List.cons.inj hc
  exact ⟨d, hopens, hopens'⟩

theorem operandTold_string (text : Text) : (string text).OperandTold := by
  intro w depth s t hoperand hw hs ht htext
  obtain ⟨c, rfl, hc⟩ := exists_opens_of_eq (.string text) hw trivial hoperand htext
  cases hw with
  | string other =>
    obtain ⟨rfl, hrest⟩ := quote_inj htext
    exact ⟨rfl, hrest⟩
  | bool b => cases hc
  | var name kind => cases hc
  | sum left right kind => exact hoperand.elim
  | list items => cases hc
  | map ps => cases hc

/-- The word of a truth value. -/
def truthWord (b : Bool) : Text := if b then "true" else "false"

theorem print_bool (b : Bool) (depth : Nat) : (bool b).print depth = truthWord b := by
  cases b <;> rfl

theorem isIdentifier_truthWord (b : Bool) : isIdentifier (truthWord b) = true := by
  cases b <;> decide

theorem truthWord_mem (b : Bool) : truthWord b ∈ truthWords := by
  cases b <;> decide

theorem operandTold_bool (b : Bool) : (bool b).OperandTold := by
  intro w depth s t hoperand hw hs ht htext
  obtain ⟨c, hb, hc⟩ := exists_opens_of_eq (.bool b) hw trivial hoperand htext
  rw [print_bool] at htext
  cases hw with
  | string text =>
    cases hc
    cases hb
  | bool b' =>
    rw [print_bool] at htext
    obtain ⟨hword, hrest⟩ :=
      word_inj (isIdentifier_truthWord b) (isIdentifier_truthWord b') hs ht htext
    refine ⟨?_, hrest⟩
    cases b <;> cases b' <;> first | rfl | cases hword
  | var name kind hname htruth =>
    rw [Value.print] at htext
    obtain ⟨rfl, -⟩ := word_inj (isIdentifier_truthWord b) hname hs ht htext
    exact absurd (truthWord_mem b) htruth
  | sum left right kind => exact hoperand.elim
  | list items =>
    cases hc
    cases hb
  | map ps =>
    cases hc
    cases hb

theorem operandTold_var {name : Text} (kind : Kind) (hname : isIdentifier name = true)
    (htruth : name ∉ truthWords) : (var name kind).OperandTold := by
  intro w depth s t hoperand hw hs ht htext
  obtain ⟨c, hv, hc⟩ := exists_opens_of_eq (.var name kind hname htruth) hw trivial hoperand htext
  rw [Value.print] at htext
  cases hw with
  | string text =>
    cases hc
    cases hv
  | bool b =>
    rw [print_bool] at htext
    obtain ⟨rfl, -⟩ := word_inj hname (isIdentifier_truthWord b) hs ht htext
    exact absurd (truthWord_mem b) htruth
  | var other kind' hother =>
    rw [Value.print] at htext
    obtain ⟨rfl, hrest⟩ := word_inj hname hother hs ht htext
    exact ⟨rfl, hrest⟩
  | sum left right kind => exact hoperand.elim
  | list items =>
    cases hc
    cases hv
  | map ps =>
    cases hc
    cases hv

/-- The layouts of lists are told apart by what stands behind the bracket: the other bracket, a line
feed or an item. -/
theorem operandTold_list {items : List Value} (hitems : ∀ item ∈ items, item.WellNamed)
    (htold : ∀ item ∈ items, item.Told) : (list items).OperandTold := by
  intro w depth s t hoperand hw hs ht htext
  obtain ⟨c, rfl, hc⟩ := exists_opens_of_eq (.list items hitems) hw trivial hoperand htext
  cases hw with
  | string text => cases hc
  | bool b => cases hc
  | var name kind => cases hc
  | sum left right kind => exact hoperand.elim
  | map ps => cases hc
  | list others hothers =>
    rw [operands, operands, operandsAll_eq_map, operandsAll_eq_map]
    rcases items with _ | ⟨a, _ | ⟨a', items⟩⟩ <;> rcases others with _ | ⟨b, _ | ⟨b', others⟩⟩
    · exact ⟨rfl, (List.cons.inj (List.cons.inj htext).2).2⟩
    · rw [print_list_singleton] at htext
      exact absurd (List.cons.inj htext).2.symm
        ((hothers b List.mem_cons_self).print_ne (.inl rfl) depth _ _)
    · rw [print_list_rows] at htext
      cases (List.cons.inj (List.cons.inj htext).2).1
    · rw [print_list_singleton] at htext
      exact absurd (List.cons.inj htext).2
        ((hitems a List.mem_cons_self).print_ne (.inl rfl) depth _ _)
    · rw [print_list_singleton, print_list_singleton] at htext
      obtain ⟨hoperands, hrest⟩ := (htold a List.mem_cons_self).eq (hothers b List.mem_cons_self)
        ⟨_, _, rfl, .inr (.inl rfl)⟩ ⟨_, _, rfl, .inr (.inl rfl)⟩ (List.cons.inj htext).2
      exact ⟨by rw [List.map_singleton, List.map_singleton, hoperands], (List.cons.inj hrest).2⟩
    · rw [print_list_singleton, print_list_rows] at htext
      exact absurd (List.cons.inj htext).2
        ((hitems a List.mem_cons_self).print_ne (.inr rfl) depth _ _)
    · rw [print_list_rows] at htext
      cases (List.cons.inj (List.cons.inj htext).2).1
    · rw [print_list_singleton, print_list_rows] at htext
      exact absurd (List.cons.inj htext).2.symm
        ((hothers b List.mem_cons_self).print_ne (.inr rfl) depth _ _)
    · rw [print_list_rows, print_list_rows] at htext
      obtain ⟨hmap, hrest⟩ := rows_inj (by decide)
        (fun a ha b hb => (htold a ha).eq_comma (hothers b hb) (depth + 1))
        (List.cons.inj (List.cons.inj htext).2).2
      exact ⟨congrArg (fun items => [Operand.list items]) hmap, hrest⟩

theorem operandTold_map {ps : List Property} (hnames : ∀ p ∈ ps, isIdentifier p.name = true)
    (hvalues : ∀ p ∈ ps, p.value.WellNamed) (htold : ∀ p ∈ ps, p.value.Told) :
    (map ps).OperandTold := by
  intro w depth s t hoperand hw hs ht htext
  obtain ⟨c, rfl, hc⟩ := exists_opens_of_eq (.map ps hnames hvalues) hw trivial hoperand htext
  cases hw with
  | string text => cases hc
  | bool b => cases hc
  | var name kind => cases hc
  | sum left right kind => exact hoperand.elim
  | list items => cases hc
  | map qs hnames' hvalues' =>
    rw [operands, operands, Property.entries_eq_map, Property.entries_eq_map]
    rcases ps with _ | ⟨p, ps⟩ <;> rcases qs with _ | ⟨q, qs⟩
    · exact ⟨rfl, (List.cons.inj (List.cons.inj htext).2).2⟩
    · rw [print_map_rows] at htext
      cases (List.cons.inj (List.cons.inj htext).2).1
    · rw [print_map_rows] at htext
      cases (List.cons.inj (List.cons.inj htext).2).1
    · rw [print_map_rows, print_map_rows] at htext
      obtain ⟨hmap, hrest⟩ := rows_inj (by decide)
        (fun p hp q hq =>
          (htold p hp).property_eq (hnames p hp) (hnames' q hq) (hvalues' q hq) (depth + 1))
        (List.cons.inj (List.cons.inj htext).2).2
      exact ⟨congrArg (fun entries => [Operand.map entries]) hmap, hrest⟩

/-- **A value is told from what follows it.** The induction is on the value. -/
theorem WellNamed.told {v : Value} (h : v.WellNamed) : v.Told := by
  induction h with
  | string text => exact (operandTold_string text).told
  | bool b => exact (operandTold_bool b).told
  | var name kind hname htruth => exact (operandTold_var kind hname htruth).told
  | sum left right kind hleft hright ihl ihr => exact told_sum ihl ihr
  | list items hitems ih => exact (operandTold_list hitems ih).told
  | map ps hnames hvalues ih => exact (operandTold_map hnames hvalues ih).told

end Value

/-! ## Definitions -/

/-- A file of one definition is the text of the definition. -/
theorem print_file_assignment (a : Assignment) :
    (File.mk [.assignment a] []).print = a.print := by
  unfold File.print File.sortedComments
  rw [List.mergeSort_nil]
  exact List.append_nil _

theorem print_file_module (m : Module) : (File.mk [.module m] []).print = m.print [] := by
  unfold File.print File.sortedComments
  rw [List.mergeSort_nil]
  exact List.append_nil _

theorem print_assignment (a : Assignment) :
    a.print = a.name ++ ' ' :: (a.assigner.text ++ ' ' :: (a.value.print 0 ++ ['\n'])) := by
  simp [Assignment.print]

theorem print_module (m : Module) :
    m.print [] = m.moduleType ++ ' ' :: '{' :: '\n' ::
      (rows 1 (Property.printBare 1) m.properties ++ (indentation 0 ++ '}' :: ['\n'])) := by
  rw [Module.print, printWithComments_nil]
  simp [indentation]

/-- Operators are told from what follows. -/
theorem assigner_inj {a b : Assigner} {s t : Text} (h : a.text ++ s = b.text ++ t) :
    a = b ∧ s = t := by
  cases a <;> cases b
  · exact ⟨rfl, List.append_cancel_left h⟩
  · cases (List.cons.inj h).1
  · cases (List.cons.inj h).1
  · exact ⟨rfl, List.append_cancel_left h⟩

/-- An assignment is no module. -/
theorem print_assignment_ne_module {a : Assignment} {m : Module}
    (ha : isIdentifier a.name = true) (hm : isIdentifier m.moduleType = true) :
    a.print ≠ m.print [] := by
  rw [print_assignment, print_module]
  intro h
  obtain ⟨-, hrest⟩ := word_inj ha hm (stops_cons _ rfl) (stops_cons _ rfl) h
  cases hassigner : a.assigner <;> rw [hassigner] at hrest <;>
    cases (List.cons.inj (List.cons.inj hrest).2).1

/-- **Printing is unambiguous.** When the files of two definitions have one text and their names
are identifiers, the definitions are equal but for lines, kinds and the grouping of sums. -/
theorem print_unambiguous {d e : Definition} (hd : d.WellNamed) (he : e.WellNamed)
    (h : (File.mk [d] []).print = (File.mk [e] []).print) : d.outline = e.outline := by
  cases hd with
  | assignment a hname hvalue =>
    cases he with
    | assignment b hname' hvalue' =>
      rw [print_file_assignment, print_file_assignment, print_assignment, print_assignment] at h
      obtain ⟨hnames, hrest⟩ := word_inj hname hname' (stops_cons _ rfl) (stops_cons _ rfl) h
      obtain ⟨hassigners, hrest⟩ := assigner_inj (List.cons.inj hrest).2
      obtain ⟨hvalues, -⟩ := hvalue.told.eq hvalue' ⟨_, _, rfl, .inr (.inr rfl)⟩
        ⟨_, _, rfl, .inr (.inr rfl)⟩ (List.cons.inj hrest).2
      rw [Definition.outline, Definition.outline, hnames, hassigners, hvalues]
    | module m htype hproperties =>
      rw [print_file_assignment, print_file_module] at h
      exact absurd h (print_assignment_ne_module hname htype)
  | module m htype hproperties =>
    cases he with
    | assignment a hname hvalue =>
      rw [print_file_assignment, print_file_module] at h
      exact absurd h.symm (print_assignment_ne_module hname htype)
    | module n htype' hproperties' =>
      rw [print_file_module, print_file_module, print_module, print_module] at h
      obtain ⟨htypes, hrest⟩ := word_inj htype htype' (stops_cons _ rfl) (stops_cons _ rfl) h
      obtain ⟨hentries, -⟩ := rows_inj (by decide)
        (fun p hp q hq => (hproperties p hp).value.told.property_eq (hproperties p hp).name
          (hproperties' q hq).name (hproperties' q hq).value 1)
        (List.cons.inj (List.cons.inj (List.cons.inj hrest).2).2).2
      rw [Definition.outline, Definition.outline, htypes, hentries]

/-- The sum of two variables and a list, grouped from the left. -/
def groupedLeft : Definition :=
  .assignment ⟨"FLAGS", .binary '+' (.binary '+' (.var "BASE" .list) (.var "MORE" .list) .list)
    (.list [.string "a \"b\"", .string "c"]) .list, .append, 1⟩

/-- The same sum, grouped from the right, with other kinds and on another line. -/
def groupedRight : Definition :=
  .assignment ⟨"FLAGS", .binary '+' (.var "BASE" .string)
    (.binary '+' (.var "MORE" .string) (.list [.string "a \"b\"", .string "c"]) .string) .list,
    .append, 2⟩

theorem print_unambiguous_grouped :
    groupedLeft.WellNamed ∧ groupedRight.WellNamed ∧
      (File.mk [groupedLeft] []).print = (File.mk [groupedRight] []).print ∧
      groupedLeft.outline = groupedRight.outline := by
  have hbase : Value.WellNamed (.var "BASE" .list) := .var _ _ (by decide) (by decide)
  have hbase' : Value.WellNamed (.var "BASE" .string) := .var _ _ (by decide) (by decide)
  have hmore : Value.WellNamed (.var "MORE" .list) := .var _ _ (by decide) (by decide)
  have hmore' : Value.WellNamed (.var "MORE" .string) := .var _ _ (by decide) (by decide)
  have hlist : Value.WellNamed (.list [.string "a \"b\"", .string "c"]) := by
    refine .list _ fun item hitem => ?_
    rcases List.mem_pair.mp hitem with rfl | rfl <;> exact .string _
  have hleft : groupedLeft.WellNamed :=
    .assignment _ (by decide) (.sum _ _ _ (.sum _ _ _ hbase hmore) hlist)
  have hright : groupedRight.WellNamed :=
    .assignment _ (by decide) (.sum _ _ _ hbase' (.sum _ _ _ hmore' hlist))
  have hprint : (File.mk [groupedLeft] []).print = (File.mk [groupedRight] []).print := by
    unfold groupedLeft groupedRight
    rw [print_file_assignment, print_file_assignment]
    decide +kernel
  exact ⟨hleft, hright, hprint, print_unambiguous hleft hright hprint⟩

end MakeBlueprint.Blueprint
