import MakeBlueprint.Proofs.Assignments.Replacing
import MakeBlueprint.Proofs.Coercion.Joining

/-!
# Writes that gather pieces

Writes that add to what is there gather its pieces, so only the pieces count and not the writes that
bring them. A text can be written in parts to a property, and to the properties of directories.

* `content_of_settles`: what is gathered has the pieces that are written in its place.
* `rel_of_gathers`: writes that gather the same pieces leave the same contents.
* `rel_of_single`, `rel_of_directories`: so it is for properties and for include directories.
-/

namespace MakeBlueprint.Conversion

open Blueprint (Path Property Value)
open Blueprint.Value (Piece SameContent)

variable {name : Text} {path q : Path} {ws ws' : List Write} {w w' : Write}
  {leaf leaf' : Option Value} {value v v' v'' : Value} {append append' : Bool}

/-! ## Writes that gather pieces -/

/-- The pieces that are written in a place. -/
def contentAt (q : Path) (ws : List Write) : List Piece :=
  (writesAt q ws).flatMap fun w => w.value.content

/-- **Behind the first write in a place, every write adds to it.** -/
def Gathers (ws : List Write) : Prop := ∀ q, ∀ w ∈ (writesAt q ws).tail, w.append = true

theorem contentAt_append (q : Path) (ws ws' : List Write) :
    contentAt q (ws ++ ws') = contentAt q ws ++ contentAt q ws' := by
  unfold contentAt
  rw [writesAt_append, List.flatMap_append]

theorem gathers_append (h : Gathers ws) (h' : ∀ w ∈ ws', w.append = true) :
    Gathers (ws ++ ws') := by
  intro q w hw
  rw [writesAt_append] at hw
  cases hat : writesAt q ws with
  | nil =>
    rw [hat, List.nil_append] at hw
    exact h' w (List.mem_of_mem_filter (List.mem_of_mem_tail hw))
  | cons first rest =>
    rw [hat, List.cons_append, List.tail_cons] at hw
    rcases List.mem_append.mp hw with hw | hw
    · exact h q w (by rw [hat]; exact hw)
    · exact h' w (List.mem_of_mem_filter hw)

/-- The kind of what is written in a place is that of the place. -/
theorem kind_eq_of_target_eq (hw : w.Typed) (hw' : w'.Typed) (h : w.target = w'.target) :
    w.value.kind = w'.value.kind := by
  have hname : w.name = w'.name := by
    have hlast := congrArg List.getLast? h
    unfold Write.target at hlast
    rw [List.getLast?_concat, List.getLast?_concat] at hlast
    exact Option.some.inj hlast
  have hkind := hw.kind
  rw [hname, hw'.kind] at hkind
  exact (Option.some.inj hkind).symm

theorem content_of_foldlM_settle (h : ws.foldlM settle (some value) = .ok (some v))
    (happend : ∀ w ∈ ws, w.append = true) (hkind : ∀ w ∈ ws, w.value.kind = value.kind) :
    v.kind = value.kind ∧ v.content = value.content ++ ws.flatMap fun w => w.value.content := by
  induction ws generalizing value with
  | nil =>
    cases h
    exact ⟨rfl, (List.append_nil _).symm⟩
  | cons w ws ih =>
    rw [List.foldlM_cons] at h
    obtain ⟨next, hnext, h⟩ := bind_eq_ok h
    obtain ⟨total, htotal, rfl⟩ := Property.map_eq_ok hnext
    have hadd : add value w.value = .ok total := by
      rw [happend w List.mem_cons_self] at htotal
      exact changed_append_iff.mp htotal
    have hw := hkind w List.mem_cons_self
    have htotalKind := kind_add_same rfl hw hadd
    obtain ⟨hk, hc⟩ := ih h (fun x hx => happend x (List.mem_cons_of_mem w hx)) fun x hx =>
      (hkind x (List.mem_cons_of_mem w hx)).trans htotalKind.symm
    refine ⟨hk.trans htotalKind, ?_⟩
    rw [hc, content_add hw.symm hadd, List.append_assoc, List.flatMap_cons]

/-- **Writes that gather leave their pieces.** -/
theorem content_of_settles (hws : ∀ w ∈ ws, w.Typed) (hg : Gathers ws)
    (h : Settles ws q (some v)) :
    v.content = contentAt q ws ∧ ∃ w ∈ ws, w.target = q ∧ v.kind = w.value.kind := by
  have hmem : ∀ w ∈ writesAt q ws, w ∈ ws := fun w hw => List.mem_of_mem_filter hw
  have htarget : ∀ w ∈ writesAt q ws, w.target = q := fun w hw => target_of_mem_writesAt hw
  have htail := hg q
  unfold Settles at h
  unfold contentAt
  generalize writesAt q ws = at' at *
  cases at' with
  | nil => cases h
  | cons first rest =>
    rw [List.foldlM_cons] at h
    have hfirst := hmem first List.mem_cons_self
    have h : rest.foldlM settle (some first.value) = .ok (some v) := h
    obtain ⟨hk, hc⟩ := content_of_foldlM_settle h htail fun w hw => by
      have hw := List.mem_cons_of_mem first hw
      exact kind_eq_of_target_eq (hws w (hmem w hw)) (hws first hfirst)
        ((htarget w hw).trans (htarget first List.mem_cons_self).symm)
    exact ⟨hc, first, hfirst, htarget first List.mem_cons_self, hk⟩

/-- **Writes that gather the same pieces say the same.** -/
theorem rel_of_gathers (hws : ∀ w ∈ ws, w.Typed) (hws' : ∀ w ∈ ws', w.Typed) (hg : Gathers ws)
    (hg' : Gathers ws') (h : Settles ws q leaf) (h' : Settles ws' q leaf')
    (hempty : writesAt q ws = [] ↔ writesAt q ws' = [])
    (hperm : (contentAt q ws).Perm (contentAt q ws'))
    (hstring : (∃ w ∈ ws, w.value.kind ≠ .list) → contentAt q ws = contentAt q ws') :
    Option.Rel SameContent leaf leaf' := by
  rw [writesAt_eq_nil_iff, writesAt_eq_nil_iff, ← h.isSome_iff, ← h'.isSome_iff] at hempty
  cases leaf with
  | none =>
    cases leaf' with
    | none => exact .none
    | some v' => simp at hempty
  | some v =>
    cases leaf' with
    | none => simp at hempty
    | some v' =>
      obtain ⟨hc, w, hw, hwq, hk⟩ := content_of_settles hws hg h
      obtain ⟨hc', w', hw', hwq', hk'⟩ := content_of_settles hws' hg' h'
      have hkind : v.kind = v'.kind := by
        rw [hk, hk', kind_eq_of_target_eq (hws w hw) (hws' w' hw') (hwq.trans hwq'.symm)]
      refine .some ⟨hkind, ?_⟩
      rw [hc, hc']
      split
      · exact hperm
      · next hlist => exact hstring ⟨w, hw, fun he => hlist (hk.trans he)⟩

/-! ## Properties -/

theorem gathers_one : Gathers [(⟨path, name, v, false⟩ : Write)] := by
  intro q w hw
  by_cases hq : path ++ [name] = q <;> simp [writesAt, Write.target, hq] at hw

theorem gathers_pair : Gathers [(⟨path, name, v, false⟩ : Write), ⟨path, name, v', true⟩] := by
  have happend : ∀ w ∈ [(⟨path, name, v', true⟩ : Write)], w.append = true := by
    intro w hw
    rw [List.mem_singleton.mp hw]
  exact gathers_append gathers_one happend

theorem contentAt_one : contentAt q [(⟨path, name, v, append⟩ : Write)] =
    if path ++ [name] = q then v.content else [] := by
  by_cases hq : path ++ [name] = q <;> simp [contentAt, writesAt, Write.target, hq]

theorem contentAt_pair :
    contentAt q [(⟨path, name, v, append⟩ : Write), ⟨path, name, v', append'⟩] =
      if path ++ [name] = q then v.content ++ v'.content else [] := by
  by_cases hq : path ++ [name] = q <;> simp [contentAt, writesAt, Write.target, hq]

/-- **One property is gathered.** -/
theorem rel_of_single
    (hws : ∀ w ∈ [(⟨path, name, v, false⟩ : Write), ⟨path, name, v', true⟩], w.Typed)
    (hws'' : ∀ w ∈ [(⟨path, name, v'', false⟩ : Write)], w.Typed)
    (hcontent : v''.content = v.content ++ v'.content)
    (h : Settles [⟨path, name, v, false⟩, ⟨path, name, v', true⟩] q leaf)
    (h'' : Settles [⟨path, name, v'', false⟩] q leaf') : Option.Rel SameContent leaf leaf' := by
  have hsame : contentAt q [(⟨path, name, v, false⟩ : Write), ⟨path, name, v', true⟩] =
      contentAt q [(⟨path, name, v'', false⟩ : Write)] := by
    rw [contentAt_pair, contentAt_one, hcontent]
  refine rel_of_gathers hws hws'' gathers_pair gathers_one h h'' ?_ (hsame ▸ .refl _)
    fun _ => hsame
  by_cases hq : path ++ [name] = q <;> simp [writesAt, Write.target, hq]

theorem length_content_of_sameContent (h : SameContent v v') :
    v.content.length = v'.content.length := by
  obtain ⟨-, h⟩ := h
  split at h
  · exact h.length_eq
  · rw [h]

/-- A property that is gathered has as many pieces as are written. -/
theorem length_of_rel_single
    (hws : ∀ w ∈ [(⟨path, name, v, false⟩ : Write), ⟨path, name, v', true⟩], w.Typed)
    (hws'' : ∀ w ∈ [(⟨path, name, v'', false⟩ : Write)], w.Typed)
    (h : Settles [⟨path, name, v, false⟩, ⟨path, name, v', true⟩] (path ++ [name]) leaf)
    (h'' : Settles [⟨path, name, v'', false⟩] (path ++ [name]) leaf')
    (hrel : Option.Rel SameContent leaf leaf') :
    v''.content.length = v.content.length + v'.content.length := by
  have hsome := h''.isSome_iff.mpr (by simp [Write.target])
  cases hrel with
  | none => cases hsome
  | some hsame =>
    have hx := (content_of_settles hws gathers_pair h).1
    have hx'' := (content_of_settles hws'' gathers_one h'').1
    rw [contentAt_pair, if_pos rfl] at hx
    rw [contentAt_one, if_pos rfl] at hx''
    have hlength := length_content_of_sameContent hsame
    rw [hx, hx'', List.length_append] at hlength
    exact hlength.symm

/-! ## Include directories -/

section Directories

variable {ownName othersName : Text} {own own' own'' others others' others'' : Value}

theorem contentAt_listWrites (hs : Solid value) :
    contentAt q (listWrites path name value append) =
      if path ++ [name] = q then value.content else [] := by
  unfold listWrites
  split
  · next he =>
    rw [hs.mp he, ite_self]
    rfl
  · by_cases hq : path ++ [name] = q <;> simp [contentAt, writesAt, Write.target, hq]

theorem content_ne_nil_of_mem_listWrites (hs : Solid value)
    (h : w ∈ listWrites path name value append) : w.value.content ≠ [] := by
  unfold listWrites at h
  split at h
  · exact absurd h List.not_mem_nil
  · next he =>
    rw [List.mem_singleton.mp h]
    exact fun hnone => he (hs.mpr hnone)

theorem content_ne_nil_of_mem_directoryWrites (hv : Parts v own others)
    (h : w ∈ directoryWrites path ownName othersName own others append append') :
    w.value.content ≠ [] := by
  rcases List.mem_append.mp h with h | h
  · exact content_ne_nil_of_mem_listWrites hv.ownSolid h
  · exact content_ne_nil_of_mem_listWrites hv.othersSolid h

theorem contentAt_directoryWrites (hv : Parts v own others) :
    contentAt q (directoryWrites path ownName othersName own others append append') =
      (if path ++ [ownName] = q then own.content else []) ++
        if path ++ [othersName] = q then others.content else [] := by
  unfold directoryWrites
  rw [contentAt_append, contentAt_listWrites hv.ownSolid, contentAt_listWrites hv.othersSolid]

/-- Where every write has pieces, nothing is written exactly where no pieces are. -/
theorem writesAt_eq_nil_iff_contentAt (h : ∀ w ∈ ws, w.value.content ≠ []) :
    writesAt q ws = [] ↔ contentAt q ws = [] := by
  unfold contentAt
  rw [List.flatMap_eq_nil_iff, List.eq_nil_iff_forall_not_mem]
  exact forall_congr' fun w =>
    ⟨fun hw hmem => absurd hmem hw, fun hw hmem => h w (List.mem_of_mem_filter hmem) (hw hmem)⟩

/-- A list is written once. -/
theorem tail_writesAt_listWrites : (writesAt q (listWrites path name value append)).tail = [] := by
  unfold listWrites
  split
  · rfl
  · by_cases hq : path ++ [name] = q <;> simp [writesAt, Write.target, hq]

theorem of_mem_writesAt_listWrites (h : w ∈ writesAt q (listWrites path name value append)) :
    q = path ++ [name] ∧ isEmptyList value = false := by
  have htarget := target_of_mem_writesAt h
  have hmem := List.mem_of_mem_filter h
  unfold listWrites at hmem
  split at hmem
  · exact absurd hmem List.not_mem_nil
  · next hempty =>
    rw [List.mem_singleton.mp hmem] at htarget
    exact ⟨htarget.symm, Bool.eq_false_iff.mpr hempty⟩

/-- The second part adds to the first one where both go to one property. -/
theorem gathers_directoryWrites
    (hadds : ownName = othersName → isEmptyList own = false → append' = true) :
    Gathers (directoryWrites path ownName othersName own others append append') := by
  intro q w hw
  unfold directoryWrites at hw
  rw [writesAt_append] at hw
  cases hat : writesAt q (listWrites path ownName own append) with
  | nil =>
    rw [hat, List.nil_append, tail_writesAt_listWrites] at hw
    exact absurd hw List.not_mem_nil
  | cons first rest =>
    have hrest : rest = [] := by
      rw [← @List.tail_cons _ first rest, ← hat, tail_writesAt_listWrites]
    have hfirst : first ∈ writesAt q (listWrites path ownName own append) := by
      rw [hat]
      exact List.mem_cons_self
    rw [hat, hrest, List.singleton_append, List.tail_cons] at hw
    obtain ⟨hplace, hempty⟩ := of_mem_writesAt_listWrites hfirst
    obtain ⟨hplace', -⟩ := of_mem_writesAt_listWrites hw
    have hname : ownName = othersName :=
      (List.cons.inj (List.append_cancel_left (hplace.symm.trans hplace'))).1
    rw [append_of_mem_listWrites (List.mem_of_mem_filter hw)]
    exact hadds hname hempty

/-- Two parts and two more, in whatever order. -/
theorem perm_parts (as bs cs ds : List Piece) :
    (as ++ bs ++ (cs ++ ds)).Perm (as ++ cs ++ (bs ++ ds)) := by
  have hmiddle : (bs ++ cs).Perm (cs ++ bs) := List.perm_append_comm
  simpa only [List.append_assoc] using (hmiddle.append_left as).append_right ds

/-- **Directories are gathered**, up to their order. -/
theorem rel_of_directories
    (hws : ∀ w ∈ directoryWrites path ownName othersName own others false append ++
      directoryWrites path ownName othersName own' others' true true, w.Typed)
    (hws'' : ∀ w ∈ directoryWrites path ownName othersName own'' others'' false append', w.Typed)
    (hadds : ownName = othersName → isEmptyList own = false → append = true)
    (hadds'' : ownName = othersName → isEmptyList own'' = false → append' = true)
    (hv : Parts v own others) (hv' : Parts v' own' others') (hv'' : Parts v'' own'' others'')
    (hcontent : v''.content = v.content ++ v'.content)
    (h : Settles (directoryWrites path ownName othersName own others false append ++
      directoryWrites path ownName othersName own' others' true true) q leaf)
    (h'' : Settles (directoryWrites path ownName othersName own'' others'' false append') q leaf') :
    Option.Rel SameContent leaf leaf' := by
  have hown : own''.content = own.content ++ own'.content := by
    rw [hv.ownContent, hv'.ownContent, hv''.ownContent, hcontent, List.filterMap_append]
  have hothers : others''.content = others.content ++ others'.content := by
    rw [hv.othersContent, hv'.othersContent, hv''.othersContent, hcontent, List.filter_append]
  have hgathers : Gathers (directoryWrites path ownName othersName own others false append ++
      directoryWrites path ownName othersName own' others' true true) :=
    gathers_append (gathers_directoryWrites hadds) fun w hw => append_of_mem_directoryWrites hw
  have hperm : (contentAt q (directoryWrites path ownName othersName own others false append ++
      directoryWrites path ownName othersName own' others' true true)).Perm
      (contentAt q (directoryWrites path ownName othersName own'' others'' false append')) := by
    rw [contentAt_append, contentAt_directoryWrites hv, contentAt_directoryWrites hv',
      contentAt_directoryWrites hv'', hown, hothers]
    by_cases ho : path ++ [ownName] = q <;> by_cases hr : path ++ [othersName] = q <;>
      simp only [ho, hr, if_true, if_false, List.nil_append, List.append_nil, List.Perm.refl]
    exact perm_parts _ _ _ _
  refine rel_of_gathers hws hws'' hgathers (gathers_directoryWrites hadds'') h h'' ?_ hperm ?_
  · rw [writesAt_eq_nil_iff_contentAt, writesAt_eq_nil_iff_contentAt]
    · exact ⟨fun hnone => List.perm_nil.mp (hnone ▸ hperm.symm),
        fun hnone => List.perm_nil.mp (hnone ▸ hperm)⟩
    · exact fun w => content_ne_nil_of_mem_directoryWrites hv''
    · intro w hw
      rcases List.mem_append.mp hw with hw | hw
      · exact content_ne_nil_of_mem_directoryWrites hv hw
      · exact content_ne_nil_of_mem_directoryWrites hv' hw
  · rintro ⟨w, hw, hne⟩
    refine absurd ?_ hne
    rcases List.mem_append.mp hw with hw | hw
    · exact kind_of_mem_directoryWrites hv.ownKind hv.othersKind hw
    · exact kind_of_mem_directoryWrites hv'.ownKind hv'.othersKind hw

end Directories

end MakeBlueprint.Conversion
