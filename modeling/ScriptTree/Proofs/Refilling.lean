import ScriptTree.Proofs.SlotOrder

/-!
# Filling a slot twice

A token that is put into a slot in which it stands is taken out first, and then put where a token
goes in an empty slot. So the second of two like calls succeeds and returns no former occupant, and
a third one changes nothing. The second one changes nothing exactly if the token stands there
already: it does if the slot was empty before, and it need not if the token took the place of
another one.
-/

namespace ScriptTree

namespace Form

variable {α : Type} {kind : NodeKind} {slot : Slot} {form : List (Role × α)} {child : α}

/-- A child stands in a slot where it would be put if the slot were empty: right before the first
child that has to stand after it, or at the end if there is none. -/
def Seated (kind : NodeKind) (slot : Slot) (child : α) (form : List (Role × α)) : Prop :=
  ∃ before after, form = before ++ (.slot slot, child) :: after ∧
    (∀ entry ∈ before, standsAfter kind slot entry.1 = false) ∧
    ∀ entry ∈ after.head?, standsAfter kind slot entry.1 = true

/-- A child goes behind all children that need not stand after it. -/
theorem insertSlot_append {before after : List (Role × α)}
    (hbefore : ∀ entry ∈ before, standsAfter kind slot entry.1 = false)
    (hafter : ∀ entry ∈ after.head?, standsAfter kind slot entry.1 = true) :
    insertSlot kind slot child (before ++ after) = before ++ (.slot slot, child) :: after := by
  induction before with
  | nil =>
    cases after with
    | nil => rfl
    | cons entry rest => exact if_pos (hafter entry rfl)
  | cons entry rest ih =>
    rw [List.cons_append, insertSlot, if_neg (by simp [hbefore entry List.mem_cons_self]),
      ih fun other hother => hbefore other (List.mem_cons_of_mem entry hother), List.cons_append]

/-- A child that was put into an empty slot is seated. -/
theorem seated_insertSlot (kind : NodeKind) (slot : Slot) (child : α) (form : List (Role × α)) :
    Seated kind slot child (insertSlot kind slot child form) := by
  induction form with
  | nil => exact ⟨[], [], rfl, nofun, nofun⟩
  | cons entry rest ih =>
    rw [insertSlot]
    by_cases hafter : standsAfter kind slot entry.1 = true
    · rw [if_pos hafter]
      refine ⟨[], entry :: rest, rfl, nofun, ?_⟩
      intro other hother
      obtain rfl := Option.some.inj hother
      exact hafter
    · rw [if_neg hafter]
      obtain ⟨before, after, hform, hbefore, hhead⟩ := ih
      refine ⟨entry :: before, after, by rw [hform, List.cons_append], ?_, hhead⟩
      intro other hother
      rcases List.mem_cons.1 hother with rfl | hother
      · exact Bool.eq_false_iff.2 hafter
      · exact hbefore other hother

/-- A token is seated exactly if it goes back to where it was taken out. -/
theorem seated_iff {form : List (Role × Nat)} {token : Nat} (h : (form.map Prod.snd).Nodup) :
    Seated kind slot token form ↔
      insertSlot kind slot token (Arena.dropEntry token form) = form := by
  constructor
  · rintro ⟨before, after, rfl, hbefore, hafter⟩
    rw [Arena.dropEntry_append h, insertSlot_append hbefore hafter]
  · intro heq
    rw [← heq]
    exact seated_insertSlot kind slot token _

end Form

namespace Arena

variable {a a' : Arena} {node token : Nat} {kind : NodeKind} {slot : Slot}

/-- Move a token in the form of its node to where a token goes in an empty slot. -/
def reseat (a : Arena) (kind : NodeKind) (node : Nat) (slot : Slot) (token : Nat) : Arena :=
  a.updateForm node fun form => Form.insertSlot kind slot token (dropEntry token form)

/-- A form that stays the same is not changed. -/
theorem updateForm_eq_self_iff (hkind : a.nodeKind? node = some kind)
    {change : List (Role × Nat) → List (Role × Nat)} :
    a.updateForm node change = a ↔ change (a.form node) = a.form node := by
  constructor
  · intro heq
    have hform := form_updateForm hkind change node
    rw [heq, if_pos rfl] at hform
    exact hform.symm
  · intro heq
    refine ext_get? fun id => ?_
    rw [updateForm, get?_update]
    by_cases hid : id = node
    · subst hid
      rw [if_pos rfl]
      cases htoken : a.get? id with
      | none => rfl
      | some t =>
        obtain ⟨body, parent, extent⟩ := t
        cases body with
        | leaf => rfl
        | node => simpa [Token.mapForm, form, htoken, Token.form] using heq
    · rw [if_neg hid]

/-- A token that is taken out of a node and put back there is moved in its form. -/
theorem attach_detach (hparent : a.parent? token = some node) (hne : node ≠ token)
    (change : List (Role × Nat) → List (Role × Nat)) :
    (a.detach token).1.attach node token change =
      a.updateForm node fun form => change (dropEntry token form) := by
  refine ext_get? fun id => ?_
  simp only [detach, hparent, attach, setParent, updateForm, get?_update]
  by_cases hid : id = token
  · have hnode : id ≠ node := fun heq => hne (heq.symm.trans hid)
    simp only [if_pos hid, if_neg hnode]
    rw [hid]
    cases htoken : a.get? token with
    | none => rfl
    | some t =>
      have hown : t.parent = some node := by simpa [parent?, htoken] using hparent
      simp [← hown]
  · rw [if_neg hid, if_neg hid]
    by_cases hnode : id = node
    · simp only [if_pos hnode]
      cases a.get? id with
      | none => rfl
      | some t => cases hbody : t.body <;> simp [Token.mapForm, hbody]
    · simp only [if_neg hnode]

/-- A token that is put into the slot in which it stands is moved to where a token goes in an empty
slot. -/
theorem WellFormed.setSlot_occupant (h : a.WellFormed) (hkind : a.nodeKind? node = some kind)
    (hmem : (.slot slot, token) ∈ a.form node) :
    a.setSlot node slot token = (a.reseat kind node slot token, .ok none) ∧
      (a.reseat kind node slot token = a ↔ Form.Seated kind slot token (a.form node)) := by
  have hparent : a.parent? token = some node :=
    (h.linked.parent_iff token node).2 (List.mem_map_of_mem hmem)
  have hne : node ≠ token := fun heq => h.acyclic token (.single (heq ▸ hparent))
  have hcheck := h.checkAttach_child hkind hparent ((h.suits node kind hkind).checkRole hmem)
  obtain ⟨before, after, hform⟩ := List.append_of_mem hmem
  have hrest : (a.detach token).1.form node = before ++ after := by
    have hnodup := h.linked.nodup node
    rw [form_detach h.linked, ← dropEntry_eq_filter hnodup]
    rw [children, hform] at hnodup
    rw [hform, dropEntry_append hnodup]
  have hempty : Form.replaceSlot? slot token ((a.detach token).1.form node) = none := by
    rw [hrest]
    cases hreplace : Form.replaceSlot? slot token (before ++ after) with
    | none => rfl
    | some result =>
      obtain ⟨_, _, hagain, -⟩ := Form.exists_of_replaceSlot? hreplace
      have hsuits := h.suits node kind hkind
      rw [hform] at hsuits
      exact absurd (by rw [hagain]; simp) hsuits.slot_notMem
  constructor
  · simp only [Arena.setSlot, hcheck, hempty, reseat, attach_detach hparent hne]
  · rw [Form.seated_iff (h.linked.nodup node)]
    exact updateForm_eq_self_iff hkind

/-- A token that was put into a slot stands there, and it is seated if the slot was empty. -/
theorem WellFormed.mem_form_setSlot (h : a.WellFormed) {previous : Option Nat}
    (hset : a.setSlot node slot token = (a', .ok previous)) :
    ∃ kind, a.nodeKind? node = some kind ∧ a'.nodeKind? node = some kind ∧
      (.slot slot, token) ∈ a'.form node ∧
      (previous = none → Form.Seated kind slot token (a'.form node)) := by
  obtain ⟨kind, hkind, -, hcases⟩ := h.setSlot_cases hset
  have hdetach := hkind
  rw [← nodeKind?_detach a token] at hdetach
  refine ⟨kind, hkind, ?_⟩
  rcases hcases with ⟨old, before, after, rfl, -, rfl⟩ | ⟨rfl, -, rfl⟩
  · have hparentSet : ((a.detach token).1.setParent old none).nodeKind? node = some kind := by
      rwa [nodeKind?_setParent]
    rw [nodeKind?_attach, form_attach hparentSet, if_pos rfl]
    exact ⟨hparentSet, by simp, nofun⟩
  · rw [nodeKind?_attach, form_attach hdetach, if_pos rfl]
    refine ⟨hdetach, ?_, fun _ => Form.seated_insertSlot kind slot token _⟩
    rw [(Form.insertSlot_perm kind slot token _).mem_iff]
    exact List.mem_cons_self

/-- However an arena came about, a token that was put into a slot can be put there once more, which
takes nothing out and only moves the token to where it goes in an empty slot; from then on nothing
changes. If the slot was empty, the second call changes nothing either, and in general it does so
exactly if the token stands right before the first child that has to stand after it. -/
theorem setSlot_twice (h : Reachable a) {previous : Option Nat} (htoken : token < a.size)
    (hset : a.setSlot node slot token = (a', .ok previous)) :
    ∃ kind, a.nodeKind? node = some kind ∧
      a'.setSlot node slot token = (a'.reseat kind node slot token, .ok none) ∧
      (a'.reseat kind node slot token).setSlot node slot token =
        (a'.reseat kind node slot token, .ok none) ∧
      (previous = none → a'.reseat kind node slot token = a') ∧
      (a'.reseat kind node slot token = a' ↔ Form.Seated kind slot token (a'.form node)) := by
  obtain ⟨kind, hkind, hkind', hmem, hseated⟩ := h.wellFormed.mem_form_setSlot hset
  have hwell : a'.WellFormed := by
    have hresult := h.wellFormed.setSlot htoken node slot
    rwa [hset] at hresult
  obtain ⟨hsecond, hunchanged⟩ := hwell.setSlot_occupant hkind' hmem
  refine ⟨kind, hkind, hsecond, ?_, fun hnone => hunchanged.2 (hseated hnone), hunchanged⟩
  have hwell'' : (a'.reseat kind node slot token).WellFormed := by
    have hresult := hwell.setSlot (hwell.linked.child_lt (List.mem_map_of_mem hmem)) node slot
    rwa [hsecond] at hresult
  obtain ⟨kind'', -, hkind'', hmem'', hseated''⟩ := hwell.mem_form_setSlot hsecond
  obtain rfl : kind = kind'' := by
    rw [reseat, nodeKind?_updateForm, hkind'] at hkind''
    exact Option.some.inj hkind''
  obtain ⟨hthird, hsame⟩ := hwell''.setSlot_occupant hkind'' hmem''
  rw [hthird, hsame.2 (hseated'' rfl)]

theorem setSlot_twice_bracketedList :
    (bracketedList.setSlot 0 .opening 4).2 = .ok (some 3) ∧
      ((bracketedList.setSlot 0 .opening 4).1.setSlot 0 .opening 4) =
        ((bracketedList.setSlot 0 .opening 4).1, .ok none) := by
  have hset : bracketedList.setSlot 0 .opening 4 =
      ((bracketedList.setSlot 0 .opening 4).1, .ok (some 3)) := Prod.ext rfl (by decide +kernel)
  obtain ⟨kind, hkind, hsecond, -, -, hsame⟩ :=
    setSlot_twice reachableBySlots_bracketedList.reachable (by decide +kernel) hset
  obtain rfl : NodeKind.argumentsList = kind :=
    Option.some.inj ((by decide +kernel : bracketedList.nodeKind? 0 = _).symm.trans hkind)
  have hseated : Form.Seated .argumentsList .opening 4
      ((bracketedList.setSlot 0 .opening 4).1.form 0) :=
    ⟨[], [(.item, 1), (.slot .closing, 2)], by decide +kernel, nofun, by decide⟩
  refine ⟨by decide +kernel, ?_⟩
  rw [hsecond, hsame.2 hseated]

/-- A `pass` before a blank, and another `pass`. -/
def paddedPass : Arena :=
  [.allocNode .passStatement, .keyword .passKw, .setSlot 0 .keyword 1, .space 1, .push 0 2 .extra,
    .keyword .passKw].foldl (fun a op => (a.perform op).1) {}

/-- The other `pass` takes the place of the first one before the blank, and goes behind the blank when
it is put into the slot once more. -/
theorem setSlot_twice_moves_token :
    Reachable paddedPass ∧ paddedPass.form 0 = [(.slot .keyword, 1), (.extra, 2)] ∧
      (paddedPass.setSlot 0 .keyword 3).2 = .ok (some 1) ∧
      (paddedPass.setSlot 0 .keyword 3).1.form 0 = [(.slot .keyword, 3), (.extra, 2)] ∧
      ((paddedPass.setSlot 0 .keyword 3).1.setSlot 0 .keyword 3).2 = .ok none ∧
      ((paddedPass.setSlot 0 .keyword 3).1.setSlot 0 .keyword 3).1.form 0 =
        [(.extra, 2), (.slot .keyword, 3)] := by
  refine ⟨?_, by decide +kernel, by decide +kernel, by decide +kernel, by decide +kernel,
    by decide +kernel⟩
  exact (((((Reachable.empty.perform (.allocNode .passStatement) (by decide)).perform
    (.keyword .passKw) (by decide)).perform (.setSlot 0 .keyword 1) (by decide)).perform (.space 1)
    (by decide)).perform (.push 0 2 .extra) (by decide)).perform (.keyword .passKw) (by decide)

end Arena

end ScriptTree
