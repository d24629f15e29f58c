import Mathlib.Data.List.Nodup
import ScriptTree.Proofs.Copying

/-!
# Changes of structure

Every operation that moves tokens takes one out of its form and puts it in where a node has a place
for it, or into the place of another token. Whether it is refused or not, the arena stays well
formed.
-/

namespace ScriptTree

namespace Form

variable {α : Type} {kind : NodeKind} {form : List (Role × α)}

/-- A slot is filled by one child at most. -/
theorem Suits.slot_notMem {before after : List (Role × α)} {slot : Slot} {child : α}
    (h : Suits kind (before ++ (.slot slot, child) :: after)) :
    slot ∉ slots (before ++ after) := by
  have hperm : (before ++ (.slot slot, child) :: after).Perm
      ((.slot slot, child) :: (before ++ after)) := List.perm_middle
  have hnodup := (h.perm hperm).slots_nodup
  simp only [slots_cons, Role.slot?_slot, Option.toList_some, List.singleton_append,
    List.nodup_cons] at hnodup
  exact hnodup.1

/-- A filled slot is found with what stands before and after it. -/
theorem exists_of_replaceSlot? {slot : Slot} {child previous : α} {form' : List (Role × α)}
    (h : replaceSlot? slot child form = some (previous, form')) :
    ∃ before after, form = before ++ (.slot slot, previous) :: after ∧
      form' = before ++ (.slot slot, child) :: after := by
  induction form generalizing form' with
  | nil => cases h
  | cons entry rest ih =>
    rw [replaceSlot?] at h
    split at h
    · rename_i hrole
      obtain ⟨rfl, rfl⟩ := Prod.mk.inj (Option.some.inj h)
      exact ⟨[], rest, by rw [← hrole]; rfl, by rw [← hrole]; rfl⟩
    · obtain ⟨⟨old, rest'⟩, hrest, heq⟩ := Option.map_eq_some_iff.1 h
      obtain ⟨rfl, rfl⟩ := Prod.mk.inj heq
      obtain ⟨before, after, rfl, rfl⟩ := ih hrest
      exact ⟨entry :: before, after, rfl, rfl⟩

/-- A slot that is not found is empty. -/
theorem slot_notMem_of_replaceSlot? {slot : Slot} {child : α}
    (h : replaceSlot? slot child form = none) : slot ∉ slots form := by
  induction form with
  | nil => simp
  | cons entry rest ih =>
    obtain ⟨role, other⟩ := entry
    rw [replaceSlot?] at h
    split at h
    · cases h
    · rename_i hrole
      have hrest := ih (Option.map_eq_none_iff.1 h)
      cases role with
      | slot place =>
        have hne : slot ≠ place := fun heq => hrole (heq ▸ rfl)
        simpa [hne] using hrest
      | item => simpa using hrest
      | extra => simpa using hrest

/-- A child put into a slot is one more child. -/
theorem insertSlot_perm (kind : NodeKind) (slot : Slot) (child : α) (form : List (Role × α)) :
    (insertSlot kind slot child form).Perm ((.slot slot, child) :: form) := by
  induction form with
  | nil => exact .refl _
  | cons entry rest ih =>
    rw [insertSlot]
    split
    · exact .refl _
    · exact (ih.cons entry).trans (.swap _ _ _)

/-- A child may be put into a declared slot, filled or not. -/
theorem Suits.setSlot (h : Suits kind form) {slot : Slot} (hslot : kind.declares slot)
    (child : α) : Suits kind (setSlot kind slot child form) := by
  unfold Form.setSlot
  split
  · rename_i hreplace
    obtain ⟨before, after, rfl, rfl⟩ := exists_of_replaceSlot? hreplace
    exact h.of_roles (by simp)
  · rename_i hreplace
    have hadded : Suits kind ((.slot slot, child) :: form) := by
      refine h.cons (by simp [NodeKind.checkRole, hslot]) (fun other heq => ?_) child
      obtain rfl := Role.slot.inj heq
      exact slot_notMem_of_replaceSlot? hreplace
    exact hadded.perm (insertSlot_perm kind slot child form).symm

end Form

namespace Arena

open Relation

variable {a : Arena} {node token : Nat} {kind : NodeKind} {role : Role}

/-! ### The structural changes -/

/-- A node that takes a token in a role has a place for it, and does not stand below it. -/
theorem WellFormed.checkAttach_eq_ok (h : a.WellFormed)
    (hcheck : a.checkAttach node token role = .ok kind) :
    a.nodeKind? node = some kind ∧ node ≠ token ∧ ¬ TransGen a.IsParent token node ∧
      kind.checkRole role = .ok () := by
  unfold checkAttach at hcheck
  split at hcheck
  · cases hcheck
  rename_i kind' hkind
  split at hcheck
  · cases hcheck
  rename_i hcycle
  obtain ⟨hne, hbelow⟩ := not_or.1 hcycle
  cases hrole : kind'.checkRole role with
  | error e => simp [hrole, Except.mapError, Except.map] at hcheck
  | ok _ =>
    simp only [hrole, Except.mapError, Except.map, Except.ok.injEq] at hcheck
    subst hcheck
    exact ⟨hkind, hne, fun hway => hbelow ((isAncestor_iff h.linked h.acyclic).2 hway), hrole⟩

/-- Where there is no way down to a node, there is none after a token was taken out. -/
theorem not_transGen_detach {ancestor id : Nat} (h : ¬ TransGen a.IsParent ancestor id)
    (token : Nat) : ¬ TransGen (a.detach token).1.IsParent ancestor id := by
  refine fun hway => h (TransGen.mono (fun p c hp => ?_) _ _ hway)
  rw [IsParent, parent?_detach] at hp
  split at hp
  · cases hp
  · exact hp

/-- A token may be moved to where a node has a place for it. -/
theorem WellFormed.move {change : List (Role × Nat) → List (Role × Nat)} (h : a.WellFormed)
    (hcheck : a.checkAttach node token role = .ok kind) (htoken : token < a.size)
    (hslot : ∀ slot, role = .slot slot → slot ∉ Form.slots ((a.detach token).1.form node))
    (hperm : (change ((a.detach token).1.form node)).Perm
      ((role, token) :: (a.detach token).1.form node)) :
    ((a.detach token).1.attach node token change).WellFormed := by
  obtain ⟨hkind, hne, hway, hrole⟩ := h.checkAttach_eq_ok hcheck
  exact (h.detach token).attach (by simpa using hkind) (by simpa using htoken)
    (by rw [parent?_detach, if_pos rfl]) hne (not_transGen_detach hway token) hrole hslot hperm

/-- What a form is changed to depends on the form only. -/
theorem updateForm_eq_const (a : Arena) (node : Nat)
    (change : List (Role × Nat) → List (Role × Nat)) :
    a.updateForm node change = a.updateForm node fun _ => change (a.form node) := by
  refine ext_get? fun id => ?_
  simp only [updateForm, get?_update]
  split
  · rename_i heq
    rw [heq]
    cases htoken : a.get? node with
    | none => rfl
    | some t => cases hbody : t.body <;> simp [Token.mapForm, form, htoken, Token.form, hbody]
  · rfl

/-- What a token is put into depends on the form of the node only. -/
theorem attach_eq_const (a : Arena) (node token : Nat)
    (change : List (Role × Nat) → List (Role × Nat)) :
    a.attach node token change = a.attach node token fun _ => change (a.form node) := by
  rw [attach, attach, updateForm_eq_const]

/-- Taking a token out leaves what stands before and after it. -/
theorem dropEntry_append {before after : List (Role × Nat)} {role : Role} {token : Nat}
    (h : ((before ++ (role, token) :: after).map Prod.snd).Nodup) :
    dropEntry token (before ++ (role, token) :: after) = before ++ after := by
  rw [List.map_append, List.map_cons] at h
  have hbefore (entry : Role × Nat) (hentry : entry ∈ before) : ¬ (entry.2 == token) = true := by
    have hne := (List.nodup_append.1 h).2.2 entry.2 (List.mem_map_of_mem hentry) token
      List.mem_cons_self
    simpa using hne
  rw [dropEntry, List.eraseP_append_right _ hbefore, List.eraseP_cons_of_pos (by simp)]

/-- A token may take the place of another one, which stands in no form then. -/
theorem WellFormed.substitute {old new : Nat} {before after : List (Role × Nat)}
    (h : a.WellFormed) (hkind : a.nodeKind? node = some kind)
    (hform : a.form node = before ++ (role, old) :: after) (hnew : new < a.size)
    (hdetached : a.parent? new = none) (hne : node ≠ new)
    (hbelow : ¬ TransGen a.IsParent new node) :
    ((a.setParent old none).attach node new
      fun _ => before ++ (role, new) :: after).WellFormed := by
  have hmem : (role, old) ∈ a.form node := by simp [hform]
  have hparent : a.parent? old = some node :=
    (h.linked.parent_iff old node).2 (List.mem_map_of_mem hmem)
  have hsuits := h.suits node kind hkind
  have hrest : (a.detach old).1.form node = before ++ after := by
    have hnodup := h.linked.nodup node
    rw [children, hform] at hnodup
    rw [form_detach h.linked, ← dropEntry_eq_filter (h.linked.nodup node), hform,
      dropEntry_append hnodup]
  have heq : (a.setParent old none).attach node new (fun _ => before ++ (role, new) :: after) =
      (a.detach old).1.attach node new fun _ => before ++ (role, new) :: after := by
    simp only [Arena.attach, Arena.detach, hparent, updateForm_updateForm]
  have hslot : ∀ slot, role = .slot slot → slot ∉ Form.slots ((a.detach old).1.form node) := by
    rintro slot rfl
    rw [hform] at hsuits
    rw [hrest]
    exact hsuits.slot_notMem
  rw [heq]
  refine (h.detach old).attach (by simpa using hkind) (by simpa using hnew) ?_ hne
    (not_transGen_detach hbelow old) (hsuits.checkRole hmem) hslot ?_
  · rw [parent?_detach, hdetached, ite_self]
  · rw [hrest]
    exact List.perm_middle

/-- Taking a token out empties slots at most. -/
theorem slot_notMem_detach {slot : Slot} (h : a.Linked) (hslot : slot ∉ Form.slots (a.form node))
    (token : Nat) : slot ∉ Form.slots ((a.detach token).1.form node) := by
  rw [form_detach h]
  exact fun hmem => hslot ((List.filter_sublist.filterMap _).subset hmem)

theorem WellFormed.push (h : a.WellFormed) (htoken : token < a.size) (node : Nat) (role : Role) :
    (a.push node token role).1.WellFormed := by
  unfold Arena.push
  split
  · exact h
  · rename_i kind hcheck
    have happend (hslot : ∀ slot, role = .slot slot → slot ∉ Form.slots (a.form node)) :
        ((a.detach token).1.attach node token (· ++ [(role, token)])).WellFormed :=
      h.move hcheck htoken (fun slot heq => slot_notMem_detach h.linked (hslot slot heq) token)
        (List.perm_append_singleton _ _)
    cases role with
    | slot slot =>
      dsimp only
      split
      · exact h
      · rename_i hempty
        refine happend fun other heq => ?_
        obtain rfl := Role.slot.inj heq
        rw [← Form.isFilled_iff]
        simpa [occupant?, Form.occupant?, Form.isFilled] using hempty
    | item | extra => exact happend fun _ heq => by cases heq

theorem WellFormed.setSlot (h : a.WellFormed) (htoken : token < a.size) (node : Nat)
    (slot : Slot) : (a.setSlot node slot token).1.WellFormed := by
  unfold Arena.setSlot
  split
  · exact h
  · rename_i kind hcheck
    dsimp only
    split
    · rename_i previous form hreplace
      obtain ⟨before, after, hform, rfl⟩ := Form.exists_of_replaceSlot? hreplace
      obtain ⟨hkind, hne, hway, _⟩ := h.checkAttach_eq_ok hcheck
      exact (h.detach token).substitute (by simpa using hkind) hform (by simpa using htoken)
        (by rw [parent?_detach, if_pos rfl]) hne (not_transGen_detach hway token)
    · rename_i hreplace
      refine h.move hcheck htoken (fun other heq => ?_) (Form.insertSlot_perm kind slot token _)
      obtain rfl := Role.slot.inj heq
      exact Form.slot_notMem_of_replaceSlot? hreplace

/-- An entry put beside a token is one more entry. -/
theorem insertBeside_perm {anchor : Nat} {form : List (Role × Nat)} (after : Bool)
    (entry : Role × Nat) (h : anchor ∈ form.map Prod.snd) :
    (insertBeside anchor after entry form).Perm (entry :: form) := by
  induction form with
  | nil => cases h
  | cons other rest ih =>
    rw [insertBeside]
    split
    · split
      · exact .swap _ _ _
      · exact .refl _
    · rename_i hne
      rcases List.mem_cons.1 h with heq | hmem
      · exact absurd heq.symm hne
      · exact ((ih hmem).cons other).trans (.swap _ _ _)

theorem WellFormed.insertSibling (h : a.WellFormed) (htoken : token < a.size) (anchor : Nat)
    (after : Bool) : (a.insertSibling anchor token after).1.WellFormed := by
  unfold Arena.insertSibling
  split
  · rename_i parent anchorRole _ _
    dsimp only
    split
    · exact h
    · rename_i kind hcheck
      split
      · rename_i hanchor
        refine h.move hcheck htoken (fun slot heq => ?_)
          (insertBeside_perm after _ (List.contains_iff_mem.1 hanchor))
        cases anchorRole <;> cases heq
      · exact h.detach token
  · exact h

/-- A token with a parent has a role. -/
theorem Linked.role?_eq_some (h : a.Linked) (hparent : a.parent? token = some node) :
    ∃ role, a.role? token = some role ∧ (role, token) ∈ a.form node := by
  obtain ⟨role, hmem⟩ := h.exists_entry hparent
  have hfound : ((a.form node).find? fun entry => entry.2 == token).isSome := by
    simpa using ⟨role, hmem⟩
  obtain ⟨entry, hentry⟩ := Option.isSome_iff_exists.1 hfound
  have htoken : entry.2 = token := by simpa using List.find?_some hentry
  refine ⟨entry.1, ?_, htoken ▸ List.mem_of_find?_eq_some hentry⟩
  simp [role?, hparent, hentry]

/-- A token that stands in a form has one role there. -/
theorem Linked.role_eq (h : a.Linked) (hparent : a.parent? token = some node)
    (hrole : a.role? token = some role) {entry : Role × Nat} (hmem : entry ∈ a.form node)
    (htoken : entry.2 = token) : entry.1 = role := by
  obtain ⟨role', hrole', hmem'⟩ := h.role?_eq_some hparent
  obtain rfl : role = role' := Option.some.inj (hrole.symm.trans hrole')
  exact congrArg Prod.fst (List.inj_on_of_nodup_map (h.nodup node) hmem hmem' htoken)

/-- A token stands once in a form. -/
theorem Linked.ne_of_beside (h : a.Linked) {token : Nat} {before after : List (Role × Nat)}
    (hform : a.form node = before ++ (role, token) :: after) {entry : Role × Nat}
    (hentry : entry ∈ before ++ after) : entry.2 ≠ token := by
  intro heq
  have hnodup := h.nodup node
  rw [children, hform] at hnodup
  have hperm : (before ++ (role, token) :: after).Perm ((role, token) :: (before ++ after)) :=
    List.perm_middle
  have hnot := (List.nodup_cons.1 ((hperm.map Prod.snd).nodup_iff.1 hnodup)).1
  exact hnot (List.mem_map.2 ⟨entry, hentry, heq⟩)

/-- Of the entries of a node only that of the token is replaced. -/
theorem Linked.map_substitute (h : a.Linked) {old new : Nat} {before after : List (Role × Nat)}
    (hform : a.form node = before ++ (role, old) :: after) :
    (a.form node).map (fun entry => if entry.2 = old then (role, new) else entry) =
      before ++ (role, new) :: after := by
  have hmap (entries : List (Role × Nat)) (hsub : entries ⊆ before ++ after) :
      entries.map (fun entry => if entry.2 = old then (role, new) else entry) = entries := by
    refine (List.map_congr_left fun entry hentry => ?_).trans entries.map_id
    rw [if_neg (h.ne_of_beside hform (hsub hentry)), id]
  rw [hform, List.map_append, List.map_cons, if_pos rfl, hmap before (List.subset_append_left _ _),
    hmap after (List.subset_append_right _ _)]

theorem WellFormed.replace {new : Nat} (h : a.WellFormed) (hnew : new < a.size) (old : Nat) :
    (a.replace old new).1.WellFormed := by
  unfold Arena.replace
  split
  · exact h
  rename_i parent hparent
  split
  · exact h
  rename_i hne
  split
  · exact h
  rename_i role hrole
  split
  · exact h
  rename_i hcycle
  obtain ⟨hnode, hbelow⟩ := not_or.1 hcycle
  have hway : ¬ TransGen a.IsParent new parent := fun hway =>
    hbelow ((isAncestor_iff h.linked h.acyclic).2 hway)
  obtain ⟨role', hrole', hmem⟩ := h.linked.role?_eq_some hparent
  obtain rfl : role = role' := Option.some.inj (hrole.symm.trans hrole')
  obtain ⟨kind, hkind⟩ :=
    exists_nodeKind_of_mem_children ((h.linked.parent_iff old parent).1 hparent)
  have hmem' : (role, old) ∈ (a.detach new).1.form parent := by
    rw [form_detach h.linked]
    exact List.mem_filter.2 ⟨hmem, by simpa using fun heq : old = new => hne heq.symm⟩
  obtain ⟨before, after, hform⟩ := List.append_of_mem hmem'
  have hdetach := h.detach new
  dsimp only
  rw [attach_eq_const, form_setParent, hdetach.linked.map_substitute hform]
  exact hdetach.substitute (by simpa using hkind) hform (by simpa using hnew)
    (by rw [parent?_detach, if_pos rfl]) (fun heq => hnode heq.symm) (not_transGen_detach hway new)

end Arena

end ScriptTree
