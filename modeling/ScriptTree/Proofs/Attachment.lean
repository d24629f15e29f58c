import ScriptTree.Arena.Edit
import ScriptTree.Proofs.Ancestry
import ScriptTree.Proofs.Forms

/-!
# Taking tokens out and putting them in

Every change of structure is made of two steps: a token is taken out of the form in which it
stands, and a token that stands in no form is put into one. Both keep an arena well formed, the
second one if the node has a place for the token and does not stand below it.
-/

namespace ScriptTree

namespace Form

variable {α : Type} {kind : NodeKind} {form form' : List (Role × α)}

/-- A form suits a kind of nodes: no slot is filled twice, all filled slots are declared, and items
stand only where the kind holds items. -/
structure Suits (kind : NodeKind) (form : List (Role × α)) : Prop where
  slots_nodup : (slots form).Nodup
  declares : ∀ slot ∈ slots form, kind.declares slot
  hasItems : ∀ entry ∈ form, entry.1 = .item → kind.hasItems

theorem suits_nil (kind : NodeKind) : Suits kind ([] : List (Role × α)) := by
  constructor <;> simp

/-- The same children in another order fill the same slots. -/
theorem slots_perm (h : form.Perm form') : (slots form).Perm (slots form') :=
  h.filterMap _

theorem Suits.perm (h : Suits kind form) (hperm : form.Perm form') : Suits kind form' where
  slots_nodup := (slots_perm hperm).nodup_iff.1 h.slots_nodup
  declares slot hmem := h.declares slot ((slots_perm hperm).mem_iff.2 hmem)
  hasItems entry hmem := h.hasItems entry (hperm.mem_iff.2 hmem)

/-- Children may be left out. -/
theorem Suits.sublist (h : Suits kind form) (hsub : form'.Sublist form) : Suits kind form' where
  slots_nodup := h.slots_nodup.sublist (hsub.filterMap _)
  declares slot hmem := h.declares slot ((hsub.filterMap _).subset hmem)
  hasItems entry hmem := h.hasItems entry (hsub.subset hmem)

/-- A child may be added that the kind has a place for, into a slot only if it is empty. -/
theorem Suits.cons {role : Role} (h : Suits kind form) (hrole : kind.checkRole role = .ok ())
    (hslot : ∀ slot, role = .slot slot → slot ∉ slots form) (child : α) :
    Suits kind ((role, child) :: form) := by
  cases role with
  | slot slot =>
    have hempty := hslot slot rfl
    have hdeclares : kind.declares slot := by
      by_contra hnot
      simp [NodeKind.checkRole, hnot] at hrole
    refine ⟨by simpa using ⟨hempty, h.slots_nodup⟩, ?_, ?_⟩
    · simpa [hdeclares] using h.declares
    · simpa using fun entry child hmem => h.hasItems (entry, child) hmem
  | item =>
    have hitems : kind.hasItems := by
      by_contra hnot
      simp [NodeKind.checkRole, hnot] at hrole
    exact ⟨by simpa using h.slots_nodup, by simpa using h.declares, fun _ _ _ => hitems⟩
  | extra =>
    refine ⟨by simpa using h.slots_nodup, by simpa using h.declares, ?_⟩
    simpa using fun entry child hmem => h.hasItems (entry, child) hmem

/-- A single child that the kind has a place for. -/
theorem suits_singleton {role : Role} (hrole : kind.checkRole role = .ok ()) (child : α) :
    Suits kind [(role, child)] :=
  (suits_nil kind).cons hrole (by simp) child

/-- Extras have a place everywhere. -/
theorem suits_extras (kind : NodeKind) (children : List α) : Suits kind (extras children) where
  slots_nodup := by simp
  declares := by simp
  hasItems entry hmem hitem := by
    rw [role_of_mem_extras hmem] at hitem
    cases hitem

/-- Children may be added that fill other slots. -/
theorem Suits.append (h : Suits kind form) (h' : Suits kind form')
    (hother : ∀ slot ∈ slots form', slot ∉ slots form) : Suits kind (form ++ form') where
  slots_nodup := by
    rw [slots_append]
    refine List.nodup_append.2 ⟨h.slots_nodup, h'.slots_nodup, fun slot hmem other hmem' heq => ?_⟩
    exact hother other hmem' (heq ▸ hmem)
  declares slot hmem := by
    rw [slots_append] at hmem
    exact (List.mem_append.1 hmem).elim (h.declares slot) (h'.declares slot)
  hasItems entry hmem := (List.mem_append.1 hmem).elim (h.hasItems entry) (h'.hasItems entry)

/-- Declared slots, none of them filled twice, with extras between them. -/
theorem suits_of_declared (h : Declared kind form) (hnodup : (slots form).Nodup) :
    Suits kind form where
  slots_nodup := hnodup
  declares slot hmem := by
    obtain ⟨entry, hentry, hslot⟩ := List.mem_filterMap.1 hmem
    obtain hextra | ⟨other, hother, hdeclares⟩ := h entry hentry
    · rw [hextra] at hslot
      cases hslot
    · rw [hother] at hslot
      rwa [← Option.some.inj hslot]
  hasItems entry hentry hitem := by
    obtain hextra | ⟨slot, hslot, -⟩ := h entry hentry
    · cases hitem.symm.trans hextra
    · cases hitem.symm.trans hslot

/-- Whether a form suits a kind depends on the roles of the children only. -/
theorem Suits.of_roles {β : Type} {other : List (Role × β)} (h : Suits kind form)
    (hroles : other.map Prod.fst = form.map Prod.fst) : Suits kind other := by
  have hslots : slots other = slots form := by
    have hmap {γ : Type} (xs : List (Role × γ)) :
        slots xs = (xs.map Prod.fst).filterMap Role.slot? := by
      rw [List.filterMap_map]
      rfl
    rw [hmap, hmap, hroles]
  refine ⟨hslots ▸ h.slots_nodup, hslots ▸ h.declares, fun entry hmem hitem => ?_⟩
  have hrole : entry.1 ∈ form.map Prod.fst := hroles ▸ List.mem_map_of_mem hmem
  obtain ⟨entry', hmem', heq⟩ := List.mem_map.1 hrole
  exact h.hasItems entry' hmem' (heq.trans hitem)

/-- A child of a role that occurs in a form is admitted. -/
theorem Suits.checkRole (h : Suits kind form) {role : Role} {child : α}
    (hmem : (role, child) ∈ form) : kind.checkRole role = .ok () := by
  cases role with
  | slot slot =>
    have hslot : slot ∈ slots form := List.mem_filterMap.2 ⟨(.slot slot, child), hmem, rfl⟩
    simp [NodeKind.checkRole, h.declares slot hslot]
  | item => simp [NodeKind.checkRole, h.hasItems _ hmem rfl]
  | extra => rfl

end Form

namespace Arena

open Relation

variable {a : Arena} {id node token : Nat} {kind : NodeKind}

/-! ### What changes show -/

/-- Arenas with the same tokens are the same. -/
theorem ext_get? {a b : Arena} (h : ∀ id, a.get? id = b.get? id) : a = b := by
  obtain ⟨tokens⟩ := a
  obtain ⟨tokens'⟩ := b
  congr
  exact Array.ext_getElem? h

/-- The token of a name after another one was changed, or itself. -/
theorem get?_update (a : Arena) (id other : Nat) (change : Token → Token) :
    (a.update id change).get? other =
      if other = id then (a.get? other).map change else a.get? other := by
  split
  · rename_i heq
    rw [heq, get?_update_self]
  · rename_i hne
    exact get?_update_of_ne a change hne

@[simp]
theorem size_setParent (a : Arena) (id : Nat) (parent : Option Nat) :
    (a.setParent id parent).size = a.size :=
  size_update a id _

@[simp]
theorem size_updateForm (a : Arena) (node : Nat)
    (change : List (Role × Nat) → List (Role × Nat)) : (a.updateForm node change).size = a.size :=
  size_update a node _

@[simp]
theorem form_setParent (a : Arena) (id other : Nat) (parent : Option Nat) :
    (a.setParent id parent).form other = a.form other := by
  simp only [form, setParent, get?_update]
  split
  · cases a.get? other <;> rfl
  · rfl

@[simp]
theorem nodeKind?_setParent (a : Arena) (id other : Nat) (parent : Option Nat) :
    (a.setParent id parent).nodeKind? other = a.nodeKind? other := by
  simp only [nodeKind?, kind?, setParent, get?_update]
  split
  · cases a.get? other <;> rfl
  · rfl

@[simp]
theorem parent?_updateForm (a : Arena) (node id : Nat)
    (change : List (Role × Nat) → List (Role × Nat)) :
    (a.updateForm node change).parent? id = a.parent? id := by
  simp only [parent?, updateForm, get?_update]
  split
  · cases a.get? id with
    | none => rfl
    | some t => cases hbody : t.body <;> simp [Token.mapForm, hbody]
  · rfl

@[simp]
theorem nodeKind?_updateForm (a : Arena) (node id : Nat)
    (change : List (Role × Nat) → List (Role × Nat)) :
    (a.updateForm node change).nodeKind? id = a.nodeKind? id := by
  simp only [nodeKind?, kind?, updateForm, get?_update]
  split
  · cases a.get? id with
    | none => rfl
    | some t => cases hbody : t.body <;> simp [Token.mapForm, Token.kind, hbody]
  · rfl

/-- The parent of a token after one was given a parent. -/
theorem parent?_setParent (hid : id < a.size) (parent : Option Nat) (other : Nat) :
    (a.setParent id parent).parent? other = if other = id then parent else a.parent? other := by
  simp only [parent?, setParent, get?_update]
  split
  · rename_i heq
    rw [heq, get?, Array.getElem?_eq_getElem (show id < a.tokens.size from hid)]
    rfl
  · rfl

/-- The form of a token after the form of a node was changed. -/
theorem form_updateForm (hkind : a.nodeKind? node = some kind)
    (change : List (Role × Nat) → List (Role × Nat)) (other : Nat) :
    (a.updateForm node change).form other =
      if other = node then change (a.form node) else a.form other := by
  simp only [form, updateForm, get?_update]
  split
  · rename_i heq
    rw [heq]
    simp only [nodeKind?, kind?] at hkind
    cases htoken : a.get? node with
    | none => simp [htoken] at hkind
    | some t =>
      cases hbody : t.body with
      | leaf => simp [htoken, Token.kind, hbody, TokenKind.node?] at hkind
      | node => simp [Token.mapForm, Token.form, hbody]
  · rfl

/-- Only nodes have children. -/
theorem exists_nodeKind_of_mem_children (h : token ∈ a.children node) :
    ∃ kind, a.nodeKind? node = some kind := by
  simp only [children, form] at h
  cases htoken : a.get? node with
  | none => simp [htoken] at h
  | some t =>
    cases hbody : t.body with
    | leaf => simp [htoken, Token.form, hbody] at h
    | node kind _ =>
      exact ⟨kind, by simp [nodeKind?, kind?, htoken, Token.kind, hbody, TokenKind.node?]⟩

/-- A node is a token. -/
theorem lt_of_nodeKind? (hkind : a.nodeKind? node = some kind) : node < a.size := by
  by_contra hge
  have hnone : a.get? node = none := Array.getElem?_eq_none (Nat.le_of_not_lt hge)
  simp [nodeKind?, kind?, hnone] at hkind

/-- Changing a form twice is changing it by both changes. -/
theorem updateForm_updateForm (a : Arena) (node : Nat)
    (change change' : List (Role × Nat) → List (Role × Nat)) :
    (a.updateForm node change).updateForm node change' =
      a.updateForm node fun form => change' (change form) := by
  refine ext_get? fun id => ?_
  simp only [updateForm, get?_update]
  split
  · cases a.get? id with
    | none => rfl
    | some t => cases hbody : t.body <;> simp [Token.mapForm, hbody]
  · rfl

/-! ### Well-formed arenas -/

/-- Tokens and forms fit together: a token stands once in the form of its parent and in no other
form, no token is an ancestor of itself, and every form suits the kind of its node. -/
structure WellFormed (a : Arena) : Prop where
  linked : a.Linked
  acyclic : a.Acyclic
  suits : ∀ node kind, a.nodeKind? node = some kind → Form.Suits kind (a.form node)

/-- Whether parents and forms agree depends on them only. -/
theorem Linked.congr {a' : Arena} (h : a.Linked) (hparent : ∀ id, a'.parent? id = a.parent? id)
    (hform : ∀ id, a'.form id = a.form id) : a'.Linked := by
  refine ⟨fun token node => ?_, fun node => ?_⟩
  · rw [hparent, children, hform]
    exact h.parent_iff token node
  · rw [children, hform]
    exact h.nodup node

/-- Whether a token is an ancestor of itself depends on parents only. -/
theorem Acyclic.congr {a' : Arena} (h : a.Acyclic) (hparent : ∀ id, a'.parent? id = a.parent? id) :
    a'.Acyclic :=
  h.mono fun node token hp => by rwa [IsParent, hparent] at hp

/-- Whether an arena is well formed depends on parents, forms and the kinds of nodes only. -/
theorem WellFormed.congr {a' : Arena} (h : a.WellFormed)
    (hparent : ∀ id, a'.parent? id = a.parent? id) (hform : ∀ id, a'.form id = a.form id)
    (hkind : ∀ id, a'.nodeKind? id = a.nodeKind? id) : a'.WellFormed := by
  refine ⟨h.linked.congr hparent hform, h.acyclic.congr hparent, fun node kind hk => ?_⟩
  rw [hform]
  exact h.suits node kind (hkind node ▸ hk)

/-- A token whose parent is a node has an entry in the form of the node. -/
theorem Linked.exists_entry (h : a.Linked) (hparent : a.parent? token = some node) :
    ∃ role, (role, token) ∈ a.form node := by
  obtain ⟨⟨role, child⟩, hmem, rfl⟩ := List.mem_map.1 ((h.parent_iff token node).1 hparent)
  exact ⟨role, hmem⟩

/-- A form in which no token stands twice, without the entry of one token. -/
theorem dropEntry_eq_filter {form : List (Role × Nat)} (h : (form.map Prod.snd).Nodup)
    (token : Nat) : dropEntry token form = form.filter fun entry => entry.2 != token := by
  induction form with
  | nil => rfl
  | cons entry rest ih =>
    obtain ⟨hnot, hrest⟩ := List.nodup_cons.1 h
    by_cases heq : entry.2 = token
    · have hkeep : rest.filter (fun entry => entry.2 != token) = rest := by
        refine List.filter_eq_self.2 fun other hmem => ?_
        have hne : other.2 ≠ token := fun hother =>
          hnot (heq ▸ hother ▸ List.mem_map_of_mem hmem)
        simpa using hne
      simp [dropEntry, heq, hkeep]
    · have ih := ih hrest
      rw [dropEntry] at ih
      simp [dropEntry, heq, ih]

/-! ### Taking a token out -/

@[simp]
theorem size_detach (a : Arena) (token : Nat) : (a.detach token).1.size = a.size := by
  unfold detach
  split <;> simp

@[simp]
theorem nodeKind?_detach (a : Arena) (token id : Nat) :
    (a.detach token).1.nodeKind? id = a.nodeKind? id := by
  unfold detach
  split <;> simp

/-- The token that was taken out has no parent, and all others keep theirs. -/
theorem parent?_detach (a : Arena) (token id : Nat) :
    (a.detach token).1.parent? id = if id = token then none else a.parent? id := by
  unfold detach
  split
  · rename_i hparent
    split
    · rename_i heq
      rw [heq, hparent]
    · rfl
  · rename_i parent hparent
    have hlt : token < a.size := by
      by_contra hge
      rw [parent?_of_size_le (Nat.le_of_not_lt hge)] at hparent
      cases hparent
    simp [parent?_setParent hlt]

/-- A token from outside a node has no entry in its form. -/
theorem filter_form_of_parent?_ne (h : a.Linked) {token node : Nat}
    (hparent : a.parent? token ≠ some node) :
    (a.form node).filter (fun entry => entry.2 != token) = a.form node := by
  refine List.filter_eq_self.2 fun entry hmem => ?_
  have hne : entry.2 ≠ token := fun heq =>
    hparent ((h.parent_iff token node).2 (heq ▸ List.mem_map_of_mem hmem))
  simpa using hne

/-- The entry of the token that was taken out is gone. -/
theorem form_detach (h : a.Linked) (token node : Nat) :
    (a.detach token).1.form node = (a.form node).filter fun entry => entry.2 != token := by
  unfold detach
  split
  · rename_i hparent
    rw [filter_form_of_parent?_ne h (by simp [hparent])]
  · rename_i parent hparent
    obtain ⟨kind, hkind⟩ := exists_nodeKind_of_mem_children ((h.parent_iff token parent).1 hparent)
    have hkind' : (a.setParent token none).nodeKind? parent = some kind := by simpa using hkind
    rw [form_updateForm hkind', form_setParent, form_setParent]
    split
    · rename_i heq
      rw [heq, dropEntry_eq_filter (h.nodup parent)]
    · rename_i hne
      rw [filter_form_of_parent?_ne h fun hother => hne (Option.some.inj (hother.symm.trans hparent))]

/-- Taking a token out keeps the arena well formed. -/
theorem WellFormed.detach (h : a.WellFormed) (token : Nat) : (a.detach token).1.WellFormed := by
  have hform (node : Nat) := form_detach h.linked token node
  refine ⟨⟨fun id node => ?_, fun node => ?_⟩, h.acyclic.mono fun node id hp => ?_,
    fun node kind hkind => ?_⟩
  · rw [parent?_detach, children, hform]
    split
    · rename_i heq
      simp [heq]
    · rename_i hne
      rw [h.linked.parent_iff, children]
      simp only [List.mem_map, List.mem_filter, bne_iff_ne]
      refine exists_congr fun entry => ⟨?_, ?_⟩
      · rintro ⟨hmem, heq⟩
        exact ⟨⟨hmem, heq ▸ hne⟩, heq⟩
      · rintro ⟨⟨hmem, _⟩, heq⟩
        exact ⟨hmem, heq⟩
  · rw [children, hform]
    exact (h.linked.nodup node).sublist (List.filter_sublist.map _)
  · rw [IsParent, parent?_detach] at hp
    split at hp
    · cases hp
    · exact hp
  · rw [hform]
    exact (h.suits node kind (by simpa using hkind)).sublist List.filter_sublist

/-! ### Putting a token in -/

section Attach

variable {change : List (Role × Nat) → List (Role × Nat)}

@[simp]
theorem nodeKind?_attach (a : Arena) (node token id : Nat)
    (change : List (Role × Nat) → List (Role × Nat)) :
    (a.attach node token change).nodeKind? id = a.nodeKind? id := by
  simp [attach]

/-- The token that was put in has the node as its parent, and all others keep theirs. -/
theorem parent?_attach (htoken : token < a.size) (id : Nat) :
    (a.attach node token change).parent? id = if id = token then some node else a.parent? id := by
  rw [attach, parent?_setParent (by simpa using htoken)]
  simp

/-- Only the form of the node changes. -/
theorem form_attach (hkind : a.nodeKind? node = some kind) (id : Nat) :
    (a.attach node token change).form id =
      if id = node then change (a.form node) else a.form id := by
  rw [attach, form_setParent, form_updateForm hkind]

/-- A token that stands in no form may be put into the form of a node that has a place for it and
does not stand below it, wherever in the form it comes to stand. -/
theorem WellFormed.attach {role : Role} (h : a.WellFormed)
    (hkind : a.nodeKind? node = some kind) (htoken : token < a.size)
    (hdetached : a.parent? token = none) (hne : node ≠ token)
    (hbelow : ¬ TransGen a.IsParent token node) (hrole : kind.checkRole role = .ok ())
    (hslot : ∀ slot, role = .slot slot → slot ∉ Form.slots (a.form node))
    (hperm : (change (a.form node)).Perm ((role, token) :: a.form node)) :
    (a.attach node token change).WellFormed := by
  have hparent (id : Nat) : (a.attach node token change).parent? id = _ :=
    parent?_attach htoken id
  have hform (id : Nat) : (a.attach node token change).form id = _ := form_attach hkind id
  have hnowhere (other : Nat) : token ∉ a.children other := fun hmem => by
    rw [← h.linked.parent_iff, hdetached] at hmem
    cases hmem
  have hchildren : ((change (a.form node)).map Prod.snd).Perm (token :: a.children node) :=
    hperm.map Prod.snd
  refine ⟨⟨fun id other => ?_, fun other => ?_⟩, ?_, fun other otherKind hother => ?_⟩
  · rw [hparent, children, hform]
    by_cases hid : id = token
    · by_cases heq : other = node
      · simp [hid, heq, hchildren.mem_iff]
      · have hne' : node ≠ other := fun hother => heq hother.symm
        simpa [hid, heq, hne', children] using hnowhere other
    · rw [if_neg hid, h.linked.parent_iff]
      split
      · rename_i heq
        rw [hchildren.mem_iff, heq]
        simp [hid]
      · rfl
  · rw [children, hform]
    split
    · exact hchildren.nodup_iff.2 (List.nodup_cons.2 ⟨hnowhere node, h.linked.nodup node⟩)
    · exact h.linked.nodup other
  · refine h.acyclic.insert hne hbelow fun p c hp => ?_
    rw [IsParent, hparent] at hp
    split at hp
    · rename_i heq
      exact .inr ⟨(Option.some.inj hp).symm, heq⟩
    · exact .inl hp
  · rw [hform]
    rw [nodeKind?_attach] at hother
    split
    · rename_i heq
      obtain rfl : kind = otherKind := Option.some.inj (hkind.symm.trans (heq ▸ hother))
      exact ((h.suits node kind hkind).cons hrole hslot token).perm hperm.symm
    · exact h.suits other otherKind hother

end Attach

end Arena

end ScriptTree
