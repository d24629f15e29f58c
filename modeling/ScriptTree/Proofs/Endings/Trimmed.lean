import ScriptTree.Proofs.Groups
import ScriptTree.Proofs.Structure.Branches

/-!
# Trimmed trees

Trivia behind the last child that has a place in a node belong to the node around it. The exception
is an entry of a dictionary without a value: it takes up trivia as long as the value may come. What
a form holds while it is being read is kept neat, so that the node it becomes is trimmed.
-/

namespace ScriptTree

namespace Form

/-- The last child has a place. -/
def EndsPlaced (form : List Entry) : Prop :=
  (roles form).getLast? ≠ some .extra

/-- A node in which only extras are trivia, and which ends with a child that has a place unless it
waits for its value. -/
structure IsTrimmed (kind : NodeKind) (form : List Entry) : Prop where
  placed : ∀ entry ∈ form, entry.1 ≠ .extra → entry.2.isTrivia = false
  ends : EndsPlaced form ∨ kind = .keyValue ∧ .slot .value ∉ roles form
  /-- A link of a chain holds no items, behind which its `else` would not come last. -/
  link : kind = .ifStatement → .item ∉ roles form

end Form

/-- A tree of trimmed nodes, each of whose leaves holds text. -/
inductive Tree.Trimmed : Tree → Prop
  | leaf (kind : LeafKind) {s : String} (extent : Extent) (text : s ≠ "") :
    Trimmed (.leaf kind s extent)
  | node {kind : NodeKind} {form : List Entry} (extent : Extent) (own : Form.IsTrimmed kind form)
    (children : ∀ entry ∈ form, Trimmed entry.2) : Trimmed (.node kind form extent)

/-- A form of trimmed trees, of which only extras are trivia. -/
structure Form.Neat (form : List Entry) : Prop where
  trimmed : ∀ entry ∈ form, entry.2.Trimmed
  placed : ∀ entry ∈ form, entry.1 ≠ .extra → entry.2.isTrivia = false

namespace Tree

variable {t : Tree} {form : List Entry}

theorem trimmed_ofText (kind : LeafKind) {s : String} (h : s ≠ "") : (ofText kind s).Trimmed :=
  .leaf _ _ h

/-- A mark holds its character. -/
theorem trimmed_ofPunct (mark : Punct) : (ofPunct mark).Trimmed :=
  trimmed_ofText _ (by cases mark <;> decide)

/-- The kind of a leaf does not matter. -/
theorem Trimmed.withLeafKind (h : t.Trimmed) (kind : LeafKind) : (t.withLeafKind kind).Trimmed := by
  cases h with
  | leaf kind' extent text => exact .leaf _ _ text
  | node extent own children => exact .node _ own children

theorem Trimmed.invalidated (h : t.Trimmed) : t.invalidated.Trimmed :=
  h.withLeafKind _

/-- A token that becomes another kind of token is no trivia unless it becomes trivia. -/
theorem isTrivia_withLeafKind {kind : LeafKind} (h : kind.isTrivia = false) (t : Tree) :
    (t.withLeafKind kind).isTrivia = false := by
  cases t with
  | leaf kind' s extent => exact h
  | node kind' form extent => rfl

/-- A reserved word is no trivia. -/
theorem isTrivia_of_keyword? {kw : Keyword} (h : t.keyword? = some kw) : t.isTrivia = false := by
  obtain ⟨kind, hkind, hkw⟩ := Option.bind_eq_some_iff.1 h
  rw [isTrivia, hkind]
  cases kind <;> first | cases hkw; done | rfl

end Tree

namespace Form

variable {form more : List Entry} {role : Role} {kind : NodeKind} {slot : Slot} {t : Tree}
  {tokens : List Tree}

/-! ### Neat forms -/

@[simp]
theorem neat_nil : Neat [] := ⟨by simp, by simp⟩

theorem neat_append : Neat (form ++ more) ↔ Neat form ∧ Neat more := by
  constructor
  · intro h
    exact ⟨⟨fun entry hentry => h.trimmed entry (List.mem_append_left _ hentry),
      fun entry hentry => h.placed entry (List.mem_append_left _ hentry)⟩,
      fun entry hentry => h.trimmed entry (List.mem_append_right _ hentry),
      fun entry hentry => h.placed entry (List.mem_append_right _ hentry)⟩
  · rintro ⟨hform, hmore⟩
    refine ⟨fun entry hentry => ?_, fun entry hentry => ?_⟩
    · exact (List.mem_append.1 hentry).elim (hform.trimmed entry) (hmore.trimmed entry)
    · exact (List.mem_append.1 hentry).elim (hform.placed entry) (hmore.placed entry)

theorem neat_singleton (ht : t.Trimmed) (hplaced : role ≠ .extra → t.isTrivia = false) :
    Neat [(role, t)] :=
  ⟨by simpa using ht, by simpa using hplaced⟩

theorem neat_cons :
    Neat ((role, t) :: form) ↔ (t.Trimmed ∧ (role ≠ .extra → t.isTrivia = false)) ∧ Neat form := by
  rw [← List.singleton_append, neat_append]
  exact and_congr_left fun _ =>
    ⟨fun h => ⟨by simpa using h.trimmed, by simpa using h.placed⟩, fun h => neat_singleton h.1 h.2⟩

/-- Any trimmed trees may be extras. -/
theorem neat_extras : Neat (extras tokens) ↔ ∀ t ∈ tokens, t.Trimmed := by
  constructor
  · exact fun h t ht => h.trimmed (.extra, t) (List.mem_map.2 ⟨t, ht, rfl⟩)
  · refine fun h => ⟨fun entry hentry => ?_,
      fun entry hentry hrole => absurd (role_of_mem_extras hentry) hrole⟩
    obtain ⟨t, ht, rfl⟩ := List.mem_map.1 hentry
    exact h t ht

theorem Neat.extras (h : Neat form) (htokens : ∀ t ∈ tokens, t.Trimmed) :
    Neat (form ++ extras tokens) :=
  neat_append.2 ⟨h, neat_extras.2 htokens⟩

/-- Putting a child into a slot brings nothing else into a form. -/
theorem mem_of_mem_setSlot {entry : Entry} (h : entry ∈ setSlot kind slot t form) :
    entry = (.slot slot, t) ∨ entry ∈ form := by
  unfold setSlot at h
  split at h
  · rename_i hreplace
    obtain ⟨before, after, rfl, rfl⟩ := exists_of_replaceSlot? hreplace
    rcases List.mem_append.1 h with h | h
    · exact .inr (List.mem_append_left _ h)
    · rcases List.mem_cons.1 h with rfl | h
      · exact .inl rfl
      · exact .inr (List.mem_append_right _ (List.mem_cons_of_mem _ h))
  · exact List.mem_cons.1 ((insertSlot_perm kind slot t form).mem_iff.1 h)

/-- A child that is no trivia may be put into a slot. -/
theorem Neat.setSlot (h : Neat form) (ht : t.Trimmed) (hplaced : t.isTrivia = false) :
    Neat (setSlot kind slot t form) := by
  refine ⟨fun entry hentry => ?_, fun entry hentry hrole => ?_⟩
  · rcases mem_of_mem_setSlot hentry with rfl | hentry
    · exact ht
    · exact h.trimmed entry hentry
  · rcases mem_of_mem_setSlot hentry with rfl | hentry
    · exact hplaced
    · exact h.placed entry hentry hrole

/-- A child that is placed in a form. -/
theorem place_promises (kind : NodeKind) (slot : Slot) (t : Tree) (form : List Entry) :
    Promises (place kind slot t form) (· = Form.setSlot kind slot t form) :=
  (promises_true _).bind fun _ _ => promises_pure.2 rfl

theorem Neat.place (h : Neat form) (ht : t.Trimmed) (hplaced : t.isTrivia = false) :
    Promises (place kind slot t form) Neat :=
  (place_promises kind slot t form).mono fun _ hform => hform ▸ h.setSlot ht hplaced

theorem Neat.addItem (h : Neat form) (ht : t.Trimmed) (hplaced : t.isTrivia = false) :
    Promises (addItem kind t form) Neat :=
  (promises_true _).bind fun _ _ =>
    promises_pure.2 (neat_append.2 ⟨h, neat_singleton ht fun _ => hplaced⟩)

/-- A neat form without items. -/
structure Itemless (form : List Entry) : Prop extends Neat form where
  item : .item ∉ roles form

theorem itemless_nil : Itemless [] := ⟨neat_nil, by simp⟩

/-- No child becomes an item in a slot. -/
theorem Itemless.setSlot (h : Itemless form) (ht : t.Trimmed) (hplaced : t.isTrivia = false) :
    Itemless (Form.setSlot kind slot t form) := by
  refine ⟨h.toNeat.setSlot ht hplaced, fun hitem => ?_⟩
  obtain ⟨entry, hentry, hrole⟩ := List.mem_map.1 hitem
  rcases mem_of_mem_setSlot hentry with rfl | hentry
  · cases hrole
  · exact h.item (hrole ▸ mem_roles hentry)

theorem Itemless.place (h : Itemless form) (ht : t.Trimmed) (hplaced : t.isTrivia = false) :
    Promises (Form.place kind slot t form) Itemless :=
  (place_promises kind slot t form).mono fun _ hform => hform ▸ h.setSlot ht hplaced

theorem Itemless.extras (h : Itemless form) (htokens : ∀ t ∈ tokens, t.Trimmed) :
    Itemless (form ++ Form.extras tokens) :=
  ⟨h.toNeat.extras htokens, by simpa using h.item⟩

/-! ### Trimmed nodes -/

/-- A child with a place ends a form. -/
theorem endsPlaced_append_singleton (form : List Entry) (hrole : role ≠ .extra) :
    EndsPlaced (form ++ [(role, t)]) := by
  simpa [EndsPlaced] using hrole

/-- What is left when trailing extras are split off is neat, and so are they. -/
theorem Neat.splitTrailing (h : Neat form) :
    Neat (splitTrailing form).1 ∧ ∀ t ∈ (Form.splitTrailing form).2, t.Trimmed := by
  rw [← append_extras_of_splitTrailing form, neat_append, neat_extras] at h
  exact h

theorem endsPlaced_splitTrailing (form : List Entry) : EndsPlaced (splitTrailing form).1 := by
  intro hlast
  obtain ⟨before, role, t, heq⟩ : ∃ before role t, (splitTrailing form).1 = before ++ [(role, t)] := by
    rcases List.eq_nil_or_concat (splitTrailing form).1 with hnil | ⟨before, ⟨role, t⟩, heq⟩
    · rw [hnil] at hlast
      cases hlast
    · exact ⟨before, role, t, by rw [heq, List.concat_eq_append]⟩
  rw [heq] at hlast
  exact ne_extra_of_splitTrailing heq (by simpa using hlast)

theorem roles_splitTrailing_subset (form : List Entry) :
    roles (splitTrailing form).1 ⊆ roles form := by
  conv => rhs; rw [← append_extras_of_splitTrailing form, roles_append]
  exact List.subset_append_left _ _

/-- A neat form that ends with a child that has a place becomes a trimmed node. -/
theorem Neat.trimmed_node (h : Neat form) (hends : EndsPlaced form)
    (hlink : kind = .ifStatement → .item ∉ roles form) (extent : Extent) :
    (Tree.node kind form extent).Trimmed :=
  .node _ ⟨h.placed, .inl hends, hlink⟩ h.trimmed

/-- Once the trailing extras are split off, a neat form becomes a trimmed node. -/
theorem Neat.trimmed_splitTrailing (h : Neat form)
    (hlink : kind = .ifStatement → .item ∉ roles form) :
    (Tree.ofForm kind (Form.splitTrailing form).1).Trimmed :=
  h.splitTrailing.1.trimmed_node (endsPlaced_splitTrailing form)
    (fun hkind hitem => hlink hkind (roles_splitTrailing_subset form hitem)) _

/-- The children of a trimmed node are neat. -/
theorem neat_of_trimmed {extent : Extent} (h : (Tree.node kind form extent).Trimmed) :
    Neat form := by
  cases h with
  | node _ own children => exact ⟨children, own.placed⟩

/-- Of the children of a key and its value, none has to stand after the value. -/
theorem standsAfter_value {role : Role} (hrole : role ≠ .item) :
    standsAfter .keyValue .value role = false := by
  cases role with
  | slot other =>
    rw [← Bool.not_eq_true]
    intro hafter
    obtain ⟨hmem, place, otherPlace, hvalue, hother, hlt⟩ := standsAfter_slot hafter
    simp only [NodeKind.slots, List.mem_cons, List.not_mem_nil, or_false] at hmem
    rcases hmem with rfl | rfl | rfl | rfl <;> cases hvalue <;> cases hother <;> omega
  | item => exact absurd rfl hrole
  | extra => rfl

/-- The form of an entry of a dictionary that waits for its value. -/
structure Waits (form : List Entry) : Prop extends Itemless form where
  value : .slot .value ∉ roles form

/-- An entry without its value is trimmed. -/
theorem Waits.trimmed_ofForm (h : Waits form) : (Tree.ofForm .keyValue form).Trimmed :=
  .node _ ⟨h.placed, .inr ⟨rfl, h.value⟩, by simp⟩ h.trimmed

/-- The value comes last, and completes the entry. -/
theorem Waits.place_value (h : Waits form) (ht : t.Trimmed) (hplaced : t.isTrivia = false) :
    Promises (Form.place .keyValue .value t form) fun form =>
      (Tree.ofForm .keyValue form).Trimmed := by
  refine (place_promises _ _ t form).mono fun form' hform' => ?_
  have hlast : Form.setSlot .keyValue .value t form = form ++ [(.slot .value, t)] := by
    refine setSlot_of_appends t fun entry hentry => ?_
    have hrole := mem_roles hentry
    exact ⟨fun heq => h.value (heq ▸ hrole), standsAfter_value fun heq => h.item (heq ▸ hrole)⟩
  have hneat : Neat (form ++ [(.slot .value, t)]) :=
    neat_append.2 ⟨h.toNeat, neat_singleton ht fun _ => hplaced⟩
  have hends : EndsPlaced (form ++ [(.slot .value, t)]) :=
    endsPlaced_append_singleton form (by simp)
  rw [hform', hlast]
  exact hneat.trimmed_node hends (by simp) .unplaced

/-- Any other part may be placed before. -/
theorem Waits.place (h : Waits form) (ht : t.Trimmed) (hplaced : t.isTrivia = false)
    (hslot : slot ≠ .value) : Promises (Form.place .keyValue slot t form) Waits := by
  refine (place_promises _ _ t form).mono fun form' hform' => ?_
  subst hform'
  refine ⟨h.toItemless.setSlot ht hplaced, fun hvalue => ?_⟩
  obtain ⟨entry, hentry, hrole⟩ := List.mem_map.1 hvalue
  rcases mem_of_mem_setSlot hentry with rfl | hentry
  · exact hslot (Role.slot.inj hrole)
  · exact h.value (hrole ▸ mem_roles hentry)

theorem Waits.extras (h : Waits form) (htokens : ∀ t ∈ tokens, t.Trimmed) :
    Waits (form ++ Form.extras tokens) :=
  ⟨h.toItemless.extras htokens, by simpa using h.value⟩

theorem waits_nil : Waits [] := ⟨itemless_nil, by simp⟩

/-- A slot is filled if a child has its role. -/
theorem mem_slots_iff : slot ∈ slots form ↔ .slot slot ∈ roles form := by
  induction form with
  | nil => simp
  | cons entry rest ih =>
    obtain ⟨role, t⟩ := entry
    cases role <;> simp [ih]

end Form

/-! ### Chains of branches -/

namespace Branch

variable {change first second : List Entry → List Entry} {form form' : List Entry} {t t' : Tree}

/-- Nothing is changed in an `else` that is not there. -/
theorem updateElse?_eq_none (h : .elseBranch ∉ Form.slots form) :
    updateElse? change form = none := by
  induction form with
  | nil => rfl
  | cons entry rest ih =>
    obtain ⟨role, t⟩ := entry
    simp only [Form.slots_cons, List.mem_append, not_or] at h
    have hrole : role ≠ .slot .elseBranch := by
      rintro rfl
      simp at h
    rw [updateElse?, if_neg hrole, ih h.2]
    rfl

mutual

/-- Two changes of a chain, the first of which leaves it open, are one change after the other. -/
theorem updateTail?_comp
    (hfirst : ∀ form, .elseBranch ∉ Form.slots form → .elseBranch ∉ Form.slots (first form))
    (t : Tree) {t' : Tree} (h : updateTail? first t = some t') :
    updateTail? second t' = updateTail? (second ∘ first) t := by
  match t with
  | .leaf kind text extent => cases h
  | .node kind form extent =>
    obtain ⟨rfl, ⟨changed, helse, rfl⟩ | ⟨helse, rfl⟩⟩ := updateTail?_node h
    · have hsome : (updateElse? (second ∘ first) form).isSome := by
        rw [Option.isSome_iff_ne_none]
        intro hnone
        rw [updateElse?_eq_none (notMem_of_updateElse? hnone)] at helse
        cases helse
      obtain ⟨result, hresult⟩ := Option.isSome_iff_exists.1 hsome
      have hboth := updateElse?_comp hfirst form helse
      simp only [updateTail?, hboth, hresult]
      cases result <;> rfl
    · have hopen := notMem_of_updateElse? helse
      simp only [updateTail?, updateElse?_eq_none hopen, updateElse?_eq_none (hfirst form hopen),
        Function.comp_apply]

theorem updateElse?_comp
    (hfirst : ∀ form, .elseBranch ∉ Form.slots form → .elseBranch ∉ Form.slots (first form))
    (form : List Entry) {form' : List Entry} (h : updateElse? first form = some (some form')) :
    updateElse? second form' = updateElse? (second ∘ first) form := by
  match form with
  | [] => cases h
  | (role, t) :: rest =>
    obtain ⟨hrole, t', ht', rfl⟩ | ⟨hrole, changed, hchanged, rfl⟩ := updateElse?_cons h
    · rw [updateElse?, updateElse?, if_pos hrole, if_pos hrole, updateTail?_comp hfirst t ht']
    · rw [updateElse?, updateElse?, if_neg hrole, if_neg hrole, updateElse?_comp hfirst rest hchanged]

end

/-- A change of a link without an `else` keeps the link trimmed. -/
def KeepsTrimmed (change : List Entry → List Entry) : Prop :=
  ∀ form extent, (Tree.node .ifStatement form extent).Trimmed → .elseBranch ∉ Form.slots form →
    (Tree.node .ifStatement (change form) extent).Trimmed

mutual

/-- A change that keeps links trimmed keeps chains trimmed. -/
theorem trimmed_updateTail? (hchange : KeepsTrimmed change) (t : Tree) (ht : t.Trimmed) {t' : Tree}
    (h : updateTail? change t = some t') : t'.Trimmed ∧ t'.isTrivia = false := by
  match t with
  | .leaf kind text extent => cases h
  | .node kind form extent =>
    obtain ⟨rfl, ⟨changed, helse, rfl⟩ | ⟨helse, rfl⟩⟩ := updateTail?_node h
    · obtain ⟨hneat, hroles⟩ := neat_updateElse? hchange form (Form.neat_of_trimmed ht) helse
      cases ht with
      | node _ own _ =>
        have hends : Form.EndsPlaced form := own.ends.resolve_right (by simp)
        rw [Form.EndsPlaced, ← hroles] at hends
        exact ⟨hneat.trimmed_node hends (fun hkind => hroles ▸ own.link hkind) extent, rfl⟩
    · exact ⟨hchange form extent ht (notMem_of_updateElse? helse), rfl⟩

theorem neat_updateElse? (hchange : KeepsTrimmed change) (form : List Entry)
    (hform : Form.Neat form) {form' : List Entry} (h : updateElse? change form = some (some form')) :
    Form.Neat form' ∧ Form.roles form' = Form.roles form := by
  match form with
  | [] => cases h
  | (role, t) :: rest =>
    obtain ⟨ht, hrest⟩ := Form.neat_cons.1 hform
    obtain ⟨-, t', ht', rfl⟩ | ⟨-, changed, hchanged, rfl⟩ := updateElse?_cons h
    · obtain ⟨htrimmed, hplaced⟩ := trimmed_updateTail? hchange t ht.1 ht'
      exact ⟨Form.neat_cons.2 ⟨⟨htrimmed, fun _ => hplaced⟩, hrest⟩, rfl⟩
    · obtain ⟨hneat, hroles⟩ := neat_updateElse? hchange rest hrest hchanged
      exact ⟨Form.neat_cons.2 ⟨ht, hneat⟩, by simp [hroles]⟩

end

/-- The same in the last item of a list. -/
theorem updateLast?_comp
    (hfirst : ∀ form, .elseBranch ∉ Form.slots form → .elseBranch ∉ Form.slots (first form))
    (h : updateLast? first form = some form') :
    updateLast? second form' = updateLast? (second ∘ first) form := by
  obtain ⟨before, t, t', after, rfl, rfl, hafter, ht'⟩ := updateLast?_cases h
  rw [updateLast?_append before t' hafter, updateLast?_append before t hafter,
    updateTail?_comp hfirst t ht']

theorem neat_updateLast? (hchange : KeepsTrimmed change) (hform : Form.Neat form)
    (h : updateLast? change form = some form') : Form.Neat form' := by
  obtain ⟨before, t, t', after, rfl, rfl, -, ht'⟩ := updateLast?_cases h
  obtain ⟨hbefore, hrest⟩ := Form.neat_append.1 hform
  obtain ⟨ht, hbehind⟩ := Form.neat_cons.1 hrest
  obtain ⟨htrimmed, hplaced⟩ := trimmed_updateTail? hchange t ht.1 ht'
  exact Form.neat_append.2
    ⟨hbefore, Form.neat_cons.2 ⟨⟨htrimmed, fun _ => hplaced⟩, hbehind⟩⟩

/-- A branch behind extras keeps a link trimmed. -/
theorem keepsTrimmed_else {branch : Tree} (hbranch : branch.Trimmed)
    (hplaced : branch.isTrivia = false) {tokens : List Tree} (htokens : ∀ t ∈ tokens, t.Trimmed) :
    KeepsTrimmed (Form.setSlot .ifStatement .elseBranch branch ∘ (· ++ Form.extras tokens)) := by
  intro form extent hnode helse
  have hlink : .item ∉ Form.roles form := by
    cases hnode with
    | node _ own _ => exact own.link rfl
  have hitems : .item ∉ Form.roles (form ++ Form.extras tokens) := by simpa using hlink
  have hneat : Form.Neat (form ++ Form.extras tokens ++ [(.slot .elseBranch, branch)]) :=
    Form.neat_append.2
      ⟨(Form.neat_of_trimmed hnode).extras htokens, Form.neat_singleton hbranch fun _ => hplaced⟩
  have helse' : .slot .elseBranch ∉ Form.roles (form ++ Form.extras tokens) := by
    simpa using fun hmem => helse (Form.mem_slots_iff.2 hmem)
  rw [Function.comp_apply, setSlot_elseBranch hitems helse']
  exact hneat.trimmed_node (Form.endsPlaced_append_singleton _ (by simp))
    (fun _ => by simpa using hlink) extent

/-- A list that is neat once its last chain has got a further branch. -/
def Awaits (form : List Entry) : Prop :=
  ∀ branch : Tree, branch.Trimmed → branch.isTrivia = false → ∀ form',
    updateLast? (Form.setSlot .ifStatement .elseBranch branch) form = some form' → Form.Neat form'

/-- The lines before a branch may be moved to the end of the chain, which then ends with trivia
until the branch comes. -/
theorem awaits_updateLast? {tokens : List Tree} (hform : Form.Neat form)
    (htokens : ∀ t ∈ tokens, t.Trimmed)
    (h : updateLast? (· ++ Form.extras tokens) form = some form') : Awaits form' := by
  intro branch hbranch hplaced form'' hupdate
  rw [updateLast?_comp (fun form helse => by simpa using helse) h] at hupdate
  exact neat_updateLast? (keepsTrimmed_else hbranch hplaced htokens) hform hupdate

/-- A neat list stays neat with a further branch. -/
theorem awaits_of_neat (hform : Form.Neat form) : Awaits form := by
  intro branch hbranch hplaced form' hupdate
  have hnone : ∀ t ∈ ([] : List Tree), t.Trimmed := by simp
  have hchange := keepsTrimmed_else hbranch hplaced hnone
  simp only [Form.extras, List.map_nil, List.append_nil, Function.comp_def] at hchange
  exact neat_updateLast? hchange hform hupdate

end Branch

end ScriptTree
