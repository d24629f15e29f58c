import Mathlib.Data.List.Sort
import ScriptTree.Proofs.ArenaRuns
import ScriptTree.Proofs.Copies

/-!
# Slots stay in their declared order

A child put into an empty slot goes before the first child that has to stand after it. So as long as
no child is put at the end of a form by way of a slot, no child comes to stand before a slot that it
has to stand after: the filled slots stand in the order in which the kind declares them, and opening
brackets stand before all items. Putting a token into a slot moves nothing else.
-/

namespace ScriptTree

/-- Beside a token that is not there, nothing is put in. -/
theorem Arena.insertBeside_of_notMem {anchor : Nat} {form : List (Role × Nat)} {after : Bool}
    {entry : Role × Nat} (h : anchor ∉ form.map Prod.snd) :
    insertBeside anchor after entry form = form := by
  induction form with
  | nil => rfl
  | cons other rest ih =>
    obtain ⟨hne, hrest⟩ := not_or.1 (mt List.mem_cons.2 h)
    rw [insertBeside, if_neg (Ne.symm hne), ih hrest]

namespace Form

variable {α : Type} {kind : NodeKind} {slot : Slot} {form : List (Role × α)} {child : α}

/-- No child stands before a slot that it has to stand after. -/
def Arranged (kind : NodeKind) (form : List (Role × α)) : Prop :=
  form.Pairwise fun entry later => ∀ slot, later.1 = .slot slot → standsAfter kind slot entry.1 = false

@[simp]
theorem arranged_nil (kind : NodeKind) : Arranged kind ([] : List (Role × α)) :=
  List.Pairwise.nil

/-- Whether a form is arranged depends on the roles of the children only. -/
theorem Arranged.of_roles {β : Type} {other : List (Role × β)} (h : Arranged kind form)
    (hroles : other.map Prod.fst = form.map Prod.fst) : Arranged kind other := by
  unfold Arranged at h ⊢
  rw [← List.pairwise_map (f := Prod.fst)
    (R := fun role later => ∀ slot, later = Role.slot slot → standsAfter kind slot role = false)]
    at h ⊢
  rwa [hroles]

/-- Children may be left out. -/
theorem Arranged.sublist {form' : List (Role × α)} (h : Arranged kind form)
    (hsub : form'.Sublist form) : Arranged kind form' :=
  List.Pairwise.sublist hsub h

/-- A child in no slot may be put at the end. -/
theorem Arranged.concat {role : Role} (h : Arranged kind form) (hrole : ∀ slot, role ≠ .slot slot)
    (child : α) : Arranged kind (form ++ [(role, child)]) := by
  refine List.pairwise_append.2 ⟨h, List.pairwise_singleton _ _, ?_⟩
  intro entry _ later hlater slot hslot
  obtain rfl := List.mem_singleton.1 hlater
  exact absurd hslot (hrole slot)

/-- What stands after a child that has to stand after a slot has to do so as well. -/
theorem standsAfter_trans {later : Slot} {role : Role} (h : standsAfter kind slot role = true)
    (hlater : standsAfter kind later role = false) :
    standsAfter kind later (.slot slot) = false := by
  cases hplace : kind.slotIndex? later with
  | none => simp [standsAfter, hplace]
  | some laterPlace =>
    cases hslot : kind.slotIndex? slot with
    | none => simp [standsAfter, hslot]
    | some place =>
      simp only [standsAfter, hplace, hslot, decide_eq_false_iff_not]
      cases role with
      | slot other =>
        cases hother : kind.slotIndex? other with
        | none => simp [standsAfter, hslot, hother] at h
        | some otherPlace =>
          simp only [standsAfter, hslot, hother, hplace, decide_eq_true_eq,
            decide_eq_false_iff_not] at h hlater
          omega
      | item =>
        simp only [standsAfter, hslot, hplace, decide_eq_true_eq, decide_eq_false_iff_not] at h hlater
        omega
      | extra => cases h

/-- No slot has to stand after itself. -/
theorem standsAfter_self (kind : NodeKind) (slot : Slot) :
    standsAfter kind slot (.slot slot) = false := by
  simp only [standsAfter]
  cases kind.slotIndex? slot <;> simp

/-- A child put into an empty slot comes to stand where it belongs. -/
theorem Arranged.insertSlot (h : Arranged kind form) (slot : Slot) (child : α) :
    Arranged kind (insertSlot kind slot child form) := by
  induction form with
  | nil => exact List.pairwise_singleton _ _
  | cons entry rest ih =>
    obtain ⟨hentry, hrest⟩ := List.pairwise_cons.1 h
    rw [Form.insertSlot]
    by_cases hafter : standsAfter kind slot entry.1 = true
    · rw [if_pos hafter]
      refine List.pairwise_cons.2 ⟨?_, h⟩
      intro later hlater other hother
      apply standsAfter_trans hafter
      rcases List.mem_cons.1 hlater with rfl | hlater
      · rw [hother]
        exact standsAfter_self kind other
      · exact hentry later hlater other hother
    · rw [if_neg hafter]
      refine List.pairwise_cons.2 ⟨?_, ih hrest⟩
      intro later hlater other hother
      rcases List.mem_cons.1 ((insertSlot_perm kind slot child rest).mem_iff.1 hlater) with
        rfl | hlater
      · obtain rfl := Role.slot.inj hother
        exact Bool.eq_false_iff.2 hafter
      · exact hentry later hlater other hother

/-- The filled slots of an arranged form stand in the order in which they are declared. -/
theorem Arranged.slots_sublist (h : Arranged kind form) (hsuits : Suits kind form) :
    (slots form).Sublist kind.slots := by
  -- distinct declared slots, each declared before all that stand after it
  let before (slot later : Slot) : Prop :=
    slot = later ∨ kind.slots.idxOf slot < kind.slots.idxOf later
  have hantisymm : Std.Antisymm before := by
    constructor
    rintro slot later (rfl | hlt) (heq | hgt)
    · rfl
    · rfl
    · exact heq.symm
    · omega
  have hsubset : slots form ⊆ kind.slots := fun slot hmem => by
    simpa [NodeKind.declares] using hsuits.declares slot hmem
  have hform : (slots form).Pairwise before := by
    have hpairs : (slots form).Pairwise fun slot later =>
        standsAfter kind later (.slot slot) = false := by
      refine List.Pairwise.filterMap _ ?_ h
      intro entry later hpair slot hslot other hother
      cases hentry : entry.1 with
      | slot place =>
        cases hlast : later.1 with
        | slot place' =>
          rw [hentry] at hslot hpair
          rw [hlast] at hother
          obtain rfl := Option.some.inj hslot
          obtain rfl := Option.some.inj hother
          exact hpair place' hlast
        | _ => simp [hlast] at hother
      | _ => simp [hentry] at hslot
    refine hpairs.imp_of_mem fun {slot later} hslot hlater hpair => ?_
    have hindex {slot : Slot} (hmem : slot ∈ slots form) :
        kind.slotIndex? slot = some (kind.slots.idxOf slot) := by
      obtain ⟨i, hi⟩ := Option.isSome_iff_exists.1 (List.isSome_idxOf?.2 (hsubset hmem))
      rw [NodeKind.slotIndex?, List.idxOf_eq_getD_idxOf?, hi, Option.getD_some]
    simp only [standsAfter, hindex hslot, hindex hlater, decide_eq_false_iff_not] at hpair
    by_cases heq : kind.slots.idxOf slot = kind.slots.idxOf later
    · exact .inl ((List.idxOf_inj (hsubset hslot)).1 heq)
    · exact .inr (by omega)
  have hkind : kind.slots.Pairwise before := by
    rw [List.pairwise_iff_getElem]
    intro i j hi hj hlt
    right
    rw [kind.slots_nodup.idxOf_getElem i hi, kind.slots_nodup.idxOf_getElem j hj]
    exact hlt
  exact List.sublist_of_subperm_of_pairwise (hsuits.slots_nodup.subperm hsubset) hform hkind

/-- Opening brackets are declared before closing ones. -/
theorem standsAfter_opening (hkind : kind.declares .opening) :
    standsAfter kind .opening .item = true := by
  cases kind <;> first | rfl | exact absurd hkind (by decide)

/-- Opening brackets stand before all items of an arranged form. -/
theorem Arranged.opening_notMem {before after : List (Role × α)}
    (h : Arranged kind (before ++ (.item, child) :: after))
    (hsuits : Suits kind (before ++ (.item, child) :: after)) : Slot.opening ∉ slots after := by
  intro hmem
  have hdeclared : kind.declares .opening := hsuits.declares _ (by simp [hmem])
  obtain ⟨entry, hentry, hslot⟩ := List.mem_filterMap.1 hmem
  have hrole : entry.1 = .slot .opening := by
    cases hrole : entry.1 <;> simp_all
  have hafter := (List.pairwise_cons.1 (List.pairwise_append.1 h).2.1).1 entry hentry _ hrole
  rw [standsAfter_opening hdeclared] at hafter
  cases hafter

/-- What stands in no slot may be put beside a child that has a place for it. -/
theorem Arranged.insertBeside {form : List (Role × Nat)} (h : Arranged kind form) {anchor : Nat}
    {role : Role} (after : Bool) (token : Nat)
    (hrole : ∀ entry ∈ form, entry.2 = anchor → role = entry.1.beside) :
    Arranged kind (Arena.insertBeside anchor after (role, token) form) := by
  induction form with
  | nil => exact h
  | cons other rest ih =>
    obtain ⟨hother, hrest⟩ := List.pairwise_cons.1 h
    have hnoslot (role : Role) (slot : Slot) : role.beside ≠ .slot slot := by cases role <;> nofun
    rw [Arena.insertBeside]
    by_cases hanchor : other.2 = anchor
    · rw [if_pos hanchor]
      obtain rfl := hrole other List.mem_cons_self hanchor
      -- where the neighbour may stand, its new neighbour may
      have hbeside (later : Role × Nat) (hlater : later ∈ rest) (slot : Slot)
          (hslot : later.1 = .slot slot) : standsAfter kind slot other.1.beside = false := by
        have hbefore := hother later hlater slot hslot
        cases hrole : other.1 with
        | item => rwa [hrole] at hbefore
        | slot _ => rfl
        | extra => rfl
      have hnew : Arranged kind ((other.1.beside, token) :: rest) :=
        List.pairwise_cons.2 ⟨hbeside, hrest⟩
      cases after with
      | true =>
        refine List.pairwise_cons.2 ⟨?_, hnew⟩
        intro later hlater slot hslot
        rcases List.mem_cons.1 hlater with rfl | hlater
        · exact absurd hslot (hnoslot _ _)
        · exact hother later hlater slot hslot
      | false =>
        refine List.pairwise_cons.2 ⟨?_, h⟩
        intro later hlater slot hslot
        rcases List.mem_cons.1 hlater with rfl | hlater
        · rw [hslot]
          rfl
        · exact hbeside later hlater slot hslot
    · rw [if_neg hanchor]
      have hrole' (entry : Role × Nat) (hmem : entry ∈ rest) :=
        hrole entry (List.mem_cons_of_mem other hmem)
      by_cases hmem : anchor ∈ rest.map Prod.snd
      · refine List.pairwise_cons.2 ⟨?_, ih hrest hrole'⟩
        intro later hlater slot hslot
        rcases List.mem_cons.1 ((Arena.insertBeside_perm after _ hmem).mem_iff.1 hlater) with
          rfl | hlater
        · obtain ⟨entry, hentry, heq⟩ := List.mem_map.1 hmem
          exact absurd hslot (hrole' entry hentry heq ▸ hnoslot entry.1 slot)
        · exact hother later hlater slot hslot
      · rw [Arena.insertBeside_of_notMem hmem]
        exact h

/-- The occupant of a slot is the child that stands in it. -/
theorem Suits.occupant? {before after : List (Role × α)}
    (h : Suits kind (before ++ (.slot slot, child) :: after)) :
    occupant? slot (before ++ (.slot slot, child) :: after) = some child := by
  have hnot : before.find? (fun entry => entry.1 == .slot slot) = none := by
    have hslot := h.slot_notMem
    rw [slots_append, List.mem_append, not_or, ← occupant?_eq_none_iff] at hslot
    exact Option.map_eq_none_iff.1 hslot.1
  simp [Form.occupant?, List.find?_append, hnot]

/-- A child that is put into an empty slot leaves all others where they are. -/
theorem filter_insertSlot (form : List (Role × α)) :
    (insertSlot kind slot child form).filter (·.1 ≠ .slot slot) =
      form.filter (·.1 ≠ .slot slot) := by
  induction form with
  | nil => simp [insertSlot]
  | cons entry rest ih =>
    rw [insertSlot]
    split
    · simp
    · rw [List.filter_cons, List.filter_cons, ih]

end Form

namespace Arena

variable {a a' : Arena} {node token : Nat} {kind : NodeKind}

/-- In no node of the arena a child stands before a slot that it has to stand after. -/
def Arranged (a : Arena) : Prop :=
  ∀ node kind, a.nodeKind? node = some kind → Form.Arranged kind (a.form node)

/-! ### One operation -/

theorem arranged_empty : Arranged {} := by
  intro node kind hkind
  simp [nodeKind?, kind?, get?] at hkind

/-- New tokens have no children. -/
theorem Arranged.alloc (h : a.Arranged) {body : TokenBody}
    (hform : Token.form { body } = []) : (a.alloc body).1.Arranged := by
  intro node kind hkind
  rcases Nat.lt_trichotomy node a.size with hlt | rfl | hgt
  · have hsame := get?_alloc_of_lt a body hlt
    rw [form, hsame]
    refine h node kind ?_
    rwa [nodeKind?, kind?, hsame] at hkind
  · rw [form, Arena.alloc, get?_push_self, Option.map_some, Option.getD_some, hform]
    exact Form.arranged_nil kind
  · have hsize := lt_of_nodeKind? hkind
    rw [Arena.alloc, size_push] at hsize
    omega

/-- A change to one token that shows neither in forms nor in the kinds of nodes. -/
theorem Arranged.update (h : a.Arranged) (id : Nat) {change : Token → Token}
    (hchange : ∀ t, (change t).form = t.form ∧ (change t).kind.node? = t.kind.node?) :
    (a.update id change).Arranged := by
  intro node kind
  have hsame : (a.update id change).form node = a.form node ∧
      (a.update id change).nodeKind? node = a.nodeKind? node := by
    simp only [form, nodeKind?, kind?, get?_update]
    split
    · cases a.get? node with
      | none => simp
      | some t => simpa using hchange t
    · simp
  rw [hsame.1, hsame.2]
  exact h node kind

theorem Arranged.setLeafKind (h : a.Arranged) (token : Nat) (kind : LeafKind) :
    (a.setLeafKind token kind).Arranged := by
  refine h.update token fun t => ?_
  cases hbody : t.body <;> simp [Token.form, Token.kind, hbody, TokenKind.node?]

/-- Taking a token out leaves the others where they are. -/
theorem Arranged.detach (h : a.Arranged) (hlinked : a.Linked) (token : Nat) :
    (a.detach token).1.Arranged := by
  intro node kind hkind
  rw [nodeKind?_detach] at hkind
  rw [form_detach hlinked]
  exact (h node kind hkind).sublist List.filter_sublist

/-- A token may be put where it does not stand before a slot that it has to stand after. -/
theorem Arranged.attach (h : a.Arranged) {change : List (Role × Nat) → List (Role × Nat)}
    (hkind : a.nodeKind? node = some kind)
    (hform : Form.Arranged kind (change (a.form node))) : (a.attach node token change).Arranged := by
  intro other otherKind hother
  rw [nodeKind?_attach] at hother
  rw [form_attach hkind]
  split
  · rename_i heq
    subst heq
    obtain rfl : kind = otherKind := Option.some.inj (hkind.symm.trans hother)
    exact hform
  · exact h other otherKind hother

/-- Changing the parent of a token changes no form. -/
theorem Arranged.setParent (h : a.Arranged) (token : Nat) (parent : Option Nat) :
    (a.setParent token parent).Arranged := by
  intro node kind hkind
  rw [nodeKind?_setParent] at hkind
  rw [form_setParent]
  exact h node kind hkind

/-- A token that is pushed in no slot comes to stand after all slots. -/
theorem Arranged.push (h : a.Arranged) (hwell : a.WellFormed) (node token : Nat) {role : Role}
    (hrole : ∀ slot, role ≠ .slot slot) : (a.push node token role).1.Arranged := by
  have happend {kind : NodeKind} (hcheck : a.checkAttach node token role = .ok kind) :
      ((a.detach token).1.attach node token (· ++ [(role, token)])).Arranged := by
    have hkind := (hwell.checkAttach_eq_ok hcheck).1
    have hdetach := h.detach hwell.linked token
    rw [← nodeKind?_detach a token] at hkind
    exact hdetach.attach hkind ((hdetach node kind hkind).concat hrole token)
  unfold Arena.push
  split
  · exact h
  · rename_i kind hcheck
    cases role with
    | slot slot => exact absurd rfl (hrole slot)
    | item | extra => exact happend hcheck

/-- A token that is put into a slot is taken out of its form, and takes the place of the occupant
that is left then, or the place that the slot has in its node. -/
theorem WellFormed.setSlot_cases (h : a.WellFormed) {slot : Slot} {previous : Option Nat}
    (hset : a.setSlot node slot token = (a', .ok previous)) :
    ∃ kind, a.nodeKind? node = some kind ∧ node ≠ token ∧
      ((∃ old before after, previous = some old ∧
          (a.detach token).1.form node = before ++ (.slot slot, old) :: after ∧
          a' = ((a.detach token).1.setParent old none).attach node token
            fun _ => before ++ (.slot slot, token) :: after) ∨
        (previous = none ∧ slot ∉ Form.slots ((a.detach token).1.form node) ∧
          a' = (a.detach token).1.attach node token (Form.insertSlot kind slot token))) := by
  unfold Arena.setSlot at hset
  split at hset
  · cases hset
  rename_i kind hcheck
  obtain ⟨hkind, hne, -, -⟩ := h.checkAttach_eq_ok hcheck
  refine ⟨kind, hkind, hne, ?_⟩
  dsimp only at hset
  split at hset
  · rename_i old form hreplace
    obtain ⟨before, after, hold, rfl⟩ := Form.exists_of_replaceSlot? hreplace
    obtain ⟨rfl, hprevious⟩ := Prod.mk.inj hset
    exact .inl ⟨old, before, after, (Except.ok.inj hprevious).symm, hold, rfl⟩
  · rename_i hreplace
    obtain ⟨rfl, hprevious⟩ := Prod.mk.inj hset
    exact .inr ⟨(Except.ok.inj hprevious).symm, Form.slot_notMem_of_replaceSlot? hreplace, rfl⟩

/-- A token that is put into a slot comes to stand where it does not stand before a slot that it has
to stand after. -/
theorem Arranged.setSlot (h : a.Arranged) (hwell : a.WellFormed) (node : Nat) (slot : Slot)
    (token : Nat) : (a.setSlot node slot token).1.Arranged := by
  rcases hset : a.setSlot node slot token with ⟨a', e | previous⟩
  · rwa [setSlot_refused hset]
  have hdetach := h.detach hwell.linked token
  obtain ⟨kind, hkind, -, hcases⟩ := hwell.setSlot_cases hset
  rw [← nodeKind?_detach a token] at hkind
  have hform := hdetach node kind hkind
  rcases hcases with ⟨old, before, after, -, hold, rfl⟩ | ⟨-, -, rfl⟩
  · apply (hdetach.setParent old none).attach (by rwa [nodeKind?_setParent])
    rw [hold] at hform
    exact hform.of_roles (by simp)
  · exact hdetach.attach hkind (hform.insertSlot slot token)

/-- A token that is put beside another one comes to stand in no slot. -/
theorem Arranged.insertSibling (h : a.Arranged) (hwell : a.WellFormed) (anchor token : Nat)
    (after : Bool) : (a.insertSibling anchor token after).1.Arranged := by
  have hdetach := h.detach hwell.linked token
  unfold Arena.insertSibling
  split
  · rename_i parent anchorRole hparent hrole
    dsimp only
    split
    · exact h
    · rename_i kind hcheck
      split
      · have hkind := (hwell.checkAttach_eq_ok hcheck).1
        rw [← nodeKind?_detach a token] at hkind
        refine hdetach.attach hkind ((hdetach parent kind hkind).insertBeside after token ?_)
        intro entry hentry heq
        rw [form_detach hwell.linked] at hentry
        rw [hwell.linked.role_eq hparent hrole (List.mem_filter.1 hentry).1 heq]
      · exact hdetach
  · exact h

/-- A token that takes the place of another one takes over its role. -/
theorem Arranged.replace (h : a.Arranged) (hwell : a.WellFormed) (old new : Nat) :
    (a.replace old new).1.Arranged := by
  unfold Arena.replace
  split
  · exact h
  rename_i parent hparent
  split
  · exact h
  split
  · exact h
  rename_i role hrole
  split
  · exact h
  obtain ⟨kind, hkind⟩ :=
    exists_nodeKind_of_mem_children ((hwell.linked.parent_iff old parent).1 hparent)
  have hdetach := h.detach hwell.linked new
  rw [← nodeKind?_detach a new] at hkind
  apply (hdetach.setParent old none).attach (by rwa [nodeKind?_setParent])
  rw [form_setParent]
  refine (hdetach parent kind hkind).of_roles ?_
  rw [List.map_map]
  refine List.map_congr_left ?_
  intro entry hentry
  rw [form_detach hwell.linked] at hentry
  rw [Function.comp_apply]
  by_cases heq : entry.2 = old
  · rw [if_pos heq, hwell.linked.role_eq hparent hrole (List.mem_filter.1 hentry).1 heq]
  · rw [if_neg heq]

theorem Arranged.detachTrailingExtras (h : a.Arranged) (hwell : a.WellFormed) (node : Nat) :
    (a.detachTrailingExtras node).1.Arranged := by
  have hfold (tokens : List Nat) {a : Arena} (h : a.Arranged) (hwell : a.WellFormed) :
      (tokens.foldl (fun a token => (a.detach token).1) a).Arranged := by
    induction tokens generalizing a with
    | nil => exact h
    | cons token rest ih => exact ih (h.detach hwell.linked token) (hwell.detach token)
  exact hfold _ h hwell

/-- Whether an operation puts a token at the end of a form as the occupant of a slot. -/
def Operation.PushesSlot (op : Operation) : Prop :=
  ∃ node token slot, op = .push node token (.slot slot)

/-- An operation that pushes no occupant of a slot keeps slots in order, refused or not. -/
theorem Arranged.perform (h : a.Arranged) (hwell : a.WellFormed) {op : Operation}
    (hop : ¬ op.PushesSlot) : (a.perform op).1.Arranged := by
  cases op with
  | leaf kind text =>
    simp only [Arena.perform, Arena.leaf]
    cases kind.accepts text with
    | ok _ => exact h.alloc rfl
    | error e => exact h
  | allocLeaf kind text => exact h.alloc rfl
  | allocNode kind => exact h.alloc rfl
  | keyword word => exact h.alloc rfl
  | punct mark => exact h.alloc rfl
  | operator op => exact h.alloc rfl
  | space width => exact h.alloc rfl
  | newLine => exact h.alloc rfl
  | setExtent token extent => exact h.update token fun _ => ⟨rfl, rfl⟩
  | setLeafKind token kind => exact h.setLeafKind token kind
  | invalidate token => exact h.setLeafKind token .invalid
  | push node token role =>
    exact h.push hwell node token fun slot heq => hop ⟨node, token, slot, by rw [heq]⟩
  | setSlot node slot token => exact h.setSlot hwell node slot token
  | insertBefore anchor token => exact h.insertSibling hwell anchor token false
  | insertAfter anchor token => exact h.insertSibling hwell anchor token true
  | replace old new => exact h.replace hwell old new
  | clearSlot node slot =>
    simp only [Arena.perform, Arena.clearSlot]
    cases a.occupant? node slot with
    | none => exact h
    | some token => exact h.detach hwell.linked token
  | detach token => exact h.detach hwell.linked token
  | remove token =>
    simp only [Arena.perform, Prod.map_fst, id]
    rw [fst_remove]
    exact h.detach hwell.linked token
  | detachTrailingExtras node => exact h.detachTrailingExtras hwell node

/-- Copied nodes have the forms of those that they stand for. -/
theorem Arranged.importTree {source : Arena} {top : Nat} (h : a.Arranged) (hsource : source.Arranged)
    (hwell : source.WellFormed) (htop : top < source.size) : (a.importTree source top).1.Arranged := by
  obtain ⟨rename, hcopy⟩ := holdsCopy_importTree hwell.linked hwell.acyclic htop a
  intro node kind hkind
  by_cases hold : node < a.size
  · have hsame := hcopy.get?_old node hold
    rw [form, hsame]
    refine h node kind ?_
    rwa [nodeKind?, kind?, hsame] at hkind
  · have hsize := lt_of_nodeKind? hkind
    rw [hcopy.size_eq] at hsize
    obtain ⟨id, hid, rfl⟩ : ∃ id ∈ source.preorder top, rename id = node := by
      rw [← List.mem_map, hcopy.names_eq, List.mem_range'_1]
      omega
    rw [hcopy.isomorphism.form_eq id hid]
    rw [nodeKind?, hcopy.isomorphism.kind?_eq id hid] at hkind
    exact (hsource id kind hkind).of_roles (by simp)

/-! ### Runs of operations -/

/-- An arena that came about from an empty one by operations on its tokens, refused or not, and by
copying trees from other such arenas, without any push of a token into a slot. -/
inductive ReachableBySlots : Arena → Prop
  | empty : ReachableBySlots {}
  | perform {a : Arena} (h : ReachableBySlots a) (op : Operation)
      (htokens : ∀ id ∈ op.tokens, id < a.size) (hop : ¬ op.PushesSlot) :
    ReachableBySlots (a.perform op).1
  | importTree {a source : Arena} (h : ReachableBySlots a) (hsource : ReachableBySlots source)
    {top : Nat} (htop : top < source.size) : ReachableBySlots (a.importTree source top).1

theorem ReachableBySlots.reachable (h : ReachableBySlots a) : Reachable a := by
  induction h with
  | empty => exact .empty
  | perform _ op htokens _ ih => exact ih.perform op htokens
  | importTree _ _ htop ih ihsource => exact ih.importTree ihsource htop

theorem ReachableBySlots.arranged (h : ReachableBySlots a) : a.Arranged := by
  induction h with
  | empty => exact arranged_empty
  | perform h op htokens hop ih => exact ih.perform h.reachable.wellFormed hop
  | importTree _ hsource htop ih ihsource =>
    exact ih.importTree ihsource hsource.reachable.wellFormed htop

/-- A token without a parent stands in no form. -/
theorem Linked.stands_nowhere (h : a.Linked) (hparent : a.parent? token = none) :
    a.parent? token = none ∧ ∀ node, token ∉ a.children node := by
  refine ⟨hparent, ?_⟩
  intro node hmem
  rw [← h.parent_iff, hparent] at hmem
  cases hmem

/-- Putting a token from outside a node into a slot takes out the former occupant and leaves all
other children as they are. -/
theorem WellFormed.setSlot_eq_ok (h : a.WellFormed) {slot : Slot} {previous : Option Nat}
    (htoken : token < a.size) (houtside : a.parent? token ≠ some node)
    (hset : a.setSlot node slot token = (a', .ok previous)) :
    previous = a.occupant? node slot ∧
      (∀ old ∈ previous, a'.parent? old = none ∧ ∀ other, old ∉ a'.children other) ∧
      a'.occupant? node slot = some token ∧
      (a'.form node).filter (·.1 ≠ .slot slot) = (a.form node).filter (·.1 ≠ .slot slot) := by
  have hwell' : a'.WellFormed := by
    have hresult := h.setSlot htoken node slot
    rwa [hset] at hresult
  have hsame : (a.detach token).1.form node = a.form node := by
    rw [form_detach h.linked, filter_form_of_parent?_ne h.linked houtside]
  obtain ⟨kind, hkind, -, hcases⟩ := h.setSlot_cases hset
  rw [← nodeKind?_detach a token] at hkind
  have hsuits := (h.detach token).suits node kind hkind
  -- Either the slot had an occupant, which is taken out, or the token is put where it belongs.
  rcases hcases with ⟨old, before, after, rfl, hold, rfl⟩ | ⟨rfl, hempty, rfl⟩
  · rw [hold] at hsuits
    have hkind' : ((a.detach token).1.setParent old none).nodeKind? node = some kind := by
      rwa [nodeKind?_setParent]
    have hparent : a.parent? old = some node := by
      rw [h.linked.parent_iff, children, ← hsame, hold]
      simp
    have hne : old ≠ token := by
      rintro rfl
      exact houtside hparent
    have hlt : old < (a.detach token).1.size := by
      rw [size_detach]
      exact h.linked.child_lt ((h.linked.parent_iff old node).1 hparent)
    refine ⟨?previous, ?removed, ?occupied, ?others⟩
    case previous => rw [occupant?, ← hsame, hold, hsuits.occupant?]
    case removed =>
      intro other hother
      obtain rfl : old = other := Option.some.inj hother
      apply hwell'.linked.stands_nowhere
      rw [parent?_attach (by simpa using htoken), if_neg hne, parent?_setParent hlt, if_pos rfl]
    case occupied =>
      rw [occupant?, form_attach hkind', if_pos rfl]
      exact (hsuits.of_roles (by simp)).occupant?
    case others =>
      rw [form_attach hkind', if_pos rfl, ← hsame, hold]
      simp
  · have hform : ((a.detach token).1.attach node token (Form.insertSlot kind slot token)).form node =
        Form.insertSlot kind slot token ((a.detach token).1.form node) := by
      rw [form_attach hkind, if_pos rfl]
    refine ⟨?previous, ?removed, ?occupied, ?others⟩
    case previous => rw [occupant?, ← hsame, Form.occupant?_eq_none_iff.2 hempty]
    case removed =>
      intro old hold
      cases hold
    case occupied =>
      rw [occupant?, hform]
      apply Form.occupant?_insertSlot
      rw [Bool.eq_false_iff]
      exact fun hfilled => hempty (Form.isFilled_iff.1 hfilled)
    case others => rw [hform, Form.filter_insertSlot, hsame]

/-- However an arena came about without a token being pushed into a slot, the filled slots of each
node stand in the order in which its kind declares them, and no opening bracket stands after an
item. A token from outside a node that is put into a slot takes the place of the former occupant,
which then stands in no form, and leaves all other children in their order. -/
theorem slots_in_declared_order (h : ReachableBySlots a) :
    (∀ node kind, a.nodeKind? node = some kind →
      (Form.slots (a.form node)).Sublist kind.slots ∧
      ∀ before item after, a.form node = before ++ (.item, item) :: after →
        .opening ∉ Form.slots after) ∧
    ∀ node slot token a' previous, token < a.size → a.parent? token ≠ some node →
      a.setSlot node slot token = (a', .ok previous) →
      previous = a.occupant? node slot ∧
      (∀ old ∈ previous, a'.parent? old = none ∧ ∀ other, old ∉ a'.children other) ∧
      a'.occupant? node slot = some token ∧
      (a'.form node).filter (·.1 ≠ .slot slot) = (a.form node).filter (·.1 ≠ .slot slot) := by
  have hwell := h.reachable.wellFormed
  constructor
  · intro node kind hkind
    have harranged := h.arranged node kind hkind
    have hsuits := hwell.suits node kind hkind
    refine ⟨harranged.slots_sublist hsuits, ?_⟩
    intro before item after hform
    rw [hform] at harranged hsuits
    exact harranged.opening_notMem hsuits
  · intro node slot token a' previous htoken houtside hset
    exact hwell.setSlot_eq_ok htoken houtside hset

/-- Arguments of a call with an item put in first, then brackets around it, and another opening
bracket beside them. -/
def bracketedList : Arena :=
  [.allocNode .argumentsList, .leaf .number "1", .push 0 1 .item, .punct .closeParen,
    .setSlot 0 .closing 2, .punct .openParen, .setSlot 0 .opening 3, .punct .openParen].foldl
    (fun a op => (a.perform op).1) {}

theorem reachableBySlots_bracketedList : ReachableBySlots bracketedList :=
  ((((((((ReachableBySlots.empty.perform (.allocNode .argumentsList) (by decide)
    nofun).perform (.leaf .number "1") (by decide) nofun).perform (.push 0 1 .item) (by decide)
    nofun).perform (.punct .closeParen) (by decide) nofun).perform (.setSlot 0 .closing 2) (by decide)
    nofun).perform (.punct .openParen) (by decide) nofun).perform (.setSlot 0 .opening 3) (by decide)
    nofun).perform (.punct .openParen) (by decide) nofun)

theorem slots_in_declared_order_bracketedList :
    bracketedList.children 0 = [3, 1, 2] ∧
      (Form.slots (bracketedList.form 0)).Sublist NodeKind.argumentsList.slots ∧
      ((bracketedList.setSlot 0 .opening 4).1.form 0).filter (·.1 ≠ .slot .opening) =
        [(.item, 1), (.slot .closing, 2)] := by
  obtain ⟨horder, hset⟩ := slots_in_declared_order reachableBySlots_bracketedList
  refine ⟨by decide +kernel, (horder 0 _ (by decide +kernel)).1, ?_⟩
  obtain ⟨-, -, -, hothers⟩ := hset 0 .opening 4 (bracketedList.setSlot 0 .opening 4).1 (some 3)
    (by decide +kernel) (by decide +kernel) (Prod.ext rfl (by decide +kernel))
  rw [hothers]
  decide +kernel

end Arena

end ScriptTree
