import ScriptTree.Proofs.ArenaRuns
import ScriptTree.Proofs.Structure.Parsing
import ScriptTree.Proofs.Subtrees

/-!
# Putting trees together

While a text is read, trees are put together as values, and a node is only ever refused a child
because its kind has no place for it. In an arena there are more reasons: a token might be put under
itself, or beside one that stands nowhere. A token that stands in no form, and under which the node
does not stand, meets neither of them, so that the operations on an arena give the trees that were
worked out as values, or are refused for the same reason. Every tree whose forms suit its nodes can
be built in this way from single tokens.
-/

namespace ScriptTree

namespace Form

variable {α β : Type} {kind : NodeKind} {slot : Slot} {form : List (Role × α)}

/-- It does not matter what stands in a slot when it is filled anew. -/
theorem replaceSlot?_mapChildren (change : α → β) (child : α) :
    replaceSlot? slot (change child) (mapChildren change form) =
      (replaceSlot? slot child form).map (Prod.map change (mapChildren change)) := by
  induction form with
  | nil => rfl
  | cons entry rest ih =>
    simp only [mapChildren, List.map_cons, replaceSlot?] at ih ⊢
    split
    · rfl
    · rw [ih]
      cases replaceSlot? slot child rest <;> rfl

/-- It does not matter what the children are where a slot is put. -/
theorem insertSlot_mapChildren (change : α → β) (child : α) :
    insertSlot kind slot (change child) (mapChildren change form) =
      mapChildren change (insertSlot kind slot child form) := by
  induction form with
  | nil => rfl
  | cons entry rest ih =>
    simp only [mapChildren, List.map_cons, insertSlot] at ih ⊢
    split
    · rfl
    · rw [ih, List.map_cons]

/-- Slots are filled in the same way whatever the children are. -/
theorem setSlot_mapChildren (change : α → β) (child : α) :
    setSlot kind slot (change child) (mapChildren change form) =
      mapChildren change (setSlot kind slot child form) := by
  rw [setSlot, setSlot, replaceSlot?_mapChildren]
  cases replaceSlot? slot child form with
  | none => exact insertSlot_mapChildren change child
  | some result => rfl

/-- A slot is filled by the new child, and no others are added. -/
theorem mem_setSlot {child : α} {entry : Role × α} (h : entry ∈ setSlot kind slot child form) :
    entry.2 = child ∨ entry ∈ form := by
  unfold setSlot at h
  split at h
  · rename_i hreplace
    obtain ⟨before, after, rfl, rfl⟩ := exists_of_replaceSlot? hreplace
    rcases List.mem_append.1 h with hbefore | hrest
    · exact .inr (List.mem_append_left _ hbefore)
    · rcases List.mem_cons.1 hrest with rfl | hafter
      · exact .inl rfl
      · exact .inr (List.mem_append_right _ (List.mem_cons_of_mem _ hafter))
  · rcases List.mem_cons.1 ((insertSlot_perm kind slot child form).mem_iff.1 h) with rfl | hmem
    · exact .inl rfl
    · exact .inr hmem

end Form

namespace Arena

open Relation

variable {a b : Arena} {node token : Nat} {kind : NodeKind}

/-! ### Single steps -/

/-- A token that stands in no form, and below which the node does not stand. -/
structure Loose (a : Arena) (node token : Nat) : Prop where
  lt : token < a.size
  parent?_eq : a.parent? token = none
  not_above : ¬ ReflTransGen a.IsParent token node

/-- Only the kind of the node decides whether a loose token is admitted. -/
theorem WellFormed.checkAttach_of_loose (h : a.WellFormed) (hloose : a.Loose node token)
    (hkind : a.nodeKind? node = some kind) (role : Role) :
    a.checkAttach node token role = ((kind.checkRole role).mapError .misfit).map fun _ => kind := by
  have hacyclic : ¬ (node = token ∨ a.isAncestor token node = true) := by
    rintro (rfl | hway)
    · exact hloose.not_above .refl
    · exact hloose.not_above ((isAncestor_iff h.linked h.acyclic).1 hway).to_reflTransGen
  rw [checkAttach, hkind]
  exact if_neg hacyclic

/-- A loose token need not be taken out. -/
theorem Loose.detach_eq (h : a.Loose node token) : a.detach token = (a, none) := by
  rw [Arena.detach, h.parent?_eq]

/-- The form of a node as a value. -/
theorem WellFormed.tree_of_nodeKind? (h : a.WellFormed) (hkind : a.nodeKind? node = some kind) :
    a.shown? node = some (.node kind (a.form node), a.extent node) ∧
      a.tree node = .node kind (Form.mapChildren a.tree (a.form node)) (a.extent node) := by
  have hshown : a.shown? node = some (.node kind (a.form node), a.extent node) := by
    simp only [nodeKind?, kind?] at hkind
    cases htoken : a.get? node with
    | none => simp [htoken] at hkind
    | some t =>
      cases hbody : t.body with
      | leaf => simp [htoken, Token.kind, hbody, TokenKind.node?] at hkind
      | node other form =>
        obtain rfl : other = kind := by
          simpa [htoken, Token.kind, hbody, TokenKind.node?] using hkind
        simp [shown?, htoken, hbody, Arena.form, Token.form, extent]
  exact ⟨hshown, h.tree_of_shown_node hshown⟩

/-- The result of putting a token into a node, told by what is worked out for the form of the node
as a value: it is refused for the same reason, or the node has that form then, and no tree in which
the node does not stand has changed. -/
inductive Assembles {α : Type} (a : Arena) (node : Nat) (kind : NodeKind) :
    Except Misfit (List Entry) → Arena × Except TokenError α → Prop
  | refused (e : Misfit) : Assembles a node kind (.error e) (a, .error (.misfit e))
  | done {form : List Entry} {a' : Arena} (value : α) (wellFormed : a'.WellFormed)
      (tree_eq : a'.tree node = .node kind form (a.extent node))
      (tree_other : ∀ other < a.size, ¬ ReflTransGen a.IsParent other node →
        a'.tree other = a.tree other) : Assembles a node kind (.ok form) (a', .ok value)

/-- A node that is given another form, of children below which it does not stand, has the trees of
these children then. -/
theorem WellFormed.tree_of_changed (ha : a.WellFormed) (hb : b.WellFormed)
    {form : List (Role × Nat)} {extent : Extent}
    (hnode : b.shown? node = some (.node kind form, extent))
    (hother : ∀ id ≠ node, b.shown? id = a.shown? id)
    (hform : ∀ entry ∈ form, entry.2 < a.size ∧ ¬ ReflTransGen a.IsParent entry.2 node) :
    b.tree node = .node kind (Form.mapChildren a.tree form) extent ∧
      ∀ id < a.size, ¬ ReflTransGen a.IsParent id node → b.tree id = a.tree id := by
  have hkept : ∀ id < a.size, ¬ ReflTransGen a.IsParent id node → b.tree id = a.tree id := by
    intro id hid hnot
    refine ha.tree_congr hb hid fun x hbelow => hother x ?_
    rintro rfl
    exact hnot hbelow
  refine ⟨?_, hkept⟩
  rw [hb.tree_of_shown_node hnode]
  congr 1
  refine List.map_congr_left fun entry hmem => Prod.ext rfl ?_
  exact hkept entry.2 (hform entry hmem).1 (hform entry hmem).2

/-- No node stands below its children. -/
theorem WellFormed.not_below_child (h : a.WellFormed) {child : Nat}
    (hmem : child ∈ a.children node) :
    child < a.size ∧ ¬ ReflTransGen a.IsParent child node := by
  have hlink : a.IsParent node child := (h.linked.parent_iff child node).2 hmem
  exact ⟨h.linked.child_lt hmem, fun hway => h.acyclic node (.head' hlink hway)⟩

/-- A form of the children of a node and a loose token has no child below which the node stands. -/
theorem WellFormed.not_below_of_loose (h : a.WellFormed) (hloose : a.Loose node token)
    {form : List (Role × Nat)} (hform : ∀ entry ∈ form, entry.2 = token ∨ entry ∈ a.form node) :
    ∀ entry ∈ form, entry.2 < a.size ∧ ¬ ReflTransGen a.IsParent entry.2 node := by
  intro entry hmem
  rcases hform entry hmem with rfl | hold
  · exact ⟨hloose.lt, hloose.not_above⟩
  · exact h.not_below_child (List.mem_map_of_mem hold)

/-- A loose token is put at the end of a node that has a place for it. -/
theorem WellFormed.push_of_loose (h : a.WellFormed) (hloose : a.Loose node token)
    (hkind : a.nodeKind? node = some kind) {role : Role}
    (hempty : ∀ slot, role = .slot slot → a.occupant? node slot = none) :
    a.push node token role =
      match kind.checkRole role with
      | .error e => (a, .error (.misfit e))
      | .ok _ => (a.attach node token (· ++ [(role, token)]), .ok ()) := by
  rw [Arena.push, h.checkAttach_of_loose hloose hkind]
  cases kind.checkRole role with
  | error e => rfl
  | ok _ =>
    cases role with
    | slot slot => simp [Except.mapError, Except.map, hloose.detach_eq, hempty slot rfl]
    | item => simp [Except.mapError, Except.map, hloose.detach_eq]
    | extra => simp [Except.mapError, Except.map, hloose.detach_eq]

/-- Putting a loose token into a slot does what filling the slot does on values. -/
theorem WellFormed.setSlot_assembles (h : a.WellFormed) (hloose : a.Loose node token)
    (hkind : a.nodeKind? node = some kind) (slot : Slot) :
    Assembles a node kind (Form.place kind slot (a.tree token) (a.tree node).form)
      (a.setSlot node slot token) := by
  have hwell := h.setSlot hloose.lt node slot
  obtain ⟨hshown, htree⟩ := h.tree_of_nodeKind? hkind
  rw [Arena.setSlot, h.checkAttach_of_loose hloose hkind] at hwell ⊢
  rw [Form.place, htree, Tree.form]
  cases hrole : kind.checkRole (.slot slot) with
  | error e => exact .refused e
  | ok _ =>
    rw [hrole] at hwell
    simp only [Except.mapError, Except.map, hloose.detach_eq] at hwell ⊢
    have hgives {a' : Arena} {previous : Option Nat} (hwell' : a'.WellFormed)
        (hnode : a'.shown? node =
          some (.node kind (Form.setSlot kind slot token (a.form node)), a.extent node))
        (hother : ∀ id ≠ node, a'.shown? id = a.shown? id) :
        Assembles a node kind (.ok (Form.setSlot kind slot (a.tree token)
          (Form.mapChildren a.tree (a.form node)))) (a', .ok previous) := by
      obtain ⟨hnode', hothers⟩ := h.tree_of_changed hwell' hnode hother
        (h.not_below_of_loose hloose fun entry => Form.mem_setSlot)
      exact .done previous hwell' (by rw [hnode', Form.setSlot_mapChildren]) hothers
    cases hreplace : Form.replaceSlot? slot token (a.form node) with
    | none =>
      rw [hreplace] at hwell
      refine hgives hwell ?_ fun id hne => shown?_attach_of_ne hne
      rw [Arena.attach, shown?_setParent, shown?_updateForm_self hshown, Form.setSlot, hreplace]
    | some result =>
      rw [hreplace] at hwell
      refine hgives hwell ?_ fun id hne => ?_
      · rw [Arena.attach, shown?_setParent,
          shown?_updateForm_self ((shown?_setParent a _ _ _).trans hshown), Form.setSlot, hreplace]
      · rw [shown?_attach_of_ne hne, shown?_setParent]

/-- Putting a loose token at the end of a node, into a slot only if it is empty, is adding it to the
form as a value. -/
theorem WellFormed.push_assembles (h : a.WellFormed) (hloose : a.Loose node token)
    (hkind : a.nodeKind? node = some kind) {role : Role}
    (hempty : ∀ slot, role = .slot slot → a.occupant? node slot = none) :
    Assembles a node kind
      ((kind.checkRole role).map fun _ => (a.tree node).form ++ [(role, a.tree token)])
      (a.push node token role) := by
  have hwell := h.push hloose.lt node role
  rw [h.push_of_loose hloose hkind hempty] at hwell ⊢
  obtain ⟨hshown, htree⟩ := h.tree_of_nodeKind? hkind
  cases hrole : kind.checkRole role with
  | error e => exact .refused e
  | ok _ =>
    rw [hrole] at hwell
    have hnode : (a.attach node token (· ++ [(role, token)])).shown? node =
        some (.node kind (a.form node ++ [(role, token)]), a.extent node) := by
      rw [Arena.attach, shown?_setParent, shown?_updateForm_self hshown]
    have hmem (entry : Role × Nat) (hentry : entry ∈ a.form node ++ [(role, token)]) :
        entry.2 = token ∨ entry ∈ a.form node := by
      rcases List.mem_append.1 hentry with hold | hnew
      · exact .inr hold
      · exact .inl (by rw [List.mem_singleton.1 hnew])
    obtain ⟨hnode', hothers⟩ := h.tree_of_changed hwell hnode
      (fun id hne => shown?_attach_of_ne hne) (h.not_below_of_loose hloose hmem)
    refine .done () hwell ?_ hothers
    rw [hnode', htree, Tree.form, Form.mapChildren, List.map_append]
    rfl

/-! ### Trees behind what was there -/

/-- A token put at the end is the next one, and changes no other. -/
theorem get?_push (a : Arena) (token : Token) (id : Nat) :
    (⟨a.tokens.push token⟩ : Arena).get? id = if id = a.size then some token else a.get? id := by
  rw [get?, Array.getElem?_push]
  rfl

/-- Changes of different tokens may be made in any order. -/
theorem update_comm (a : Arena) {id other : Nat} (hne : id ≠ other) (change change' : Token → Token) :
    (a.update id change).update other change' = (a.update other change').update id change := by
  refine ext_get? fun x => ?_
  simp only [get?_update]
  by_cases hid : x = id
  · have hother : x ≠ other := fun heq => hne (hid.symm.trans heq)
    simp only [hid, if_true, if_neg (hid ▸ hother)]
  · simp only [hid, if_false]

/-- A token may be changed before or after others are put behind it. -/
theorem push_update {id : Nat} (hid : id < a.size) (change : Token → Token) (token : Token) :
    (⟨(a.update id change).tokens.push token⟩ : Arena) =
      (⟨a.tokens.push token⟩ : Arena).update id change := by
  refine ext_get? fun x => ?_
  simp only [get?_push, get?_update, size_update]
  by_cases hx : x = a.size
  · have hne : a.size ≠ id := by omega
    simp only [hx, if_true, if_neg hne]
  · simp only [hx, if_false]

mutual

/-- A token may be changed before or after a tree is put behind it. -/
theorem insertTree_update (a : Arena) {id : Nat} (hid : id < a.size) (change : Token → Token)
    (parent : Option Nat) (t : Tree) :
    ((a.update id change).insertTree parent t).1 = (a.insertTree parent t).1.update id change := by
  match t with
  | .leaf kind text extent => exact push_update hid change _
  | .node kind form extent =>
    have hpushed := size_push a { body := .node kind [], parent, extent }
    obtain ⟨harena, hform⟩ := insertForm_update
      ⟨a.tokens.push { body := .node kind [], parent, extent }⟩ (by omega : id < _) change a.size form
    simp only [insertTree, size_update, push_update hid, harena, hform, updateForm]
    exact update_comm _ (by omega) _ _

/-- A token may be changed before or after children are put behind it. -/
theorem insertForm_update (a : Arena) {id : Nat} (hid : id < a.size) (change : Token → Token)
    (parent : Nat) (form : List Entry) :
    ((a.update id change).insertForm parent form).1 =
        (a.insertForm parent form).1.update id change ∧
      ((a.update id change).insertForm parent form).2 = (a.insertForm parent form).2 := by
  match form with
  | [] => exact ⟨rfl, rfl⟩
  | (role, t) :: rest =>
    have hsize := size_insertTree a (some parent) t
    have hfirst := insertTree_update a hid change (some parent) t
    obtain ⟨harena, hform⟩ :=
      insertForm_update (a.insertTree (some parent) t).1 (by omega : id < _) change parent rest
    simp only [insertForm, hfirst, harena, hform, snd_insertTree, size_update, and_self]

end

/-- A token may get its parent after it was put at the end. -/
theorem push_setParent (a : Arena) (body : TokenBody) (extent : Extent) (parent : Option Nat) :
    (⟨a.tokens.push { body, parent, extent }⟩ : Arena) =
      (⟨a.tokens.push { body, parent := none, extent }⟩ : Arena).setParent a.size parent := by
  refine ext_get? fun x => ?_
  simp only [get?_push, setParent, get?_update]
  split <;> rfl

/-- A node may get its parent before or after its form. -/
theorem updateForm_setParent (a : Arena) (id node : Nat) (parent : Option Nat)
    (change : List (Role × Nat) → List (Role × Nat)) :
    (a.setParent id parent).updateForm node change =
      (a.updateForm node change).setParent id parent := by
  refine ext_get? fun x => ?_
  simp only [updateForm, setParent, get?_update]
  cases a.get? x with
  | none => simp
  | some t =>
    split_ifs
    · cases hbody : t.body <;> simp [Token.mapForm, hbody]
    all_goals rfl

/-- A tree may get its parent after it was put in. -/
theorem insertTree_some (a : Arena) (parent : Nat) (t : Tree) :
    (a.insertTree (some parent) t).1 =
      (a.insertTree none t).1.setParent a.size (some parent) := by
  cases t with
  | leaf kind text extent => exact push_setParent a _ extent (some parent)
  | node kind form extent =>
    have hpushed := size_push a { body := .node kind [], extent }
    obtain ⟨harena, hform⟩ := insertForm_update ⟨a.tokens.push { body := .node kind [], extent }⟩
      (by omega : a.size < _) (fun t => { t with parent := some parent }) a.size form
    simp only [insertTree, push_setParent a (.node kind []) extent (some parent)]
    simp only [setParent] at harena hform ⊢
    rw [harena, hform]
    exact updateForm_setParent _ _ _ _ _

/-- The topmost token of a tree that was put in is loose for what was there. -/
theorem WellFormed.loose_insertTree (h : a.WellFormed) {t : Tree} (ht : t.Suited)
    (hnode : node < a.size) : (a.insertTree none t).1.Loose node a.size := by
  have hwell := h.insertTree ht
  have hgrown := grown_insertTree a none t
  rw [snd_insertTree] at hgrown
  refine ⟨(hgrown.top_lt a.size (List.mem_singleton_self _)).2, ?_, fun hway => ?_⟩
  · by_contra hsome
    obtain ⟨parent, hparent⟩ := Option.ne_none_iff_exists'.1 hsome
    rcases (hgrown.parent_iff a.size parent (Nat.le_refl _)).1 hparent with ⟨-, hnone⟩ | ⟨hle, hmem⟩
    · cases hnone
    · exact absurd (hgrown.child_lt parent hle a.size hmem).1 (Nat.not_lt.2 hle)
  · have hnew {x : Nat} (hbelow : ReflTransGen (a.insertTree none t).1.IsParent a.size x) :
        a.size ≤ x := by
      induction hbelow with
      | refl => exact Nat.le_refl _
      | tail _ hlink ih =>
        have hmem := (hwell.linked.parent_iff _ _).1 hlink
        exact Nat.le_of_lt (Nat.lt_of_le_of_lt ih (hgrown.child_lt _ ih _ hmem).1)
    exact absurd (hnew hway) (Nat.not_le.2 hnode)

/-! ### Whole trees -/

mutual

/-- Build a tree from single tokens: a node is allocated without children, which are built one after
another and put at its end. Returns the name of the topmost token. -/
def build (a : Arena) : Tree → Arena × Except TokenError Nat
  | .leaf kind text extent =>
    let (a, id) := a.allocLeaf kind text
    (a.setExtent id extent, .ok id)
  | .node kind form extent =>
    let (a, id) := a.allocNode kind
    let (a, outcome) := buildForm (a.setExtent id extent) id form
    (a, outcome.map fun _ => id)

/-- Build children one after another, and put each at the end of a node. -/
def buildForm (a : Arena) (node : Nat) : List Entry → Arena × Except TokenError Unit
  | [] => (a, .ok ())
  | (role, t) :: rest =>
    match build a t with
    | (a, .error e) => (a, .error e)
    | (a, .ok child) =>
      match a.push node child role with
      | (a, .error e) => (a, .error e)
      | (a, .ok _) => buildForm a node rest

end

/-- A token may get its place after it was put at the end. -/
theorem push_setExtent (a : Arena) (body : TokenBody) (extent : Extent) :
    (⟨a.tokens.push { body }⟩ : Arena).setExtent a.size extent =
      ⟨a.tokens.push { body, extent }⟩ := by
  refine ext_get? fun x => ?_
  simp only [get?_push, setExtent, get?_update]
  split <;> rfl

/-- The roles that a node has and is still to get suit it. -/
def Awaits (a : Arena) (node : Nat) (kind : NodeKind) (form : List Entry) : Prop :=
  Form.Suits kind (Form.mapChildren (fun _ => ()) (a.form node) ++
    Form.mapChildren (fun _ => ()) form)

/-- A node has a place for the next child that it is to get. -/
theorem Awaits.admits {role : Role} {t : Tree} {rest : List Entry}
    (h : a.Awaits node kind ((role, t) :: rest)) :
    kind.checkRole role = .ok () ∧ ∀ slot, role = .slot slot → a.occupant? node slot = none := by
  refine ⟨h.checkRole (List.mem_append_right _ List.mem_cons_self), ?_⟩
  rintro slot rfl
  have hslot := Form.Suits.slot_notMem h
  rw [Form.slots_append, List.mem_append, not_or] at hslot
  have hroles : Form.slots (Form.mapChildren (fun _ => ()) (a.form node)) =
      Form.slots (a.form node) := List.filterMap_map
  rw [occupant?, Form.occupant?_eq_none_iff, ← hroles]
  exact hslot.1

/-- The topmost token of a tree that was built is put at the end of a node that awaits it. -/
theorem WellFormed.push_insertTree (h : a.WellFormed) (hkind : a.nodeKind? node = some kind)
    {role : Role} {t : Tree} {rest : List Entry} (hawaits : a.Awaits node kind ((role, t) :: rest))
    (ht : t.Suited) :
    (a.insertTree none t).1.push node a.size role =
      ((a.insertTree (some node) t).1.updateForm node (· ++ [(role, a.size)]), .ok ()) := by
  have hlt := lt_of_nodeKind? hkind
  have hloose := h.loose_insertTree ht hlt
  obtain ⟨hform, hkind'⟩ := form_nodeKind?_congr ((grown_insertTree a none t).get?_of_lt node hlt)
  obtain ⟨hrole, hempty⟩ := hawaits.admits
  rw [(h.insertTree ht).push_of_loose hloose (hkind'.trans hkind)
    (by simpa only [occupant?, hform] using hempty), hrole]
  dsimp only
  rw [Arena.attach, insertTree_some, updateForm_setParent]

/-- A form to which nothing is added stays as it is. -/
theorem updateForm_append_nil (a : Arena) (node : Nat) : a.updateForm node (· ++ []) = a := by
  refine ext_get? fun id => ?_
  rw [updateForm, get?_update]
  split
  · cases a.get? id with
    | none => rfl
    | some t =>
      obtain ⟨body, parent, extent⟩ := t
      cases body <;> simp [Token.mapForm]
  · rfl

mutual

/-- A suited tree is built without a refusal, and stands behind what was there. -/
theorem WellFormed.build_eq {a : Arena} (h : a.WellFormed) {t : Tree} (ht : t.Suited) :
    a.build t = ((a.insertTree none t).1, .ok a.size) := by
  match t, ht with
  | .leaf kind text extent, _ =>
    have hplaced := push_setExtent a (.leaf kind text) extent
    simp only [Arena.build, Arena.allocLeaf, alloc, Arena.insertTree]
    rw [hplaced]
  | .node kind form extent, .node _ hsuits hchildren =>
    have hplaced := push_setExtent a (.node kind []) extent
    have hwell := (h.allocNode kind).setExtent a.size extent
    have hnode := get?_push_self a { body := .node kind [], extent }
    simp only [Arena.build, Arena.allocNode, alloc, Arena.insertTree] at hwell ⊢
    rw [hplaced] at hwell ⊢
    generalize hbegun : (⟨a.tokens.push { body := .node kind [], extent }⟩ : Arena) = begun at *
    have hkind : begun.nodeKind? a.size = some kind := by
      simp [nodeKind?, kind?, hnode, Token.kind, TokenKind.node?]
    have hempty : begun.form a.size = [] := by simp [Arena.form, hnode, Token.form]
    have hawaits : begun.Awaits a.size kind form := by
      rw [Awaits, hempty]
      exact hsuits.of_roles (by simp [Form.mapChildren])
    have hkept : (begun.insertForm a.size form).1.form a.size = [] :=
      (form_nodeKind?_congr ((grown_insertForm begun a.size form).get?_of_lt a.size
        (lt_of_nodeKind? hkind))).1.trans hempty
    rw [hwell.buildForm_eq hkind hawaits hchildren, updateForm_eq_const, hkept]
    rfl

/-- Suited children are built and put at the end of a node without a refusal. -/
theorem WellFormed.buildForm_eq {a : Arena} {node : Nat} {kind : NodeKind} (h : a.WellFormed)
    (hkind : a.nodeKind? node = some kind) {form : List Entry} (hawaits : a.Awaits node kind form)
    (hchildren : ∀ entry ∈ form, entry.2.Suited) :
    a.buildForm node form =
      ((a.insertForm node form).1.updateForm node (· ++ (a.insertForm node form).2), .ok ()) := by
  match form, hawaits, hchildren with
  | [], _, _ => rw [Arena.buildForm, Arena.insertForm, updateForm_append_nil]
  | (role, t) :: rest, hawaits, hchildren =>
    have ht : t.Suited := hchildren _ List.mem_cons_self
    have hlt := lt_of_nodeKind? hkind
    have hpush := h.push_insertTree hkind hawaits ht
    have hgrown := grown_insertTree a (some node) t
    have hsize := hgrown.size_le
    generalize hfirst : (a.insertTree (some node) t).1 = first at *
    obtain ⟨hform, hkind'⟩ := form_nodeKind?_congr (hgrown.get?_of_lt node hlt)
    have hwell : (first.updateForm node (· ++ [(role, a.size)])).WellFormed := by
      have hpushed := (h.insertTree ht).push (h.loose_insertTree ht hlt).lt node role
      rwa [hpush] at hpushed
    have hmore : (first.updateForm node (· ++ [(role, a.size)])).Awaits node kind rest := by
      rw [Awaits, form_updateForm (hkind'.trans hkind), if_pos rfl, hform]
      simpa [Awaits, Form.mapChildren] using hawaits
    have hrest := hwell.buildForm_eq (by rw [nodeKind?_updateForm, hkind', hkind]) hmore
      fun entry hmem => hchildren entry (List.mem_cons_of_mem _ hmem)
    obtain ⟨harena, hnames⟩ : _ = (first.insertForm node rest).1.updateForm node _ ∧ _ :=
      insertForm_update first (by omega : node < first.size)
        (Token.mapForm (· ++ [(role, a.size)])) node rest
    rw [updateForm] at hrest
    simp only [Arena.buildForm, h.build_eq ht, hpush, Arena.insertForm, hfirst, snd_insertTree]
    rw [updateForm, hrest, harena, hnames, updateForm_updateForm]
    simp only [List.append_assoc, List.singleton_append]

end

/-- Putting a token at the end of a node allocates none. -/
theorem size_fst_push (a : Arena) (node token : Nat) (role : Role) :
    (a.push node token role).1.size = a.size := by
  have happend : ((a.detach token).1.attach node token (· ++ [(role, token)])).size = a.size := by
    rw [attach, size_setParent, size_updateForm, size_detach]
  unfold push
  split
  · rfl
  · cases role with
    | slot slot =>
      dsimp only
      split
      · rfl
      · exact happend
    | item => exact happend
    | extra => exact happend

/-- A new token is placed by operations. -/
theorem Reachable.alloc_setExtent (h : Reachable a) (op : Operation) {body : TokenBody}
    (hop : (a.perform op).1 = (a.alloc body).1) (htokens : op.tokens = []) (extent : Extent) :
    Reachable ((a.alloc body).1.setExtent a.size extent) ∧
      ((a.alloc body).1.setExtent a.size extent).size = a.size + 1 := by
  have hsize : (a.alloc body).1.size = a.size + 1 := size_push a { body }
  have halloc := h.perform op (by simp [htokens])
  rw [hop] at halloc
  refine ⟨halloc.perform (.setExtent a.size extent) ?_, by rw [setExtent, size_update, hsize]⟩
  simp [Operation.tokens, hsize]

mutual

/-- Building a tree is done by operations, whether one of them is refused or not. -/
theorem Reachable.build {a : Arena} (h : Reachable a) (t : Tree) :
    Reachable (a.build t).1 ∧ a.size ≤ (a.build t).1.size ∧
      ∀ id, (a.build t).2 = .ok id → id < (a.build t).1.size := by
  match t with
  | .leaf kind text extent =>
    obtain ⟨hplaced, hsize⟩ := h.alloc_setExtent (.allocLeaf kind text) rfl rfl extent
    have hbuild : a.build (.leaf kind text extent) =
        ((a.alloc (.leaf kind text)).1.setExtent a.size extent, .ok a.size) := rfl
    rw [hbuild]
    dsimp only
    refine ⟨hplaced, by omega, fun id hid => ?_⟩
    obtain rfl := Except.ok.inj hid
    omega
  | .node kind form extent =>
    obtain ⟨hplaced, hsize⟩ := h.alloc_setExtent (.allocNode kind) rfl rfl extent
    obtain ⟨hform, hle⟩ := hplaced.buildForm (by omega : a.size < _) form
    have hbuild : a.build (.node kind form extent) =
        ((((a.alloc (.node kind [])).1.setExtent a.size extent).buildForm a.size form).1,
          (((a.alloc (.node kind [])).1.setExtent a.size extent).buildForm a.size form).2.map
            fun _ => a.size) := rfl
    rw [hbuild]
    dsimp only
    refine ⟨hform, by omega, fun id hid => ?_⟩
    obtain ⟨_, -, rfl⟩ := exists_of_map_eq_ok hid
    omega

/-- Building children is done by operations, whether one of them is refused or not. -/
theorem Reachable.buildForm {a : Arena} (h : Reachable a) {node : Nat} (hnode : node < a.size)
    (form : List Entry) :
    Reachable (a.buildForm node form).1 ∧ a.size ≤ (a.buildForm node form).1.size := by
  match form with
  | [] => exact ⟨h, Nat.le_refl _⟩
  | (role, t) :: rest =>
    have hbuild := h.build t
    rw [Arena.buildForm]
    rcases hfirst : a.build t with ⟨built, e | child⟩
    · rw [hfirst] at hbuild
      exact ⟨hbuild.1, hbuild.2.1⟩
    · rw [hfirst] at hbuild
      obtain ⟨hbuilt, hle, hlt⟩ := hbuild
      have hchild : child < built.size := hlt child rfl
      have hpush : Reachable (built.push node child role).1 :=
        hbuilt.perform (.push node child role) (by
          simpa [Operation.tokens] using ⟨Nat.lt_of_lt_of_le hnode hle, hchild⟩)
      have hsize := size_fst_push built node child role
      rcases hput : built.push node child role with ⟨pushed, e | _⟩
      · rw [hput] at hpush hsize
        simp only [hput]
        exact ⟨hpush, hsize ▸ hle⟩
      · rw [hput] at hpush hsize
        simp only [hput] at hpush hsize hle ⊢
        obtain ⟨hrest, hmore⟩ := hpush.buildForm (by omega : node < pushed.size) rest
        exact ⟨hrest, by omega⟩

end

/-- A suited tree may be put behind what operations have made. -/
theorem Reachable.insertTree (h : Reachable a) {t : Tree} (ht : t.Suited) :
    Reachable (a.insertTree none t).1 := by
  have hbuilt := (h.build t).1
  rwa [h.wellFormed.build_eq ht] at hbuilt

/-- A tree that was put behind what was there is found under the next name. -/
theorem tree_insertTree (a : Arena) (t : Tree) : (a.insertTree none t).1.tree a.size = t := by
  have hdepth := depth_lt_size t
  have hsize := size_insertTree a none t
  have htree : (a.insertTree none t).1.tree (a.insertTree none t).2 = t :=
    treeFrom_insertTree a none t (fun _ _ _ => rfl) (by omega)
  rwa [snd_insertTree] at htree

/-! ### Parsed trees -/

/-- A tree of lawful nodes is suited. -/
theorem suited_of_lawful {t : Tree} (h : t.EveryNode Form.IsLawful) : t.Suited := by
  induction h with
  | leaf kind text extent => exact .leaf kind text extent
  | node extent own children ih => exact .node extent own.suits ih

/-- Every parsed tree is suited. -/
theorem suited_of_parse {entrance : Entrance} {config : Config} {text : String} {t : Tree}
    (h : parse entrance config text = .ok t) : t.Suited :=
  suited_of_lawful (reads_of_parse h).lawful

/-- A parsed tree can be put together from single tokens in any arena: of all the operations that
this takes none is refused, and the arena holds the tree behind what it held before. -/
theorem build_of_parse {entrance : Entrance} {config : Config} {text : String} {t : Tree}
    (hparse : parse entrance config text = .ok t) (h : Reachable a) :
    ∃ a', a.build t = (a', .ok a.size) ∧ Reachable a' ∧ a'.tree a.size = t ∧
      ∀ id < a.size, a'.get? id = a.get? id := by
  have ht := suited_of_parse hparse
  exact ⟨_, h.wellFormed.build_eq ht, h.insertTree ht, tree_insertTree a t,
    (grown_insertTree a none t).get?_of_lt⟩

end Arena

end ScriptTree
