import ScriptTree.Proofs.Attachment
import ScriptTree.Proofs.Walks
import ScriptTree.Reparse.Splice

/-!
# The tree below a token

The tree below a token is made of the bodies and the places of the tokens below it. Whatever is
done to other tokens, and to parents alone, leaves it as it is; and if all places below the token
move alike, it moves as a whole.
-/

namespace ScriptTree

namespace Form

variable {α β : Type}

/-- A form with other children in the same roles. -/
def mapChildren (change : α → β) (form : List (Role × α)) : List (Role × β) :=
  form.map fun entry => (entry.1, change entry.2)

@[simp]
theorem mapChildren_append (change : α → β) (front back : List (Role × α)) :
    mapChildren change (front ++ back) = mapChildren change front ++ mapChildren change back :=
  List.map_append

@[simp]
theorem mapChildren_cons (change : α → β) (entry : Role × α) (rest : List (Role × α)) :
    mapChildren change (entry :: rest) = (entry.1, change entry.2) :: mapChildren change rest :=
  rfl

@[simp]
theorem map_fst_mapChildren (change : α → β) (form : List (Role × α)) :
    (mapChildren change form).map Prod.fst = form.map Prod.fst := by
  simp [mapChildren, Function.comp_def]

theorem mapChildren_take (change : α → β) (count : Nat) (form : List (Role × α)) :
    mapChildren change (form.take count) = (mapChildren change form).take count :=
  List.map_take

theorem mapChildren_drop (change : α → β) (count : Nat) (form : List (Role × α)) :
    mapChildren change (form.drop count) = (mapChildren change form).drop count :=
  List.map_drop

@[simp]
theorem length_mapChildren (change : α → β) (form : List (Role × α)) :
    (mapChildren change form).length = form.length :=
  List.length_map _

end Form

namespace Tree

mutual

/-- The tree with every place changed alike. -/
def mapExtents (change : Extent → Extent) : Tree → Tree
  | .leaf kind text extent => .leaf kind text (change extent)
  | .node kind form extent => .node kind (mapExtentsOfForm change form) (change extent)

/-- Children with every place changed alike. -/
def mapExtentsOfForm (change : Extent → Extent) : List Entry → List Entry
  | [] => []
  | (role, t) :: rest => (role, t.mapExtents change) :: mapExtentsOfForm change rest

end

/-- Children change each on its own. -/
theorem mapExtentsOfForm_eq_map (change : Extent → Extent) (form : List Entry) :
    mapExtentsOfForm change form = form.map fun entry => (entry.1, entry.2.mapExtents change) := by
  induction form with
  | nil => rfl
  | cons entry rest ih =>
    obtain ⟨role, t⟩ := entry
    rw [mapExtentsOfForm, ih, List.map_cons]

/-- Places that all stay leave a tree as it is. -/
theorem mapExtents_id (t : Tree) : t.mapExtents (fun extent => extent) = t := by
  induction t using Tree.induction with
  | leaf kind text extent => rw [mapExtents]
  | node kind form extent ih =>
    have hform : form.map (fun entry => (entry.1, entry.2.mapExtents fun extent => extent)) =
        form.map id := List.map_congr_left fun entry hmem => Prod.ext rfl (ih entry hmem)
    rw [mapExtents, mapExtentsOfForm_eq_map, hform, List.map_id]

mutual

/-- Moving a tree changes all its places alike. -/
theorem shift_eq_mapExtents (old new : Position) (t : Tree) :
    t.shift old new = t.mapExtents fun extent => extent.shift old new := by
  match t with
  | .leaf kind text extent => simp only [shift, mapExtents]
  | .node kind form extent =>
    simp only [shift, mapExtents, shiftForm_eq_mapExtentsOfForm old new form]

/-- Moving children changes all their places alike. -/
theorem shiftForm_eq_mapExtentsOfForm (old new : Position) (form : List Entry) :
    shiftForm old new form = mapExtentsOfForm (fun extent => extent.shift old new) form := by
  match form with
  | [] => simp only [shiftForm, mapExtentsOfForm]
  | (role, t) :: rest =>
    simp only [shiftForm, mapExtentsOfForm, shift_eq_mapExtents old new t,
      shiftForm_eq_mapExtentsOfForm old new rest]

end

end Tree

namespace Arena

open Relation

variable {a b : Arena} {id node token : Nat}

/-- What a token adds to the tree in which it stands: its content and its place. -/
def shown? (a : Arena) (id : Nat) : Option (TokenBody × Extent) :=
  (a.get? id).map fun t => (t.body, t.extent)

theorem shown?_eq_some_iff {body : TokenBody} {extent : Extent} :
    a.shown? id = some (body, extent) ↔
      ∃ t, a.get? id = some t ∧ t.body = body ∧ t.extent = extent := by
  simp [shown?]

@[simp]
theorem shown?_setParent (a : Arena) (id other : Nat) (parent : Option Nat) :
    (a.setParent id parent).shown? other = a.shown? other := by
  simp only [shown?, setParent, get?_update]
  split
  · cases a.get? other <;> rfl
  · rfl

theorem shown?_updateForm_of_ne {change : List (Role × Nat) → List (Role × Nat)}
    (h : id ≠ node) : (a.updateForm node change).shown? id = a.shown? id := by
  rw [shown?, get?_updateForm_of_ne h, shown?]

/-- A node shows another form once it is given one. -/
theorem shown?_updateForm_self {kind : NodeKind} {form : List (Role × Nat)} {extent : Extent}
    (h : a.shown? node = some (.node kind form, extent))
    (change : List (Role × Nat) → List (Role × Nat)) :
    (a.updateForm node change).shown? node = some (.node kind (change form), extent) := by
  obtain ⟨t, ht, hbody, rfl⟩ := shown?_eq_some_iff.1 h
  rw [shown?, updateForm, get?_update_self, ht]
  simp [Token.mapForm, hbody]

/-- Putting a token into a node shows at the node only. -/
theorem shown?_attach_of_ne {change : List (Role × Nat) → List (Role × Nat)} (h : id ≠ node) :
    (a.attach node token change).shown? id = a.shown? id := by
  rw [attach, shown?_setParent, shown?_updateForm_of_ne h]

/-- A token has content. -/
theorem exists_shown? (hid : id < a.size) : ∃ body extent, a.shown? id = some (body, extent) :=
  ⟨_, _, by rw [shown?, get?, Array.getElem?_eq_getElem hid, Option.map_some]⟩

/-- The tree of a leaf is what the leaf shows. -/
theorem tree_of_shown_leaf {kind : LeafKind} {text : String} {extent : Extent}
    (h : a.shown? id = some (.leaf kind text, extent)) : a.tree id = .leaf kind text extent := by
  obtain ⟨t, ht, hbody, rfl⟩ := shown?_eq_some_iff.1 h
  exact tree_of_leaf ht hbody

/-- The tree of a node is made of the trees of the children that it shows. -/
theorem WellFormed.tree_of_shown_node (ha : a.WellFormed) {kind : NodeKind}
    {form : List (Role × Nat)} {extent : Extent}
    (h : a.shown? id = some (.node kind form, extent)) :
    a.tree id = .node kind (Form.mapChildren a.tree form) extent := by
  obtain ⟨t, ht, hbody, rfl⟩ := shown?_eq_some_iff.1 h
  exact tree_of_node ha.linked ha.acyclic ht hbody

/-- The form that a node shows is its form. -/
theorem form_of_shown_node {kind : NodeKind} {form : List (Role × Nat)} {extent : Extent}
    (h : a.shown? id = some (.node kind form, extent)) : a.form id = form := by
  obtain ⟨t, ht, hbody, -⟩ := shown?_eq_some_iff.1 h
  simp [Arena.form, ht, Token.form, hbody]

/-- A token that shows the same has the same form. -/
theorem form_congr (h : b.shown? id = a.shown? id) : b.form id = a.form id := by
  have hbody (c : Arena) : c.form id =
      ((c.shown? id).map fun shown => Token.form { body := shown.1 }).getD [] := by
    rw [shown?, Arena.form, Option.map_map]
    rfl
  rw [hbody b, h, hbody a]

/-- The place that a token shows is its place. -/
theorem extent_of_shown {body : TokenBody} {extent : Extent}
    (h : a.shown? id = some (body, extent)) : a.extent id = extent := by
  obtain ⟨t, ht, -, rfl⟩ := shown?_eq_some_iff.1 h
  rw [Arena.extent, ht, Option.map_some, Option.getD_some]

/-- If all tokens below one show the same but for their places, which change alike, so do the
trees. -/
theorem WellFormed.tree_eq_mapExtents (ha : a.WellFormed) (hb : b.WellFormed)
    (change : Extent → Extent) (hid : id < a.size)
    (hsame : ∀ x, ReflTransGen a.IsParent id x →
      b.shown? x = (a.shown? x).map (Prod.map (fun body => body) change)) :
    b.tree id = (a.tree id).mapExtents change := by
  refine below_induction ha.linked ha.acyclic (P := fun id =>
    (∀ x, ReflTransGen a.IsParent id x →
      b.shown? x = (a.shown? x).map (Prod.map (fun body => body) change)) →
      b.tree id = (a.tree id).mapExtents change) (fun id hid ih hsame => ?_) hid hsame
  obtain ⟨body, extent, hshown⟩ := exists_shown? hid
  have hself := hsame id .refl
  rw [hshown, Option.map_some, Prod.map_apply] at hself
  cases body with
  | leaf kind text =>
    rw [tree_of_shown_leaf hshown, tree_of_shown_leaf hself, Tree.mapExtents]
  | node kind form =>
    rw [ha.tree_of_shown_node hshown, hb.tree_of_shown_node hself, Tree.mapExtents,
      Tree.mapExtentsOfForm_eq_map, Form.mapChildren, Form.mapChildren, List.map_map]
    congr 1
    refine List.map_congr_left fun entry hmem => Prod.ext rfl ?_
    have hchild : entry.2 ∈ a.children id := by
      rw [children, form_of_shown_node hshown]
      exact List.mem_map_of_mem hmem
    have hlink : a.IsParent id entry.2 := (ha.linked.parent_iff entry.2 id).2 hchild
    exact ih entry.2 hchild fun x hbelow => hsame x (.head hlink hbelow)

/-- If all tokens below one show the same, so do the trees. -/
theorem WellFormed.tree_congr (ha : a.WellFormed) (hb : b.WellFormed) (hid : id < a.size)
    (hsame : ∀ x, ReflTransGen a.IsParent id x → b.shown? x = a.shown? x) :
    b.tree id = a.tree id := by
  have hkept := ha.tree_eq_mapExtents hb (fun extent => extent) hid fun x hbelow => by
    rw [hsame x hbelow]
    cases a.shown? x <;> rfl
  rwa [Tree.mapExtents_id] at hkept

end Arena

end ScriptTree
