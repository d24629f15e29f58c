import ScriptTree.Proofs.Editable
import ScriptTree.Proofs.Substitutions

/-!
# Trees brought up to date in their arenas

What bringing a tree up to date makes of the tree as a value, it makes of the tree in an arena: a run
of entries is replaced by copies, which is never refused, and every token of the tree but the copies
moves once. So the arena stays well formed, whether the tree knows its place or not.
-/

namespace ScriptTree

namespace Arena

open Relation

variable {a a' source : Arena} {id node top : Nat} {kind : NodeKind} {skip : List Nat}
  {old new : Position}

/-! ### Leaving tokens out -/

/-- Take tokens out of the forms in which they stand, one after another. -/
def detachAll (a : Arena) (tokens : List Nat) : Arena :=
  tokens.foldl (fun a token => (a.detach token).1) a

/-- Tokens that were taken out have no parents, and all others are what they were. -/
theorem WellFormed.detachAll_spec (ha : a.WellFormed) (tokens : List Nat) :
    (a.detachAll tokens).WellFormed ∧ (a.detachAll tokens).size = a.size ∧
      (∀ id, (a.detachAll tokens).parent? id = if id ∈ tokens then none else a.parent? id) ∧
      ∀ id, (a.detachAll tokens).children id =
        (a.children id).filter fun child => !tokens.contains child := by
  induction tokens generalizing a with
  | nil => exact ⟨ha, rfl, by simp [detachAll], by simp [detachAll]⟩
  | cons token rest ih =>
    obtain ⟨hwell, hsize, hparent, hchildren⟩ := ih (ha.detach token)
    refine ⟨hwell, hsize.trans (size_detach a token), fun id => ?_, fun id => ?_⟩
    · refine (hparent id).trans ?_
      rw [parent?_detach]
      by_cases hrest : id ∈ rest <;> by_cases htoken : id = token <;> simp [hrest, htoken]
    · refine (hchildren id).trans ?_
      rw [children, form_detach ha.linked, children, List.filter_map, List.filter_map,
        List.filter_filter]
      congr 1
      refine List.filter_congr fun entry _ => ?_
      by_cases htoken : entry.2 = token <;> simp [htoken]

/-- Whether a way down from a token leads to another without coming past tokens to be left out. -/
def ReachesWithout (a : Arena) (skip : List Nat) (top id : Nat) : Prop :=
  ReflTransGen (fun node child => a.IsParent node child ∧ child ∉ skip) top id

/-- The walk that leaves tokens out meets each token once to which a way leads without them. -/
theorem WellFormed.preorderWithout_spec (ha : a.WellFormed) (htop : top < a.size)
    (skip : List Nat) :
    (a.preorderWithout skip top).Nodup ∧
      ∀ id, id ∈ a.preorderWithout skip top ↔ a.ReachesWithout skip top id := by
  obtain ⟨hwell, hsize, hparent, hchildren⟩ := ha.detachAll_spec skip
  have htop' : top < (a.detachAll skip).size := hsize ▸ htop
  have hwalk : a.preorderWithout skip top = (a.detachAll skip).preorder top := by
    rw [← stackWalk_children hwell.linked hwell.acyclic htop', preorderWithout, hsize]
    congr 1
    exact (funext hchildren).symm
  have hlink : (a.detachAll skip).IsParent =
      fun node child => a.IsParent node child ∧ child ∉ skip := by
    funext node child
    rw [IsParent, hparent, IsParent]
    by_cases hskip : child ∈ skip <;> simp [hskip]
  rw [hwalk]
  refine ⟨nodup_preorder hwell.linked hwell.acyclic htop', fun id => ?_⟩
  rw [mem_preorder_iff hwell.linked hwell.acyclic htop', hlink]
  rfl

/-- Tokens of a list move each on its own. -/
theorem get?_foldl_shift {ids : List Nat} (hnodup : ids.Nodup) (a : Arena) (id : Nat) :
    (ids.foldl (fun a id => a.setExtent id ((a.extent id).shift old new)) a).get? id =
      (a.get? id).map fun t =>
        { t with extent := if id ∈ ids then t.extent.shift old new else t.extent } := by
  induction ids generalizing a with
  | nil => simp
  | cons first rest ih =>
    obtain ⟨hnot, hrest⟩ := List.nodup_cons.1 hnodup
    rw [List.foldl_cons, ih hrest, setExtent, get?_update]
    by_cases heq : id = first
    · rw [if_pos heq, extent]
      subst heq
      cases a.get? id <;> simp [hnot]
    · simp [heq]

/-- Moving tokens allocates none. -/
theorem size_shiftWithout (a : Arena) (skip : List Nat) (top : Nat) (old new : Position) :
    (a.shiftWithout skip top old new).size = a.size := by
  have hfold (ids : List Nat) (a : Arena) :
      (ids.foldl (fun a id => a.setExtent id ((a.extent id).shift old new)) a).size = a.size := by
    induction ids generalizing a with
    | nil => rfl
    | cons first rest ih => rw [List.foldl_cons, ih, setExtent, size_update]
  rw [Arena.shiftWithout]
  split
  · rfl
  · exact hfold _ a

/-- Nothing moves when `old` stays. -/
theorem extent_shift_self (extent : Extent) (old : Position) : extent.shift old old = extent := by
  rw [Extent.shift, Position.shift_self, Position.shift_self]

/-- Moving a tree but for some tokens moves those that a way leads to without them, and keeps the
arena well formed. -/
theorem WellFormed.shiftWithout_spec (ha : a.WellFormed) (htop : top < a.size) (skip : List Nat)
    (old new : Position) :
    (a.shiftWithout skip top old new).WellFormed ∧
      (∀ id, a.ReachesWithout skip top id → (a.shiftWithout skip top old new).shown? id =
        (a.shown? id).map (Prod.map (fun body => body) fun extent => extent.shift old new)) ∧
      ∀ id, ¬ a.ReachesWithout skip top id →
        (a.shiftWithout skip top old new).shown? id = a.shown? id := by
  obtain ⟨hnodup, hmem⟩ := ha.preorderWithout_spec htop skip
  by_cases heq : old = new
  · subst heq
    have hsame : a.shiftWithout skip top old old = a := if_pos rfl
    rw [hsame]
    refine ⟨ha, fun id _ => ?_, fun _ _ => rfl⟩
    simp only [extent_shift_self]
    cases a.shown? id <;> rfl
  · have hget (id : Nat) : (a.shiftWithout skip top old new).get? id = (a.get? id).map fun t =>
        { t with
          extent := if id ∈ a.preorderWithout skip top then t.extent.shift old new
            else t.extent } := by
      rw [Arena.shiftWithout, if_neg heq]
      exact get?_foldl_shift hnodup a id
    refine ⟨ha.congr (fun id => ?_) (fun id => ?_) fun id => ?_, fun id hid => ?_, fun id hid => ?_⟩
    · rw [parent?, hget, parent?]
      cases a.get? id <;> rfl
    · rw [form, hget, form]
      cases a.get? id <;> rfl
    · rw [nodeKind?, kind?, hget, nodeKind?, kind?]
      cases a.get? id <;> rfl
    · simp only [shown?, hget, if_pos ((hmem id).2 hid), Option.map_map]
      rfl
    · simp only [shown?, hget, if_neg fun h => hid ((hmem id).1 h), Option.map_map]
      rfl

/-! ### Ways down -/

/-- The children of the tree of a token are the trees of its children. -/
theorem WellFormed.form_tree (ha : a.WellFormed) (hid : id < a.size) :
    (a.tree id).form = Form.mapChildren a.tree (a.form id) := by
  obtain ⟨body, extent, hshown⟩ := exists_shown? hid
  cases body with
  | leaf kind text =>
    obtain ⟨t, ht, hbody, -⟩ := shown?_eq_some_iff.1 hshown
    have hform : a.form id = [] := by simp [Arena.form, ht, Token.form, hbody]
    rw [tree_of_shown_leaf hshown, hform]
    rfl
  | node kind form =>
    rw [ha.tree_of_shown_node hshown, form_of_shown_node hshown]
    rfl

/-- The tree of a token is at the place of the token. -/
theorem WellFormed.extent_tree (ha : a.WellFormed) (hid : id < a.size) :
    (a.tree id).extent = a.extent id := by
  obtain ⟨body, extent, hshown⟩ := exists_shown? hid
  rw [extent_of_shown hshown]
  cases body with
  | leaf kind text => rw [tree_of_shown_leaf hshown, Tree.extent]
  | node kind form => rw [ha.tree_of_shown_node hshown, Tree.extent]

/-- A way down leads to a token below, and to its tree. -/
theorem WellFormed.descend?_tree (ha : a.WellFormed) (path : List Nat) (hid : id < a.size) :
    (a.tree id).descend? path = (a.descend? path id).map a.tree ∧
      ∀ node, a.descend? path id = some node → node < a.size ∧ ReflTransGen a.IsParent id node := by
  induction path generalizing id with
  | nil =>
    refine ⟨rfl, fun node hnode => ?_⟩
    obtain rfl := Option.some.inj hnode
    exact ⟨hid, .refl⟩
  | cons index path ih =>
    rw [Tree.descend?, Arena.descend?, ha.form_tree hid, Form.mapChildren, children,
      List.getElem?_map, List.getElem?_map]
    cases hentry : (a.form id)[index]? with
    | none => exact ⟨rfl, by simp⟩
    | some entry =>
      have hmem : entry.2 ∈ a.children id := List.mem_map_of_mem (List.mem_of_getElem? hentry)
      obtain ⟨htree, hbelow⟩ := ih (ha.linked.child_lt hmem)
      refine ⟨htree, fun node hnode => ?_⟩
      obtain ⟨hlt, hway⟩ := hbelow node hnode
      exact ⟨hlt, .head ((ha.linked.parent_iff entry.2 id).2 hmem) hway⟩

/-! ### A run that was replaced -/

/-- A run of entries of a node was replaced by new ones. -/
structure RunReplaced (a : Arena) (node : Nat) (kind : NodeKind)
    (front run copies back : List (Role × Nat)) (a' : Arena) : Prop where
  wellFormed : a.WellFormed
  nodeKind?_eq : a.nodeKind? node = some kind
  form_eq : a.form node = front ++ run ++ back
  refilled : Refilled a node kind (front ++ copies ++ back) a'
  copies_new : ∀ entry ∈ copies, a.size ≤ entry.2

section RunReplaced

variable {root : Nat} {front run copies back : List (Role × Nat)}

/-- The entries beside the run are old. -/
theorem RunReplaced.mem_form (h : RunReplaced a node kind front run copies back a')
    {entry : Role × Nat} (hmem : entry ∈ front ++ back) : entry ∈ a.form node := by
  rw [h.form_eq]
  rcases List.mem_append.1 hmem with hfront | hback
  · exact List.mem_append_left _ (List.mem_append_left _ hfront)
  · exact List.mem_append_right _ hback

/-- The children that a node has without the copies are those that it had, but for the run. -/
theorem RunReplaced.isParent_iff (h : RunReplaced a node kind front run copies back a') {p c : Nat}
    (hp : p < a.size) :
    (a'.IsParent p c ∧ c ∉ copies.map Prod.snd) ↔
      a.IsParent p c ∧ (p = node → c ∈ (front ++ back).map Prod.snd) := by
  have hold {c : Nat} (hc : c < a.size) : c ∉ copies.map Prod.snd := by
    intro hmem
    obtain ⟨entry, hentry, rfl⟩ := List.mem_map.1 hmem
    exact absurd (h.copies_new entry hentry) (Nat.not_le.2 hc)
  rw [IsParent, IsParent, h.refilled.wellFormed.linked.parent_iff, h.wellFormed.linked.parent_iff]
  by_cases hnode : p = node
  · subst hnode
    have hbeside (hmem : c ∈ (front ++ back).map Prod.snd) : c ∈ a.children p := by
      obtain ⟨entry, hentry, rfl⟩ := List.mem_map.1 hmem
      exact List.mem_map_of_mem (h.mem_form hentry)
    have hform : c ∈ a'.children p ↔
        c ∈ (front ++ back).map Prod.snd ∨ c ∈ copies.map Prod.snd := by
      simp only [children, h.refilled.form_eq, List.map_append, List.mem_append]
      exact or_right_comm
    rw [hform]
    constructor
    · rintro ⟨hmem, hskip⟩
      exact ⟨hbeside (hmem.resolve_right hskip), fun _ => hmem.resolve_right hskip⟩
    · rintro ⟨-, hmem⟩
      exact ⟨.inl (hmem rfl), hold (h.wellFormed.linked.child_lt (hbeside (hmem rfl)))⟩
  · rw [children, form_congr (h.refilled.shown?_old p hp hnode)]
    constructor
    · rintro ⟨hmem, -⟩
      exact ⟨hmem, fun heq => absurd heq hnode⟩
    · rintro ⟨hmem, -⟩
      exact ⟨hmem, hold (h.wellFormed.linked.child_lt hmem)⟩

/-- No way without the copies leads to new tokens. -/
theorem RunReplaced.lt_of_reaches (h : RunReplaced a node kind front run copies back a')
    (hroot : root < a.size) (hreach : a'.ReachesWithout (copies.map Prod.snd) root id) :
    id < a.size := by
  induction hreach with
  | refl => exact hroot
  | tail _ hlink ih =>
    have hold := ((h.isParent_iff ih).1 hlink).1
    exact h.wellFormed.linked.child_lt ((h.wellFormed.linked.parent_iff _ _).1 hold)

/-- What lies in the tree outside of the copies moves, and nothing else does. -/
theorem RunReplaced.moves (h : RunReplaced a node kind front run copies back a')
    (hroot : root < a.size) (old new : Position) :
    (a'.shiftWithout (copies.map Prod.snd) root old new).WellFormed ∧
      (∀ id, a'.ReachesWithout (copies.map Prod.snd) root id →
        (a'.shiftWithout (copies.map Prod.snd) root old new).shown? id =
          (a'.shown? id).map (Prod.map (fun body => body) fun extent => extent.shift old new)) ∧
      ∀ id, ¬ a'.ReachesWithout (copies.map Prod.snd) root id →
        (a'.shiftWithout (copies.map Prod.snd) root old new).shown? id = a'.shown? id :=
  h.refilled.wellFormed.shiftWithout_spec (Nat.lt_of_lt_of_le hroot h.refilled.size_le)
    (copies.map Prod.snd) old new

/-- A tree beside the run and the way to it moves as a whole. -/
theorem RunReplaced.tree_beside (h : RunReplaced a node kind front run copies back a')
    (hroot : root < a.size) (old new : Position)
    (hreach : a'.ReachesWithout (copies.map Prod.snd) root id)
    (hbeside : ¬ ReflTransGen a.IsParent id node) :
    (a'.shiftWithout (copies.map Prod.snd) root old new).tree id = (a.tree id).shift old new := by
  obtain ⟨hwell, hmoved, -⟩ := h.moves hroot old new
  have hid := h.lt_of_reaches hroot hreach
  rw [Tree.shift_eq_mapExtents]
  refine h.wellFormed.tree_eq_mapExtents hwell _ hid fun x hbelow => ?_
  have hne : x ≠ node := by
    rintro rfl
    exact hbeside hbelow
  -- the way down to it does not come to the node, and only there stand copies
  have hx : a'.ReachesWithout (copies.map Prod.snd) root x := by
    induction hbelow with
    | refl => exact hreach
    | @tail p c hway hlink ih =>
      have hp : p ≠ node := by
        rintro rfl
        exact hbeside hway
      have hreachp := ih hp
      have hold := h.lt_of_reaches hroot hreachp
      exact .tail hreachp ((h.isParent_iff hold).2 ⟨hlink, fun heq => absurd heq hp⟩)
  rw [hmoved x hx, h.refilled.shown?_old x (h.lt_of_reaches hroot hx) hne]

/-- The copies are in their places. -/
theorem RunReplaced.tree_copies (h : RunReplaced a node kind front run copies back a')
    (hroot : root < a.size) (old new : Position) :
    Form.mapChildren (a'.shiftWithout (copies.map Prod.snd) root old new).tree copies =
      Form.mapChildren a'.tree copies := by
  obtain ⟨hwell, -, hkept⟩ := h.moves hroot old new
  refine List.map_congr_left fun entry hmem => Prod.ext rfl ?_
  have hchild : entry.2 ∈ a'.children node := by
    rw [children, h.refilled.form_eq]
    exact List.mem_map_of_mem (List.mem_append_left _ (List.mem_append_right _ hmem))
  refine h.refilled.wellFormed.tree_congr hwell (h.refilled.wellFormed.linked.child_lt hchild)
    fun x hbelow => hkept x fun hreach => ?_
  have hnew := h.refilled.below_new (h.copies_new entry hmem) hbelow
  exact absurd (h.lt_of_reaches hroot hreach) (Nat.not_lt.2 hnew)

/-- Children move one by one if each of their trees moves. -/
theorem mapChildren_eq_shiftForm {b : Arena} (form : List (Role × Nat))
    (h : ∀ entry ∈ form, b.tree entry.2 = (a.tree entry.2).shift old new) :
    Form.mapChildren b.tree form = Tree.shiftForm old new (Form.mapChildren a.tree form) := by
  rw [Reparse.shiftForm_eq_map, Form.mapChildren, Form.mapChildren, List.map_map]
  exact List.map_congr_left fun entry hmem => Prod.ext rfl (h entry hmem)

/-- The node whose run was replaced shows the copies in place of the run. -/
theorem RunReplaced.tree_node (h : RunReplaced a node kind front run copies back a')
    (hroot : root < a.size) (old new : Position)
    (hreach : a'.ReachesWithout (copies.map Prod.snd) root node) :
    (a'.shiftWithout (copies.map Prod.snd) root old new).tree node =
      .node kind (Tree.shiftForm old new (Form.mapChildren a.tree front)
        ++ Form.mapChildren a'.tree copies
        ++ Tree.shiftForm old new (Form.mapChildren a.tree back))
        ((a.extent node).shift old new) := by
  obtain ⟨hwell, hmoved, -⟩ := h.moves hroot old new
  have hshown := hmoved node hreach
  rw [h.refilled.shown?_node, Option.map_some, Prod.map_apply] at hshown
  have hbeside (entry : Role × Nat) (hmem : entry ∈ front ++ back) :
      (a'.shiftWithout (copies.map Prod.snd) root old new).tree entry.2 =
        (a.tree entry.2).shift old new := by
    have hchild : entry.2 ∈ a.children node := List.mem_map_of_mem (h.mem_form hmem)
    have hlink : a.IsParent node entry.2 := (h.wellFormed.linked.parent_iff entry.2 node).2 hchild
    have hstep := (h.isParent_iff (h.lt_of_reaches hroot hreach)).2
      ⟨hlink, fun _ => List.mem_map_of_mem hmem⟩
    exact h.tree_beside hroot old new (.tail hreach hstep) (h.wellFormed.not_below_child hchild).2
  have hfront := mapChildren_eq_shiftForm front fun entry hmem =>
    hbeside entry (List.mem_append_left _ hmem)
  have hback := mapChildren_eq_shiftForm back fun entry hmem =>
    hbeside entry (List.mem_append_right _ hmem)
  have hcopies := h.tree_copies hroot old new
  rw [hwell.tree_of_shown_node hshown, Form.mapChildren_append, Form.mapChildren_append, hfront,
    hback, hcopies]

/-- Replacing a run at the end of a way down and moving everything else does to the tree in the
arena what it does to the tree as a value. -/
theorem RunReplaced.tree_eq_replaceRun (h : RunReplaced a node kind front run copies back a')
    {first count : Nat} (hfront : front = (a.form node).take first)
    (hback : back = (a.form node).drop (first + count)) (hroot : root < a.size)
    (old new : Position) {path : List Nat} (hid : id < a.size)
    (hdescend : a.descend? path id = some node)
    (hreach : a'.ReachesWithout (copies.map Prod.snd) root id) :
    (a'.shiftWithout (copies.map Prod.snd) root old new).tree id =
      Reparse.replaceRun old new first count (Form.mapChildren a'.tree copies) path
        (a.tree id) := by
  induction path generalizing id with
  | nil =>
    obtain rfl : id = node := Option.some.inj hdescend
    obtain ⟨-, htree⟩ := h.wellFormed.tree_of_nodeKind? h.nodeKind?_eq
    rw [h.tree_node hroot old new hreach, htree, Reparse.replaceRun, hfront, hback,
      Form.mapChildren_take, Form.mapChildren_drop]
  | cons index path ih =>
    obtain ⟨_, hstep, hrest⟩ := Option.bind_eq_some_iff.1 hdescend
    rw [children, List.getElem?_map] at hstep
    obtain ⟨⟨role, child⟩, hentry, rfl⟩ := Option.map_eq_some_iff.1 hstep
    obtain ⟨hindex, hget⟩ := List.getElem?_eq_some_iff.1 hentry
    obtain ⟨before, after, hform, hlength⟩ :
        ∃ before after, a.form id = before ++ (role, child) :: after ∧ before.length = index := by
      refine ⟨(a.form id).take index, (a.form id).drop (index + 1), ?_,
        List.length_take_of_le hindex.le⟩
      rw [← hget, List.getElem_cons_drop, List.take_append_drop]
    have hmem : child ∈ a.children id := List.mem_map_of_mem (List.mem_of_getElem? hentry)
    obtain ⟨hlt, hnotup⟩ := h.wellFormed.not_below_child hmem
    -- the node stands below this child, hence below none of its siblings, and is not here
    have hbelow := ((h.wellFormed.descend?_tree path hlt).2 node hrest).2
    have hne : id ≠ node := by
      rintro rfl
      exact hnotup hbelow
    have hreach' (c : Nat) (hc : c ∈ a.children id) :
        a'.ReachesWithout (copies.map Prod.snd) root c :=
      .tail hreach ((h.isParent_iff hid).2
        ⟨(h.wellFormed.linked.parent_iff c id).2 hc, fun heq => absurd heq hne⟩)
    have hbeside (entry : Role × Nat) (hside : entry ∈ before ++ after) :
        (a'.shiftWithout (copies.map Prod.snd) root old new).tree entry.2 =
          (a.tree entry.2).shift old new := by
      have hc : entry.2 ∈ a.children id := by
        rw [children, hform]
        refine List.mem_map_of_mem ?_
        rcases List.mem_append.1 hside with hbefore | hafter
        · exact List.mem_append_left _ hbefore
        · exact List.mem_append_right _ (List.mem_cons_of_mem _ hafter)
      have hother := h.wellFormed.linked.ne_of_beside hform hside
      exact h.tree_beside hroot old new (hreach' entry.2 hc)
        (disjoint_below h.wellFormed.linked h.wellFormed.acyclic hmem hc hother.symm hbelow)
    have hbefore := mapChildren_eq_shiftForm before fun entry hside =>
      hbeside entry (List.mem_append_left _ hside)
    have hafter := mapChildren_eq_shiftForm after fun entry hside =>
      hbeside entry (List.mem_append_right _ hside)
    have hchild := ih hlt hrest (hreach' child hmem)
    obtain ⟨hwell, hmoved, -⟩ := h.moves hroot old new
    obtain ⟨own, hown⟩ := exists_nodeKind_of_mem_children hmem
    obtain ⟨hshown, htree⟩ := h.wellFormed.tree_of_nodeKind? hown
    have hshown' := hmoved id hreach
    rw [h.refilled.shown?_old id hid hne, hshown, hform, Option.map_some, Prod.map_apply] at hshown'
    rw [hwell.tree_of_shown_node hshown', htree, hform, Form.mapChildren_append,
      Form.mapChildren_append, Form.mapChildren_cons, Form.mapChildren_cons, Reparse.replaceRun_child (by rw [Form.length_mapChildren, hlength]),
      hbefore, hafter, hchild]

end RunReplaced

end Arena

end ScriptTree
