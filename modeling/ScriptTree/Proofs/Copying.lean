import ScriptTree.Proofs.Attachment

/-!
# Copies of trees

A tree that is copied into an arena stands beside what was there. Its parents come before their
children, so that no token of the copy is an ancestor of itself, and its forms suit their nodes as
they did where the tree was taken from.
-/

namespace ScriptTree

/-- Every form in the tree suits the kind of its node. -/
inductive Tree.Suited : Tree → Prop
  | leaf (kind : LeafKind) (text : String) (extent : Extent) : Suited (.leaf kind text extent)
  | node {kind : NodeKind} {form : List Entry} (extent : Extent) (suits : Form.Suits kind form)
      (children : ∀ entry ∈ form, Suited entry.2) : Suited (.node kind form extent)

namespace Arena

open Relation

variable {a a' a'' : Arena} {parent : Option Nat}

/-- A tree of a well-formed arena is suited, however deep it is followed. -/
theorem WellFormed.suited_treeFrom (h : a.WellFormed) (fuel id : Nat) :
    (a.treeFrom fuel id).Suited := by
  induction fuel generalizing id with
  | zero => exact .leaf _ _ _
  | succ fuel ih =>
    simp only [treeFrom]
    cases htoken : a.get? id with
    | none => exact .leaf _ _ _
    | some t =>
      dsimp only
      cases hbody : t.body with
      | leaf kind text => exact .leaf _ _ _
      | node kind form =>
        have hkind : a.nodeKind? id = some kind := by
          simp [nodeKind?, kind?, htoken, Token.kind, hbody, TokenKind.node?]
        have hform : a.form id = form := by
          simp [Arena.form, htoken, Token.form, hbody]
        have hsuits : Form.Suits kind form := hform ▸ h.suits id kind hkind
        refine .node _ (hsuits.of_roles (by simp)) fun entry hmem => ?_
        obtain ⟨other, _, rfl⟩ := List.mem_map.1 hmem
        exact ih other.2

/-- What putting in suited trees adds: nodes with forms that suit them. -/
def GrownSuited (a a' : Arena) : Prop :=
  ∀ node kind, a.size ≤ node → a'.nodeKind? node = some kind → Form.Suits kind (a'.form node)

/-- The form and the kind of a node depend on nothing but the node. -/
theorem form_nodeKind?_congr {id : Nat} (h : a'.get? id = a.get? id) :
    a'.form id = a.form id ∧ a'.nodeKind? id = a.nodeKind? id := by
  simp only [form, nodeKind?, kind?, h, and_self]

/-- Adding nothing. -/
theorem grownSuited_refl (a : Arena) : GrownSuited a a := fun _ _ hle hkind =>
  absurd (lt_of_nodeKind? hkind) (Nat.not_lt.2 hle)

/-- Adding one tree and then more behind it. -/
theorem GrownSuited.trans {tops : List Nat} (h : GrownSuited a a') (hmore : GrownSuited a' a'')
    (hgrown : Grown a' a'' parent tops) : GrownSuited a a'' := by
  intro node kind hle hkind
  rcases Nat.lt_or_ge node a'.size with hlt | hge
  · obtain ⟨hform, hnode⟩ := form_nodeKind?_congr (hgrown.get?_of_lt node hlt)
    rw [hform]
    exact h node kind hle (hnode ▸ hkind)
  · exact hmore node kind hge hkind

/-- Adding a leaf. -/
theorem grownSuited_leaf {kind : LeafKind} {text : String} {extent : Extent} :
    GrownSuited a ⟨a.tokens.push { body := .leaf kind text, parent, extent }⟩ := by
  have hnew := get?_push_self a { body := .leaf kind text, parent, extent }
  have hsize := size_push a { body := .leaf kind text, parent, extent }
  intro node nodeKind hle hkind
  rcases Nat.eq_or_lt_of_le hle with rfl | hlt
  · simp [nodeKind?, kind?, hnew, Token.kind, TokenKind.node?] at hkind
  · have hlt' := lt_of_nodeKind? hkind
    omega

/-- Adding a node, then children behind it, and then giving them to the node. -/
theorem grownSuited_node {kind : NodeKind} {extent : Extent} {form : List (Role × Nat)}
    {tops : List Nat} (hsuits : Form.Suits kind form)
    (hgrown : Grown ⟨a.tokens.push { body := .node kind [], parent, extent }⟩ a' (some a.size) tops)
    (h : GrownSuited ⟨a.tokens.push { body := .node kind [], parent, extent }⟩ a') :
    GrownSuited a (a'.updateForm a.size fun _ => form) := by
  have hsize := size_push a { body := .node kind [], parent, extent }
  have hself := hgrown.get?_of_lt a.size (by omega)
  rw [get?_push_self] at hself
  have hkind : a'.nodeKind? a.size = some kind := by
    simp [nodeKind?, kind?, hself, Token.kind, TokenKind.node?]
  intro node nodeKind hle hnode
  rw [nodeKind?_updateForm] at hnode
  rw [form_updateForm hkind]
  split
  · rename_i heq
    obtain rfl : kind = nodeKind := Option.some.inj (hkind.symm.trans (heq ▸ hnode))
    exact hsuits
  · exact h node nodeKind (by omega) hnode

/-- Children that are put in keep their roles. -/
theorem roles_insertForm (a : Arena) (parent : Nat) (form : List Entry) :
    (a.insertForm parent form).2.map Prod.fst = form.map Prod.fst := by
  induction form generalizing a with
  | nil => rfl
  | cons entry rest ih =>
    obtain ⟨role, t⟩ := entry
    rw [insertForm, List.map_cons, List.map_cons, ih]

mutual

/-- Putting in a suited tree. -/
theorem grownSuited_insertTree (a : Arena) (parent : Option Nat) (t : Tree) (h : t.Suited) :
    GrownSuited a (a.insertTree parent t).1 := by
  match t, h with
  | .leaf kind text extent, _ =>
    rw [insertTree]
    exact grownSuited_leaf
  | .node kind form extent, .node _ hsuits hchildren =>
    rw [insertTree]
    exact grownSuited_node (hsuits.of_roles (roles_insertForm _ a.size form))
      (grown_insertForm _ a.size form) (grownSuited_insertForm _ a.size form hchildren)

/-- Putting in suited children. -/
theorem grownSuited_insertForm (a : Arena) (parent : Nat) (form : List Entry)
    (h : ∀ entry ∈ form, entry.2.Suited) : GrownSuited a (a.insertForm parent form).1 := by
  match form, h with
  | [], _ =>
    rw [insertForm]
    exact grownSuited_refl a
  | (role, t) :: rest, h =>
    rw [insertForm]
    have hfirst : GrownSuited a (a.insertTree (some parent) t).1 :=
      grownSuited_insertTree a (some parent) t (h _ List.mem_cons_self)
    have hrest : ∀ entry ∈ rest, entry.2.Suited := fun entry hmem =>
      h entry (List.mem_cons_of_mem _ hmem)
    exact hfirst.trans (grownSuited_insertForm _ parent rest hrest) (grown_insertForm _ parent rest)

end

/-- Parents and forms agree when a tree is put beside what an arena holds. -/
theorem Linked.insertTree (h : a.Linked) (t : Tree) : (a.insertTree none t).1.Linked := by
  have hgrown := grown_insertTree a none t
  generalize (a.insertTree none t).1 = a', [(a.insertTree none t).2] = tops at hgrown
  have hiff (token node : Nat) (hle : a.size ≤ token) :
      a'.parent? token = some node ↔ a.size ≤ node ∧ token ∈ a'.children node := by
    simpa using hgrown.parent_iff token node hle
  have hold {token : Nat} (hlt : token < a.size) := hgrown.get?_of_lt token hlt
  refine ⟨fun token node => ?_, fun node => ?_⟩
  · rcases Nat.lt_or_ge token a.size with hlt | hge
    · rw [parent?_congr (hold hlt), h.parent_iff]
      rcases Nat.lt_or_ge node a.size with hnlt | hnge
      · rw [children_congr (hold hnlt)]
      · rw [children_of_size_le hnge]
        refine iff_of_false (List.not_mem_nil) fun hmem => ?_
        have := hgrown.child_lt node hnge token hmem
        omega
    · rw [hiff token node hge]
      refine ⟨And.right, fun hmem => ⟨?_, hmem⟩⟩
      by_contra hnlt
      rw [children_congr (hold (Nat.lt_of_not_le hnlt))] at hmem
      exact absurd (h.child_lt hmem) (Nat.not_lt.2 hge)
  · rcases Nat.lt_or_ge node a.size with hlt | hge
    · rw [children_congr (hold hlt)]
      exact h.nodup node
    · exact hgrown.children_nodup node hge

/-- No token becomes an ancestor of itself when a tree is put beside what an arena holds. -/
theorem Acyclic.insertTree (hacyclic : a.Acyclic) (hlinked : a.Linked) (t : Tree) :
    (a.insertTree none t).1.Acyclic := by
  have hgrown := grown_insertTree a none t
  generalize (a.insertTree none t).1 = a', [(a.insertTree none t).2] = tops at hgrown
  have habove {token node : Nat} (hle : a.size ≤ token) (hlink : a'.IsParent node token) :
      a.size ≤ node ∧ node < token := by
    rw [IsParent, hgrown.parent_iff token node hle] at hlink
    obtain ⟨-, hnone⟩ | ⟨hnode, hmem⟩ := hlink
    · cases hnone
    · exact ⟨hnode, (hgrown.child_lt node hnode token hmem).1⟩
  -- an ancestor of a new token is new and comes before it; those of an old token are old
  have hnew {x y : Nat} (hway : TransGen a'.IsParent x y) (hle : a.size ≤ y) : x < y := by
    induction hway with
    | single hlink => exact (habove hle hlink).2
    | tail _ hlink ih =>
      obtain ⟨hle', hlt⟩ := habove hle hlink
      exact Nat.lt_trans (ih hle') hlt
  have hold {x y : Nat} (hway : TransGen a'.IsParent x y) (hlt : y < a.size) :
      TransGen a.IsParent x y := by
    induction hway with
    | single hlink =>
      rw [IsParent, parent?_congr (hgrown.get?_of_lt _ hlt)] at hlink
      exact .single hlink
    | tail _ hlink ih =>
      rw [IsParent, parent?_congr (hgrown.get?_of_lt _ hlt)] at hlink
      exact .tail (ih (hlinked.parent_lt hlink)) hlink
  intro id hcycle
  rcases Nat.lt_or_ge id a.size with hlt | hge
  · exact hacyclic id (hold hcycle hlt)
  · exact Nat.lt_irrefl id (hnew hcycle hge)

/-- An arena stays well formed when a suited tree is put beside what it holds. -/
theorem WellFormed.insertTree {t : Tree} (h : a.WellFormed) (ht : t.Suited) :
    (a.insertTree none t).1.WellFormed := by
  refine ⟨h.linked.insertTree t, h.acyclic.insertTree h.linked t, fun node kind hkind => ?_⟩
  rcases Nat.lt_or_ge node a.size with hlt | hge
  · obtain ⟨hform, hnode⟩ := form_nodeKind?_congr ((grown_insertTree a none t).get?_of_lt node hlt)
    rw [hform]
    exact h.suits node kind (hnode ▸ hkind)
  · exact grownSuited_insertTree a none t ht node kind hge hkind

end Arena

end ScriptTree
