import Mathlib.Algebra.GroupWithZero.Nat
import ScriptTree.Arena.Rooted
import ScriptTree.Proofs.Preorder

/-!
# Walks with a stack

A walk with a stack does what the recursion does that it stands for, if it has a step for each token
that it meets. The walk down from a token meets the tokens below it, and the outline written line by
line is that of the tree as a value.
-/

namespace ScriptTree

/-- A walk with enough steps meets what is below each thing on the stack, one after another. -/
theorem map_stackWalk {α β : Type} {next : α → List α} {shown : α → β} {below : α → List β}
    {P : α → Prop} (hbelow : ∀ x, P x → below x = shown x :: (next x).flatMap below)
    (hnext : ∀ x, P x → ∀ y ∈ next x, P y) {steps : Nat} {stack : List α}
    (hstack : ∀ x ∈ stack, P x) (hsteps : (stack.flatMap below).length ≤ steps) :
    (stackWalk next steps stack).map shown = stack.flatMap below := by
  induction steps generalizing stack with
  | zero =>
    have hnil : stack.flatMap below = [] := List.length_eq_zero_iff.1 (Nat.le_zero.1 hsteps)
    rw [hnil, stackWalk, List.map_nil]
  | succ steps ih =>
    cases stack with
    | nil => rfl
    | cons x stack =>
      have hx := hstack x List.mem_cons_self
      have hpop : (x :: stack).flatMap below = shown x :: (next x ++ stack).flatMap below := by
        rw [List.flatMap_cons, hbelow x hx, List.flatMap_append, List.cons_append]
      rw [hpop, List.length_cons] at hsteps
      rw [hpop, stackWalk, List.map_cons, ih (fun y hy => ?_) (by omega)]
      rcases List.mem_append.1 hy with hy | hy
      · exact hnext x hx y hy
      · exact hstack y (List.mem_cons_of_mem x hy)

namespace Tree

mutual

/-- An outline has a line for each token. -/
theorem length_outlineLines (depth : Nat) (role? : Option Role) (t : Tree) :
    (t.outlineLines depth role?).length = t.size := by
  match t with
  | .leaf kind text extent => simp [outlineLines, size]
  | .node kind form extent =>
    rw [outlineLines, size, List.length_cons, length_outlineOfForm (depth + 1) form]
    omega

/-- So has the outline of children. -/
theorem length_outlineOfForm (depth : Nat) (form : List Entry) :
    (outlineOfForm depth form).length = sizeOfForm form := by
  match form with
  | [] => simp [outlineOfForm, sizeOfForm]
  | (role, t) :: rest =>
    rw [outlineOfForm, sizeOfForm, List.length_append, length_outlineLines depth (some role) t,
      length_outlineOfForm depth rest]

end

/-- The lines of children, each with its role. -/
theorem outlineOfForm_eq_flatMap (depth : Nat) (form : List Entry) :
    outlineOfForm depth form =
      form.flatMap fun entry => entry.2.outlineLines depth (some entry.1) := by
  induction form with
  | nil => rfl
  | cons entry rest ih =>
    obtain ⟨role, t⟩ := entry
    rw [outlineOfForm, ih, List.flatMap_cons]

/-- The number of tokens of children. -/
theorem sizeOfForm_eq_sum (form : List Entry) :
    sizeOfForm form = (form.map fun entry => entry.2.size).sum := by
  induction form with
  | nil => rfl
  | cons entry rest ih =>
    obtain ⟨role, t⟩ := entry
    rw [sizeOfForm, ih, List.map_cons, List.sum_cons]

end Tree

namespace Arena

variable {a : Arena} {id top : Nat}

/-- The walk down meets the tokens below a token, parents before their children. -/
theorem stackWalk_children (hlinked : a.Linked) (hacyclic : a.Acyclic) (htop : top < a.size) :
    stackWalk a.children a.size [top] = a.preorder top := by
  have hwalk : (stackWalk a.children a.size [top]).map (fun id => id) =
      [top].flatMap a.preorder :=
    map_stackWalk (fun _ => preorder_eq hlinked hacyclic) (fun _ _ _ => hlinked.child_lt)
      (by simpa using htop) (by simpa using length_preorder_le hlinked hacyclic htop)
  simpa using hwalk

/-! ### Trees as values -/

/-- A tree is the same however deep it is followed, if no tokens are left out. -/
theorem treeFrom_eq (hlinked : a.Linked) (hacyclic : a.Acyclic) (hid : id < a.size)
    {fuel more : Nat} (hfuel : a.size ≤ fuel + (a.ancestors id).length)
    (hmore : a.size ≤ more + (a.ancestors id).length) :
    a.treeFrom fuel id = a.treeFrom more id := by
  induction fuel generalizing id more with
  | zero =>
    have hlt : (a.ancestors id).length < a.size :=
      length_ancestorsFrom_lt hlinked hacyclic hid a.size
    omega
  | succ fuel ih =>
    have hlt : (a.ancestors id).length < a.size :=
      length_ancestorsFrom_lt hlinked hacyclic hid a.size
    obtain ⟨more, rfl⟩ : ∃ n, more = n + 1 := ⟨more - 1, by omega⟩
    rw [treeFrom, treeFrom]
    cases htoken : a.get? id with
    | none => rfl
    | some token =>
      dsimp only
      cases hbody : token.body with
      | leaf kind text => rfl
      | node kind form =>
        have hform : a.form id = form := by simp [Arena.form, htoken, Token.form, hbody]
        simp only [Tree.node.injEq, true_and, and_true]
        refine List.map_congr_left fun entry hmem => Prod.ext rfl ?_
        have hchild : entry.2 ∈ a.children id := List.mem_map_of_mem (hform ▸ hmem)
        have hdeeper := congrArg List.length (ancestors_child hlinked hacyclic hchild)
        rw [List.length_cons] at hdeeper
        exact ih (hlinked.child_lt hchild) (by omega) (by omega)

/-- The tree of a leaf. -/
theorem tree_of_leaf {token : Token} {kind : LeafKind} {text : String}
    (htoken : a.get? id = some token) (hbody : token.body = .leaf kind text) :
    a.tree id = .leaf kind text token.extent := by
  have hid : id < a.size := by
    by_contra hge
    rw [get?, Array.getElem?_eq_none (Nat.le_of_not_lt hge)] at htoken
    cases htoken
  obtain ⟨n, hn⟩ : ∃ n, a.size = n + 1 := ⟨a.size - 1, by omega⟩
  rw [tree, hn, treeFrom]
  simp only [htoken, hbody]

/-- The tree of a node is made of the trees of its children. -/
theorem tree_of_node (hlinked : a.Linked) (hacyclic : a.Acyclic) {token : Token} {kind : NodeKind}
    {form : List (Role × Nat)} (htoken : a.get? id = some token)
    (hbody : token.body = .node kind form) :
    a.tree id = .node kind (form.map fun entry => (entry.1, a.tree entry.2)) token.extent := by
  have hid : id < a.size := by
    by_contra hge
    rw [get?, Array.getElem?_eq_none (Nat.le_of_not_lt hge)] at htoken
    cases htoken
  have hform : a.form id = form := by simp [Arena.form, htoken, Token.form, hbody]
  obtain ⟨n, hn⟩ : ∃ n, a.size = n + 1 := ⟨a.size - 1, by omega⟩
  rw [tree, hn, treeFrom]
  simp only [htoken, hbody, Tree.node.injEq, true_and, and_true]
  refine List.map_congr_left fun entry hmem => Prod.ext rfl ?_
  have hchild : entry.2 ∈ a.children id := List.mem_map_of_mem (hform ▸ hmem)
  have hdeeper := congrArg List.length (ancestors_child hlinked hacyclic hchild)
  rw [List.length_cons] at hdeeper
  exact treeFrom_eq hlinked hacyclic (hlinked.child_lt hchild) (by omega) (by omega)

/-- A tree has as many tokens as stand below its topmost. -/
theorem size_tree (hlinked : a.Linked) (hacyclic : a.Acyclic) (hid : id < a.size) :
    (a.tree id).size = (a.preorder id).length := by
  refine below_induction hlinked hacyclic (P := fun id =>
    (a.tree id).size = (a.preorder id).length) (fun node hnode ih => ?_) hid
  obtain ⟨token, htoken⟩ : ∃ token, a.get? node = some token :=
    ⟨_, Array.getElem?_eq_getElem hnode⟩
  rw [preorder_eq hlinked hacyclic hnode, List.length_cons]
  cases hbody : token.body with
  | leaf kind text =>
    have hchildren : a.children node = [] := by
      simp [children, Arena.form, htoken, Token.form, hbody]
    rw [tree_of_leaf htoken hbody, hchildren, Tree.size, List.flatMap_nil, List.length_nil]
  | node kind form =>
    have hchildren : a.children node = form.map Prod.snd := by
      simp [children, Arena.form, htoken, Token.form, hbody]
    rw [tree_of_node hlinked hacyclic htoken hbody, Tree.size, Tree.sizeOfForm_eq_sum,
      List.length_flatMap, ← List.map_congr_left ih, hchildren, List.map_map, List.map_map,
      Nat.add_comm]
    rfl

end Arena

namespace RootedArena

open Arena

variable {r : RootedArena}

/-- The lines of the tree of a token are its own line and those of its children. -/
theorem outlineLines_tree (hlinked : r.arena.Linked) (hacyclic : r.arena.Acyclic)
    (frame : OutlineFrame) (hframe : frame.token < r.arena.size) :
    (r.arena.tree frame.token).outlineLines frame.depth frame.role? =
      frame.line r.arena :: (frame.children r.arena).flatMap fun frame =>
        (r.arena.tree frame.token).outlineLines frame.depth frame.role? := by
  obtain ⟨token, htoken⟩ : ∃ token, r.arena.get? frame.token = some token :=
    ⟨_, Array.getElem?_eq_getElem hframe⟩
  rw [OutlineFrame.line, OutlineFrame.children, kind?, extent, text?, form]
  cases hbody : token.body with
  | leaf kind text =>
    rw [tree_of_leaf htoken hbody, Tree.outlineLines]
    simp [htoken, hbody, Token.kind, Token.form, Token.text?]
  | node kind form =>
    rw [tree_of_node hlinked hacyclic htoken hbody, Tree.outlineLines,
      Tree.outlineOfForm_eq_flatMap]
    simp [htoken, hbody, Token.kind, Token.form, Token.text?, List.flatMap_map]

/-- The outline that is written line by line is that of the tree. -/
theorem outline_eq_outline_tree (hlinked : r.arena.Linked) (hacyclic : r.arena.Acyclic)
    (hroot : r.root < r.arena.size) : r.outline = r.tree.outline := by
  have hlength : (r.tree.outlineLines 0 none).length ≤ r.arena.size := by
    rw [Tree.length_outlineLines, RootedArena.tree, size_tree hlinked hacyclic hroot]
    exact length_preorder_le hlinked hacyclic hroot
  have hwalk : (stackWalk (OutlineFrame.children r.arena) r.arena.size
      [{ token := r.root }]).map (OutlineFrame.line r.arena) = r.tree.outlineLines 0 none := by
    rw [map_stackWalk (P := fun frame => frame.token < r.arena.size)
      (outlineLines_tree hlinked hacyclic) ?_ (by simpa using hroot)
      (by simpa [RootedArena.tree] using hlength)]
    · simp [RootedArena.tree]
    · intro frame _ child hmem
      obtain ⟨entry, hentry, rfl⟩ := List.mem_map.1 hmem
      exact hlinked.child_lt (List.mem_map_of_mem hentry)
  rw [RootedArena.outline, Tree.outline, ← hwalk, List.map_map]
  rfl

end RootedArena

end ScriptTree
