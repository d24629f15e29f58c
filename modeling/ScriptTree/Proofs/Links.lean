import ScriptTree.Arena.Copy

/-!
# Parent links

A tree that is put into an arena adds tokens behind those already there, and among the new ones
the parent of a token is the node in whose form it stands. Both are said of any run of children
that is put in, so that a run and one more child before it need no look at what is inside them.
-/

namespace ScriptTree.Arena

/-- The parents of tokens and the forms of nodes agree, and no form holds a token twice. -/
structure Linked (a : Arena) : Prop where
  parent_iff : ∀ token node, a.parent? token = some node ↔ token ∈ a.children node
  nodup : ∀ node, (a.children node).Nodup

/-- What putting in trees adds to an arena: tokens with new names, parents before their children and
linked among each other but for the topmost ones, whose parent was given. -/
structure Grown (a a' : Arena) (parent : Option Nat) (tops : List Nat) : Prop where
  size_le : a.size ≤ a'.size
  get?_of_lt : ∀ token < a.size, a'.get? token = a.get? token
  top_lt : ∀ token ∈ tops, a.size ≤ token ∧ token < a'.size
  tops_nodup : tops.Nodup
  child_lt : ∀ node, a.size ≤ node → ∀ token ∈ a'.children node,
    node < token ∧ token < a'.size
  children_nodup : ∀ node, a.size ≤ node → (a'.children node).Nodup
  parent_iff : ∀ token node, a.size ≤ token →
    (a'.parent? token = some node ↔
      token ∈ tops ∧ parent = some node ∨ a.size ≤ node ∧ token ∈ a'.children node)

variable {a a' a'' : Arena} {parent : Option Nat} {id : Nat}

/-- No token stands below a name that is not taken. -/
theorem children_of_size_le (h : a.size ≤ id) : a.children id = [] := by
  have hnone : a.get? id = none := Array.getElem?_eq_none h
  simp [children, form, hnone]

/-- A name that is not taken has no parent. -/
theorem parent?_of_size_le (h : a.size ≤ id) : a.parent? id = none := by
  have hnone : a.get? id = none := Array.getElem?_eq_none h
  simp [parent?, hnone]

/-- The children of a token depend on nothing but the token. -/
theorem children_congr (h : a'.get? id = a.get? id) : a'.children id = a.children id := by
  simp only [children, form, h]

/-- The parent of a token depends on nothing but the token. -/
theorem parent?_congr (h : a'.get? id = a.get? id) : a'.parent? id = a.parent? id := by
  simp only [parent?, h]

/-- A token put at the end is found under the next name. -/
theorem get?_push_self (a : Arena) (token : Token) :
    (⟨a.tokens.push token⟩ : Arena).get? a.size = some token := by
  simp [get?, size]

/-- A token put at the end changes no other. -/
theorem get?_push_of_lt (token : Token) (h : id < a.size) :
    (⟨a.tokens.push token⟩ : Arena).get? id = a.get? id := by
  have hne : id ≠ a.tokens.size := Nat.ne_of_lt h
  simp only [get?, Array.getElem?_push, if_neg hne]

/-- A token put at the end is one more. -/
theorem size_push (a : Arena) (token : Token) :
    (⟨a.tokens.push token⟩ : Arena).size = a.size + 1 := by
  simp [size]

/-- Adding nothing. -/
theorem Grown.refl (a : Arena) (parent : Option Nat) : Grown a a parent [] where
  size_le := Nat.le_refl _
  get?_of_lt _ _ := rfl
  top_lt := by simp
  tops_nodup := List.nodup_nil
  child_lt node h := by simp [children_of_size_le h]
  children_nodup node h := by simp [children_of_size_le h]
  parent_iff token node h := by
    have hchild : a.size ≤ node → token ∉ a.children node := fun hnode => by
      simp [children_of_size_le hnode]
    simp only [parent?_of_size_le h, List.not_mem_nil, false_and, false_or, reduceCtorEq,
      false_iff, not_and]
    exact hchild

/-- Adding one tree and then more behind it. A name below the end of the first tree is looked up
there, any other in what came behind. -/
theorem Grown.trans {top : Nat} {tops : List Nat} (h : Grown a a' parent [top])
    (h' : Grown a' a'' parent tops) : Grown a a'' parent (top :: tops) := by
  have hsize := h.size_le
  have hsize' := h'.size_le
  have htop := h.top_lt top List.mem_cons_self
  have htops {token : Nat} (hlt : token < a'.size) : token ∉ tops := fun hmem =>
    absurd (h'.top_lt token hmem).1 (Nat.not_le.2 hlt)
  have hchildren {node : Nat} (hlt : node < a'.size) : a''.children node = a'.children node :=
    children_congr (h'.get?_of_lt node hlt)
  have hbelow {node : Nat} (hle : a.size ≤ node) (hlt : node < a'.size) {token : Nat}
      (hmem : token ∈ a''.children node) : node < token ∧ token < a'.size :=
    h.child_lt node hle token (hchildren hlt ▸ hmem)
  have hbehind {node : Nat} (hge : a'.size ≤ node) {token : Nat}
      (hmem : token ∈ a''.children node) : node < token ∧ token < a''.size :=
    h'.child_lt node hge token hmem
  exact {
    size_le := Nat.le_trans hsize hsize'
    get?_of_lt := fun token hlt => by
      rw [h'.get?_of_lt token (by omega), h.get?_of_lt token hlt]
    top_lt := fun token hmem => by
      rcases List.mem_cons.1 hmem with rfl | hmem
      · omega
      · have := h'.top_lt token hmem
        omega
    tops_nodup := List.nodup_cons.2 ⟨htops htop.2, h'.tops_nodup⟩
    child_lt := fun node hle token hmem => by
      rcases Nat.lt_or_ge node a'.size with hlt | hge
      · have := hbelow hle hlt hmem
        omega
      · exact hbehind hge hmem
    children_nodup := fun node hle => by
      rcases Nat.lt_or_ge node a'.size with hlt | hge
      · rw [hchildren hlt]
        exact h.children_nodup node hle
      · exact h'.children_nodup node hge
    parent_iff := fun token node hle => by
      rcases Nat.lt_or_ge token a'.size with hlt | hge
      · rw [parent?_congr (h'.get?_of_lt token hlt), h.parent_iff token node hle]
        simp only [List.mem_cons, List.not_mem_nil, or_false, htops hlt]
        refine or_congr_right (and_congr_right fun hnode => ?_)
        rcases Nat.lt_or_ge node a'.size with hnlt | hnge
        · rw [hchildren hnlt]
        · refine iff_of_false (by simp [children_of_size_le hnge]) fun hmem => ?_
          have := hbehind hnge hmem
          omega
      · rw [h'.parent_iff token node hge]
        have hne : token ≠ top := by omega
        simp only [List.mem_cons, hne, false_or]
        refine or_congr_right ⟨fun ⟨hnode, hmem⟩ => ⟨by omega, hmem⟩, fun ⟨hnode, hmem⟩ => ?_⟩
        refine ⟨Nat.le_of_not_lt fun hnlt => ?_, hmem⟩
        have := hbelow hnode hnlt hmem
        omega }

/-- Adding a token without children. -/
theorem grown_push {token : Token} (hform : token.form = []) :
    Grown a ⟨a.tokens.push token⟩ token.parent [a.size] := by
  have hnew := get?_push_self a token
  have hsize := size_push a token
  have hchildren {node : Nat} (hle : a.size ≤ node) :
      (⟨a.tokens.push token⟩ : Arena).children node = [] := by
    rcases Nat.eq_or_lt_of_le hle with rfl | hlt
    · simp [children, form, hnew, hform]
    · exact children_of_size_le (by omega)
  exact {
    size_le := by omega
    get?_of_lt := fun id hlt => get?_push_of_lt token hlt
    top_lt := by
      simp only [List.mem_singleton]
      omega
    tops_nodup := by simp
    child_lt := fun node hle => by simp [hchildren hle]
    children_nodup := fun node hle => by simp [hchildren hle]
    parent_iff := fun id node hle => by
      have hnot : ¬ (a.size ≤ node ∧ id ∈ (⟨a.tokens.push token⟩ : Arena).children node) :=
        fun ⟨hnode, hmem⟩ => by simp [hchildren hnode] at hmem
      rcases Nat.eq_or_lt_of_le hle with rfl | hlt
      · simp [parent?, hnew, hnot]
      · have hne : id ≠ a.size := by omega
        have hnone : (⟨a.tokens.push token⟩ : Arena).parent? id = none :=
          parent?_of_size_le (by omega)
        simp [hnone, hnot, hne] }

section Node

variable {kind : NodeKind} {extent : Extent} {form : List (Role × Nat)} {tops : List Nat}

/-- Changing the form of a node changes no other token. -/
theorem get?_updateForm_of_ne {change : List (Role × Nat) → List (Role × Nat)} {node : Nat}
    (h : id ≠ node) : (a.updateForm node change).get? id = a.get? id :=
  get?_update_of_ne a _ h

/-- A node that was added first and given its children last. -/
theorem Grown.get?_node
    (h : Grown ⟨a.tokens.push { body := .node kind [], parent, extent }⟩ a' (some a.size) tops) :
    (a'.updateForm a.size fun _ => form).get? a.size =
      some { body := .node kind form, parent, extent } := by
  have hpushed := size_push a { body := .node kind [], parent, extent }
  rw [updateForm, get?_update_self, h.get?_of_lt a.size (by omega), get?_push_self]
  simp [Token.mapForm]

theorem Grown.children_node
    (h : Grown ⟨a.tokens.push { body := .node kind [], parent, extent }⟩ a' (some a.size) tops) :
    (a'.updateForm a.size fun _ => form).children a.size = form.map Prod.snd := by
  simp [children, Arena.form, h.get?_node, Token.form]

/-- What stands below the node and below its children was added after it. -/
theorem Grown.child_lt_node
    (h : Grown ⟨a.tokens.push { body := .node kind [], parent, extent }⟩ a' (some a.size)
      (form.map Prod.snd)) {token node : Nat} (hle : a.size ≤ node)
    (hmem : token ∈ (a'.updateForm a.size fun _ => form).children node) :
    node < token ∧ token < a'.size := by
  have hpushed := size_push a { body := .node kind [], parent, extent }
  by_cases heq : node = a.size
  · rw [heq, h.children_node] at hmem
    have := h.top_lt token hmem
    omega
  · rw [children_congr (get?_updateForm_of_ne heq)] at hmem
    exact h.child_lt node (by omega) token hmem

/-- The node is the parent of the children that it was given. -/
theorem Grown.parent_iff_node
    (h : Grown ⟨a.tokens.push { body := .node kind [], parent, extent }⟩ a' (some a.size)
      (form.map Prod.snd)) {token node : Nat} (hlt : a.size < token) :
    (a'.updateForm a.size fun _ => form).parent? token = some node ↔
      a.size ≤ node ∧ token ∈ (a'.updateForm a.size fun _ => form).children node := by
  have hpushed := size_push a { body := .node kind [], parent, extent }
  rw [parent?_congr (get?_updateForm_of_ne (Nat.ne_of_gt hlt)),
    h.parent_iff token node (by omega), hpushed]
  rcases Decidable.em (node = a.size) with rfl | hnode
  · have hnot : ¬ a.size + 1 ≤ a.size := Nat.not_succ_le_self _
    simp only [h.children_node, hnot, Nat.le_refl, true_and, and_true, false_and, or_false]
  · rw [children_congr (get?_updateForm_of_ne hnode)]
    have hne : some a.size ≠ some node := fun heq => hnode (Option.some.inj heq).symm
    have hle_iff : a.size + 1 ≤ node ↔ a.size ≤ node := by omega
    simp only [hne, and_false, false_or, hle_iff]

/-- Adding a node, then children behind it, and then giving them to the node. -/
theorem grown_node
    (h : Grown ⟨a.tokens.push { body := .node kind [], parent, extent }⟩ a' (some a.size)
      (form.map Prod.snd)) :
    Grown a (a'.updateForm a.size fun _ => form) parent [a.size] := by
  have hpushed := size_push a { body := .node kind [], parent, extent }
  have hsize : (a'.updateForm a.size fun _ => form).size = a'.size := size_update a' a.size _
  have hsize_le := h.size_le
  exact {
    size_le := by omega
    get?_of_lt := fun token hlt => by
      rw [get?_updateForm_of_ne (by omega), h.get?_of_lt token (by omega),
        get?_push_of_lt _ hlt]
    top_lt := by
      simp only [List.mem_singleton, forall_eq]
      omega
    tops_nodup := by simp
    child_lt := fun node hle token hmem => hsize ▸ h.child_lt_node hle hmem
    children_nodup := fun node hle => by
      by_cases heq : node = a.size
      · rw [heq, h.children_node]
        exact h.tops_nodup
      · rw [children_congr (get?_updateForm_of_ne heq)]
        exact h.children_nodup node (by omega)
    parent_iff := fun token node hle => by
      rcases Nat.eq_or_lt_of_le hle with rfl | hlt
      · have hnot : ¬ (a.size ≤ node ∧
            a.size ∈ (a'.updateForm a.size fun _ => form).children node) := fun ⟨hnode, hmem⟩ =>
          absurd (h.child_lt_node hnode hmem).1 (Nat.not_lt.2 hnode)
        simp [parent?, h.get?_node, hnot]
      · rw [h.parent_iff_node hlt]
        simp [Nat.ne_of_gt hlt] }

end Node

mutual

/-- Putting in a tree adds it as one topmost token. -/
theorem grown_insertTree (a : Arena) (parent : Option Nat) (t : Tree) :
    Grown a (a.insertTree parent t).1 parent [(a.insertTree parent t).2] := by
  match t with
  | .leaf kind text extent =>
    rw [insertTree]
    exact grown_push rfl
  | .node kind form extent =>
    rw [insertTree]
    exact grown_node (grown_insertForm _ a.size form)

/-- Putting in children adds them as topmost tokens. -/
theorem grown_insertForm (a : Arena) (parent : Nat) (form : List Entry) :
    Grown a (a.insertForm parent form).1 (some parent)
      ((a.insertForm parent form).2.map Prod.snd) := by
  match form with
  | [] =>
    rw [insertForm]
    exact .refl a (some parent)
  | (role, t) :: rest =>
    rw [insertForm]
    exact (grown_insertTree a (some parent) t).trans (grown_insertForm _ parent rest)

end

/-- In an arena that holds one tree, parents and forms agree. -/
theorem linked_ofTree (t : Tree) : (ofTree t).Linked := by
  have h := grown_insertTree {} none t
  constructor
  · intro token node
    have hiff := h.parent_iff token node (Nat.zero_le _)
    simpa [ofTree, size] using hiff
  · exact fun node => h.children_nodup node (Nat.zero_le _)

/-- The topmost token of a tree that is put in has the next name. -/
theorem snd_insertTree (a : Arena) (parent : Option Nat) (t : Tree) :
    (a.insertTree parent t).2 = a.size := by
  cases t <;> rfl

mutual

/-- Putting in a tree adds as many tokens as the tree has. -/
theorem size_insertTree (a : Arena) (parent : Option Nat) (t : Tree) :
    (a.insertTree parent t).1.size = a.size + t.size := by
  match t with
  | .leaf kind text extent => simp [insertTree, size, Tree.size]
  | .node kind form extent =>
    simp only [insertTree, updateForm, size_update, size_insertForm _ a.size form, Tree.size]
    simp only [size, Array.size_push]
    omega

/-- Putting in children adds as many tokens as they have together. -/
theorem size_insertForm (a : Arena) (parent : Nat) (form : List Entry) :
    (a.insertForm parent form).1.size = a.size + Tree.sizeOfForm form := by
  match form with
  | [] => simp [insertForm, Tree.sizeOfForm]
  | (role, t) :: rest =>
    simp only [insertForm, size_insertForm _ parent rest, size_insertTree a (some parent) t,
      Tree.sizeOfForm]
    omega

end

/-- What was put in is found again in every arena that has the same tokens from there on. -/
def SameFrom (start : Nat) (a b : Arena) : Prop :=
  ∀ token, start ≤ token → token < a.size → b.get? token = a.get? token

mutual

/-- A tree that was put in is taken out as it was. -/
theorem treeFrom_insertTree {b : Arena} {fuel : Nat} (a : Arena) (parent : Option Nat) (t : Tree)
    (hsame : SameFrom a.size (a.insertTree parent t).1 b) (hfuel : t.depth < fuel) :
    b.treeFrom fuel (a.insertTree parent t).2 = t := by
  obtain ⟨fuel, rfl⟩ : ∃ n, fuel = n + 1 := ⟨fuel - 1, by omega⟩
  match t with
  | .leaf kind text extent =>
    simp only [insertTree] at hsame ⊢
    rw [treeFrom, hsame a.size (Nat.le_refl _) (by simp [size_push]), get?_push_self]
  | .node kind form extent =>
    rw [Tree.depth] at hfuel
    have hgrown := grown_insertForm ⟨a.tokens.push { body := .node kind [], parent, extent }⟩
      a.size form
    have hpushed := size_push a { body := .node kind [], parent, extent }
    have hle := hgrown.size_le
    simp only [insertTree, updateForm, SameFrom, size_update] at hsame ⊢
    have hself := hsame a.size (Nat.le_refl _) (by omega)
    rw [get?_update_self, hgrown.get?_of_lt a.size (by omega), get?_push_self] at hself
    have hform := treeFrom_insertForm _ a.size form (fun token hge hlt => by
      rw [hsame token (by omega) hlt]
      exact get?_update_of_ne _ _ (by omega)) (by omega : Tree.depthOfForm form ≤ fuel)
    rw [treeFrom, hself]
    simp only [Option.map_some, Token.mapForm, hform]

/-- Children that were put in are taken out as they were. -/
theorem treeFrom_insertForm {b : Arena} {fuel : Nat} (a : Arena) (parent : Nat)
    (form : List Entry) (hsame : SameFrom a.size (a.insertForm parent form).1 b)
    (hfuel : Tree.depthOfForm form ≤ fuel) :
    ((a.insertForm parent form).2.map fun entry => (entry.1, b.treeFrom fuel entry.2)) = form := by
  match form with
  | [] => rfl
  | (role, t) :: rest =>
    rw [Tree.depthOfForm] at hfuel
    have hfirst := grown_insertTree a (some parent) t
    have hrest := grown_insertForm (a.insertTree (some parent) t).1 parent rest
    have hsame_first : SameFrom a.size (a.insertTree (some parent) t).1 b := by
      intro token hle hlt
      rw [← hrest.get?_of_lt token hlt]
      exact hsame token hle (Nat.lt_of_lt_of_le hlt hrest.size_le)
    have hsame_rest : SameFrom (a.insertTree (some parent) t).1.size
        ((a.insertTree (some parent) t).1.insertForm parent rest).1 b :=
      fun token hle hlt => hsame token (Nat.le_trans hfirst.size_le hle) hlt
    rw [insertForm, List.map_cons, treeFrom_insertTree a (some parent) t hsame_first (by omega),
      treeFrom_insertForm _ parent rest hsame_rest (by omega)]

end

mutual

/-- A tree is less deep than it has tokens. -/
theorem depth_lt_size (t : Tree) : t.depth < t.size := by
  match t with
  | .leaf kind text extent => simp [Tree.depth, Tree.size]
  | .node kind form extent =>
    have := depthOfForm_le_sizeOfForm form
    rw [Tree.depth, Tree.size]
    omega

/-- Children are no deeper than they have tokens. -/
theorem depthOfForm_le_sizeOfForm (form : List Entry) :
    Tree.depthOfForm form ≤ Tree.sizeOfForm form := by
  match form with
  | [] => simp [Tree.depthOfForm]
  | (role, t) :: rest =>
    have := depth_lt_size t
    have := depthOfForm_le_sizeOfForm rest
    rw [Tree.depthOfForm, Tree.sizeOfForm]
    omega

end

/-- An arena that holds one tree gives it back. -/
theorem tree_ofTree (t : Tree) : (ofTree t).tree 0 = t := by
  have hdepth := depth_lt_size t
  have hsize := size_insertTree {} none t
  have hfuel : t.depth < (insertTree {} none t).1.size := by omega
  have htree := treeFrom_insertTree {} none t (fun _ _ _ => rfl) hfuel
  rwa [snd_insertTree] at htree

end ScriptTree.Arena
