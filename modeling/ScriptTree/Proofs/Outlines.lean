import ScriptTree.Proofs.Copies
import ScriptTree.Proofs.OutlineLines

/-!
# An outline determines the tree

The lines of a tree are the line of its topmost token and the lines of the children, which are deeper.
So where the lines of two tokens agree, the lines of their children agree block by block, and tokens
with the same lines are a bisimulation.
-/

namespace ScriptTree

namespace Tree

/-! ### Blocks of lines -/

/-- The lines of a tree at a depth: one line at the depth, and then deeper ones. -/
def IsBlock (depth : Nat) (lines : List OutlineLine) : Prop :=
  ∃ line rest, lines = line :: rest ∧ line.depth = depth ∧ ∀ line ∈ rest, depth < line.depth

mutual

/-- No line of a tree is less deep than the tree, and one that is no root has a role. -/
theorem mem_outlineLines {depth : Nat} {role? : Option Role} {line : OutlineLine} (t : Tree)
    (hrole : role? = none ↔ depth = 0) (h : line ∈ t.outlineLines depth role?) :
    depth ≤ line.depth ∧ line.IsRooted := by
  match t with
  | .leaf kind text extent =>
    rw [outlineLines, List.mem_singleton] at h
    rw [h]
    exact ⟨Nat.le_refl _, hrole⟩
  | .node kind form extent =>
    rw [outlineLines, List.mem_cons] at h
    rcases h with rfl | hbelow
    · exact ⟨Nat.le_refl _, hrole⟩
    · obtain ⟨hle, hrooted⟩ := mem_outlineOfForm form (Nat.succ_pos depth) hbelow
      exact ⟨Nat.le_of_succ_le hle, hrooted⟩

/-- The lines of children are not less deep than the children. -/
theorem mem_outlineOfForm {depth : Nat} {line : OutlineLine} (form : List Entry)
    (hdepth : 0 < depth) (h : line ∈ outlineOfForm depth form) :
    depth ≤ line.depth ∧ line.IsRooted := by
  match form with
  | [] =>
    rw [outlineOfForm] at h
    cases h
  | (role, t) :: rest =>
    rw [outlineOfForm, List.mem_append] at h
    rcases h with hfirst | hrest
    · exact mem_outlineLines t (by simp; omega) hfirst
    · exact mem_outlineOfForm rest hdepth hrest

end

/-- The lines of a tree are a block. -/
theorem isBlock_outlineLines (t : Tree) (depth : Nat) (role? : Option Role) :
    IsBlock depth (t.outlineLines depth role?) := by
  cases t with
  | leaf kind text extent => exact ⟨_, [], by rw [outlineLines], rfl, by simp⟩
  | node kind form extent =>
    exact ⟨_, _, by rw [outlineLines], rfl, fun line hline =>
      (mem_outlineOfForm form (Nat.succ_pos depth) hline).1⟩

/-- The first line of a tree shows its role. -/
theorem role?_head?_outlineLines (t : Tree) (depth : Nat) (role? : Option Role) :
    (t.outlineLines depth role?).head?.map OutlineLine.role? = some role? := by
  cases t <;> rw [outlineLines] <;> rfl

/-- Blocks at one depth are told from one another. -/
theorem forall₂_of_blocks {α β : Type} {depth : Nat} {f : α → List OutlineLine}
    {g : β → List OutlineLine} {xs : List α} {ys : List β} (hf : ∀ x, IsBlock depth (f x))
    (hg : ∀ y, IsBlock depth (g y)) (heq : xs.flatMap f = ys.flatMap g) :
    List.Forall₂ (fun x y => f x = g y) xs ys := by
  -- behind the deeper lines of a block, the next block begins or nothing follows
  have hends {γ : Type} {h : γ → List OutlineLine} (hh : ∀ z, IsBlock depth (h z)) (zs : List γ) :
      (zs.flatMap h).takeWhile (fun line => depth < line.depth) = [] := by
    cases zs with
    | nil => rfl
    | cons z zs =>
      obtain ⟨line, rest, hlines, hline, -⟩ := hh z
      simp [hlines, hline]
  induction xs generalizing ys with
  | nil =>
    cases ys with
    | nil => exact .nil
    | cons y ys =>
      obtain ⟨line, rest, hlines, -⟩ := hg y
      simp [hlines] at heq
  | cons x xs ih =>
    obtain ⟨line, rest, hx, -, hdeep⟩ := hf x
    cases ys with
    | nil => simp [hx] at heq
    | cons y ys =>
      obtain ⟨line', rest', hy, -, hdeep'⟩ := hg y
      rw [List.flatMap_cons, List.flatMap_cons, hx, hy, List.cons_append, List.cons_append] at heq
      obtain ⟨rfl, htails⟩ := List.cons.inj heq
      obtain ⟨rfl, hmore⟩ := append_inj_of_takeWhile (p := fun line => depth < line.depth)
        (by simpa using hdeep) (by simpa using hdeep') (hends hf xs) (hends hg ys) htails
      exact .cons (hx.trans hy.symm) (ih hmore)

/-- The outline of a tree tells its lines. -/
theorem outlineLines_of_outline {t t' : Tree} (h : t.outline = t'.outline) :
    t.outlineLines 0 none = t'.outlineLines 0 none := by
  have hrooted (t : Tree) : ∀ line ∈ t.outlineLines 0 none, line.IsRooted := fun line hline =>
    (mem_outlineLines t (by simp) hline).2
  have hchars := congrArg String.toList h
  rw [outline, outline, String.toList_join, String.toList_join, List.flatMap_map,
    List.flatMap_map] at hchars
  exact OutlineLine.flatMap_render_inj (hrooted t) (hrooted t') hchars

end Tree

namespace Arena

variable {a b : Arena} {x y : Nat}

/-- Tokens whose trees have the same lines where they stand at one depth in one role. -/
def SameLines (a b : Arena) (x y : Nat) : Prop :=
  x < a.size ∧ y < b.size ∧
    ∃ depth role?, (a.tree x).outlineLines depth role? = (b.tree y).outlineLines depth role?

/-- The kind that a line shows is that of the token. -/
theorem getD_kind? (h : x < a.size) (default : TokenKind) :
    some ((a.kind? x).getD default) = a.kind? x := by
  have htoken : a.get? x = some a.tokens[x] := Array.getElem?_eq_getElem h
  rw [kind?, htoken, Option.map_some, Option.getD_some]

/-- Tokens with the same lines have the same kind, text and bytes, and children in the same roles
that have the same lines. -/
theorem SameLines.unfold (hlinked : a.Linked) (hacyclic : a.Acyclic) (hlinked' : b.Linked)
    (hacyclic' : b.Acyclic) (h : SameLines a b x y) :
    b.kind? y = a.kind? x ∧ b.text? y = a.text? x ∧ (b.extent y).span = (a.extent x).span ∧
      List.Forall₂ (fun entry entry' => entry.1 = entry'.1 ∧ SameLines a b entry.2 entry'.2)
        (a.form x) (b.form y) := by
  obtain ⟨hx, hy, depth, role?, hlines⟩ := h
  rw [RootedArena.outlineLines_tree (r := ⟨a, x⟩) hlinked hacyclic ⟨x, depth, role?⟩ hx,
    RootedArena.outlineLines_tree (r := ⟨b, y⟩) hlinked' hacyclic' ⟨y, depth, role?⟩ hy] at hlines
  obtain ⟨hline, hchildren⟩ := List.cons.inj hlines
  simp only [RootedArena.OutlineFrame.line, Tree.OutlineLine.mk.injEq, true_and] at hline
  obtain ⟨hkind, hspan, htext⟩ := hline
  refine ⟨?_, htext.symm, hspan.symm, ?_⟩
  · rw [← getD_kind? hx, ← getD_kind? hy, hkind]
  simp only [RootedArena.OutlineFrame.children, List.flatMap_map] at hchildren
  have hblocks := Tree.forall₂_of_blocks (fun entry => Tree.isBlock_outlineLines _ _ _)
    (fun entry => Tree.isBlock_outlineLines _ _ _) hchildren
  refine List.forall₂_iff_get.2 ⟨hblocks.length_eq, fun i hi hi' => ?_⟩
  have hsame := hblocks.get hi hi'
  have hrole := congrArg (fun lines => lines.head?.map Tree.OutlineLine.role?) hsame
  simp only [Tree.role?_head?_outlineLines, Option.some.injEq] at hrole
  refine ⟨hrole, hlinked.child_lt (List.mem_map_of_mem (List.get_mem _ _)),
    hlinked'.child_lt (List.mem_map_of_mem (List.get_mem _ _)), depth + 1, _, hrole ▸ hsame⟩

/-- Having the same lines is passed on to the children. -/
theorem bisimulation_sameLines (hlinked : a.Linked) (hacyclic : a.Acyclic) (hlinked' : b.Linked)
    (hacyclic' : b.Acyclic) : Bisimulation (SameLines a b) a b where
  kind?_eq _ _ h := (h.unfold hlinked hacyclic hlinked' hacyclic').1
  text?_eq _ _ h := (h.unfold hlinked hacyclic hlinked' hacyclic').2.1
  forms _ _ h := (h.unfold hlinked hacyclic hlinked' hacyclic').2.2.2

end Arena

namespace RootedArena

open Arena

variable {r r' : RootedArena}

/-- Trees with the same outline are isomorphic, with the same roles of all tokens but the roots, and
the bytes of each token are those of the token that it is renamed to. -/
theorem outline_determines_tree (hlinked : r.arena.Linked) (hacyclic : r.arena.Acyclic)
    (hroot : r.root < r.arena.size) (hlinked' : r'.arena.Linked) (hacyclic' : r'.arena.Acyclic)
    (hroot' : r'.root < r'.arena.size) (h : r.outline = r'.outline) :
    ∃ rename, Isomorphism rename r.arena r.root r'.arena r'.root ∧
      ∀ id ∈ r.preorder, (r'.arena.extent (rename id)).span = (r.arena.extent id).span := by
  rw [outline_eq_outline_tree hlinked hacyclic hroot,
    outline_eq_outline_tree hlinked' hacyclic' hroot'] at h
  have hsame : SameLines r.arena r'.arena r.root r'.root :=
    ⟨hroot, hroot', 0, none, Tree.outlineLines_of_outline h⟩
  obtain ⟨rename, hiso, hrelated⟩ :=
    (bisimulation_sameLines hlinked hacyclic hlinked' hacyclic').exists_isomorphism hlinked
      hacyclic hlinked' hacyclic' hroot hroot' hsame
  exact ⟨rename, hiso, fun id hid =>
    ((hrelated id hid).unfold hlinked hacyclic hlinked' hacyclic').2.2.1⟩

theorem outline_determines_tree_brokenList :
    ∃ rename, Isomorphism rename brokenList.arena 0 brokenList.compact.arena 0 ∧
      ∀ id ∈ brokenList.preorder,
        (brokenList.compact.arena.extent (rename id)).span = (brokenList.arena.extent id).span := by
  have hwell := wellFormed_brokenList
  have hroot : brokenList.root < brokenList.arena.size := by decide
  have hcompact : brokenList.compact = .ofTree brokenList.tree :=
    copy_eq_ofTree hwell.linked hwell.acyclic hroot
  have houtline : brokenList.outline = (RootedArena.ofTree brokenList.tree).outline := by
    rw [outline_ofTree, outline_eq_outline_tree hwell.linked hwell.acyclic hroot]
  rw [hcompact]
  exact outline_determines_tree hwell.linked hwell.acyclic hroot (linked_ofTree _)
    (acyclic_ofTree _) (size_ofTree_pos _) houtline

end RootedArena

end ScriptTree
