import ScriptTree.Proofs.Isomorphisms
import ScriptTree.Proofs.Positions

/-!
# Copies are faithful and independent

Copying a tree into an arena puts one token behind the others for each token of the tree. The copies
have the kinds, texts and places of the tokens that they stand for, and forms and parents that name
each other as those of the source do. A tree in an arena of its own is therefore the same tree, and
there is nothing else to drop in it.
-/

namespace ScriptTree

namespace Token

/-- Other names for the children leave the kind. -/
@[simp]
theorem kind_renamed (rename : Nat → Nat) (parent : Option Nat) (t : Token) :
    (t.renamed rename parent).kind = t.kind := by
  obtain ⟨body, _, _⟩ := t
  cases body <;> rfl

/-- Other names for the children leave the text. -/
@[simp]
theorem text?_renamed (rename : Nat → Nat) (parent : Option Nat) (t : Token) :
    (t.renamed rename parent).text? = t.text? := by
  obtain ⟨body, _, _⟩ := t
  cases body <;> rfl

/-- Other names for the children leave the place. -/
@[simp]
theorem extent_renamed (rename : Nat → Nat) (parent : Option Nat) (t : Token) :
    (t.renamed rename parent).extent = t.extent := by
  obtain ⟨body, _, _⟩ := t
  cases body <;> rfl

/-- The form of a renamed token names the children anew. -/
@[simp]
theorem form_renamed (rename : Nat → Nat) (parent : Option Nat) (t : Token) :
    (t.renamed rename parent).form = t.form.map fun entry => (entry.1, rename entry.2) := by
  obtain ⟨body, _, _⟩ := t
  cases body <;> rfl

end Token

namespace Arena

open Relation

variable {source a a' : Arena} {top root : Nat} {rename : Nat → Nat}

/-! ### What a copy is -/

/-- An arena `a'` is `a` with a copy of the tree below `top` behind its tokens: one new token for each
token of the tree, counted in the order of the walk down, below a root without a parent. -/
structure HoldsCopy (source : Arena) (top : Nat) (a : Arena) (rename : Nat → Nat) (a' : Arena)
    (root : Nat) : Prop where
  size_eq : a'.size = a.size + (source.preorder top).length
  get?_old : ∀ id < a.size, a'.get? id = a.get? id
  names_eq : (source.preorder top).map rename = List.range' a.size (source.preorder top).length
  rename_top : rename top = root
  isomorphism : Isomorphism rename source top a' root
  extent_eq : ∀ id ∈ source.preorder top, a'.extent (rename id) = source.extent id
  parent?_eq : ∀ id ∈ source.preorder top,
    a'.parent? (rename id) = if id = top then none else (source.parent? id).map rename

/-- The walk down from a copy meets the copies of what the walk down from the token meets. -/
theorem preorderFrom_copy (hlinked : source.Linked) (hacyclic : source.Acyclic)
    (htop : top < source.size)
    (hform : ∀ id ∈ source.preorder top,
      a'.form (rename id) = (source.form id).map fun entry => (entry.1, rename entry.2))
    (fuel : Nat) {id : Nat} (hid : id ∈ source.preorder top) :
    a'.preorderFrom fuel (rename id) = (source.preorderFrom fuel id).map rename := by
  induction fuel generalizing id with
  | zero => rfl
  | succ fuel ih =>
    have hchildren : a'.children (rename id) = (source.children id).map rename := by
      rw [children, children, hform id hid, List.map_map, List.map_map]
      rfl
    rw [preorderFrom, preorderFrom, hchildren, List.map_cons, List.flatMap_map, List.map_flatMap]
    refine congrArg _ (List.flatMap_congr fun child hmem => ih ?_)
    rw [mem_preorder_iff hlinked hacyclic htop] at hid ⊢
    exact hid.tail ((hlinked.parent_iff child id).2 hmem)

/-- Tokens with the names in them changed, put behind an arena in the order of the walk down, are a
copy. -/
theorem Appended.holdsCopy (hlinked : source.Linked) (hacyclic : source.Acyclic)
    (htop : top < source.size)
    (hnames : ∀ i x, (source.preorder top)[i]? = some x → rename x = a.size + i)
    (h : Appended (source.copyOf top rename) (source.preorder top) a a') :
    HoldsCopy source top a rename a' (rename top) := by
  have hcopy {id : Nat} (hid : id ∈ source.preorder top) :
      a'.get? (rename id) = source.copyOf top rename id := by
    obtain ⟨i, hi⟩ := List.mem_iff_getElem?.1 hid
    rw [hnames i id hi, h.get?_new i id hi]
  have hform (id : Nat) (hid : id ∈ source.preorder top) :
      a'.form (rename id) = (source.form id).map fun entry => (entry.1, rename entry.2) := by
    rw [form, form, hcopy hid, copyOf]
    cases source.get? id <;> simp
  have hself : top ∈ source.preorder top := (mem_preorder_iff hlinked hacyclic htop).2 .refl
  have hpreorder : a'.preorder (rename top) = (source.preorder top).map rename := by
    rw [preorder, preorderFrom_copy hlinked hacyclic htop hform _ hself,
      preorderFrom_of_length_le hlinked hacyclic htop (by rw [h.size_eq]; omega)]
  have hisomorphism : Isomorphism rename source top a' (rename top) :=
    { preorder_eq := hpreorder
      kind?_eq := fun id hid => by
        rw [kind?, kind?, hcopy hid, copyOf]
        cases source.get? id <;> simp
      text?_eq := fun id hid => by
        rw [text?, text?, hcopy hid, copyOf]
        cases source.get? id <;> simp
      form_eq := hform }
  constructor
  case size_eq => exact h.size_eq
  case get?_old => exact h.get?_old
  case names_eq =>
    refine List.ext_getElem (by simp) fun i hi hi' => ?_
    rw [List.length_map] at hi
    rw [List.getElem_map, List.getElem_range', Nat.one_mul]
    exact hnames i _ (List.getElem?_eq_getElem hi)
  case rename_top => rfl
  case isomorphism => exact hisomorphism
  case extent_eq =>
    intro id hid
    rw [extent, extent, hcopy hid, copyOf]
    cases source.get? id <;> simp
  case parent?_eq =>
    intro id hid
    rw [parent?, parent?, hcopy hid, copyOf]
    cases source.get? id <;> simp [Token.renamed]

/-- Copying a tree puts a copy of it behind the tokens of the arena. -/
theorem holdsCopy_importTree (hlinked : source.Linked) (hacyclic : source.Acyclic)
    (htop : top < source.size) (a : Arena) :
    ∃ rename, HoldsCopy source top a rename (a.importTree source top).1
      (a.importTree source top).2 := by
  have hnodup := nodup_preorder hlinked hacyclic htop
  refine ⟨fun x => a.size + (source.preorder top).idxOf x, ?_⟩
  have hnames (i x : Nat) (hi : (source.preorder top)[i]? = some x) :
      a.size + (source.preorder top).idxOf x = a.size + i := by
    obtain ⟨hlt, rfl⟩ := List.getElem?_eq_some_iff.1 hi
    rw [hnodup.idxOf_getElem i hlt]
  have htree := appended_insertTree hlinked hacyclic htop .refl a hnames
  rw [if_pos rfl] at htree
  have hcopy := htree.holdsCopy hlinked hacyclic htop hnames
  have hfirst : (source.preorder top)[0]? = some top := by
    rw [preorder_eq hlinked hacyclic htop]
    rfl
  rw [hnames 0 top hfirst, Nat.add_zero] at hcopy
  rwa [importTree_eq_insertTree hlinked hacyclic htop, snd_insertTree]

/-- In an arena that holds one tree, no token is an ancestor of itself. -/
theorem acyclic_ofTree (t : Tree) : (ofTree t).Acyclic :=
  wellFormed_empty.acyclic.insertTree wellFormed_empty.linked t

/-- An arena that holds one tree holds its topmost token. -/
theorem size_ofTree_pos (t : Tree) : 0 < (ofTree t).size := by
  have hlt := depth_lt_size t
  rw [ofTree, size_insertTree]
  omega

end Arena

namespace RootedArena

open Arena

variable {r : RootedArena} {top : Nat}

/-- A tree that can be changed in place has the outline of the tree. -/
theorem outline_ofTree (t : Tree) : (RootedArena.ofTree t).outline = t.outline := by
  rw [outline_eq_outline_tree (linked_ofTree t) (acyclic_ofTree t) (size_ofTree_pos t)]
  exact congrArg Tree.outline (tree_ofTree t)

/-- The copy of a tree is the tree in an arena of its own. -/
theorem copy_eq_ofTree (hlinked : r.arena.Linked) (hacyclic : r.arena.Acyclic)
    (htop : top < r.arena.size) : r.copy top = .ofTree (r.arena.tree top) := by
  rw [copy, importTree_eq_insertTree hlinked hacyclic htop]
  exact congrArg _ (snd_insertTree {} none (r.arena.tree top))

/-- The tree in an arena of its own is left by dropping other tokens. -/
theorem compact_ofTree (t : Tree) : (RootedArena.ofTree t).compact = .ofTree t := by
  rw [compact, copy_eq_ofTree (linked_ofTree t) (acyclic_ofTree t) (size_ofTree_pos t)]
  exact congrArg _ (tree_ofTree t)

/-- Copying the tree below any token into any arena puts a copy of it behind what is there. So a
copy in an arena of its own has the tree and the outline of the token, and dropping what is not in
the tree leaves its tree and outline and just the tokens below its root, once and for all. -/
theorem copies_faithful (hlinked : r.arena.Linked) (hacyclic : r.arena.Acyclic)
    (hroot : r.root < r.arena.size) :
    (∀ a : Arena, ∀ top < r.arena.size, ∃ rename,
      HoldsCopy r.arena top a rename (a.importTree r.arena top).1 (a.importTree r.arena top).2) ∧
    (∀ a : Arena, a.Linked → ∀ top < r.arena.size, (a.importTree r.arena top).1.Linked) ∧
    (∀ top < r.arena.size, (r.copy top).tree = r.arena.tree top ∧
      (r.copy top).outline = (RootedArena.mk r.arena top).outline) ∧
    r.compact.tree = r.tree ∧ r.compact.outline = r.outline ∧
    r.compact.arena.size = r.preorder.length ∧
    r.compact.preorder = List.range r.compact.arena.size ∧
    r.compact.compact = r.compact := by
  have hcopies (top : Nat) (htop : top < r.arena.size) : (r.copy top).tree = r.arena.tree top ∧
      (r.copy top).outline = (RootedArena.mk r.arena top).outline := by
    rw [copy_eq_ofTree hlinked hacyclic htop, outline_ofTree,
      outline_eq_outline_tree (r := ⟨r.arena, top⟩) hlinked hacyclic htop]
    exact ⟨tree_ofTree _, rfl⟩
  obtain ⟨hsame, hline⟩ := hcopies r.root hroot
  obtain ⟨rename, hcopy⟩ := holdsCopy_importTree hlinked hacyclic hroot {}
  have hsize := hcopy.size_eq
  have hnames := hcopy.names_eq
  rw [← hcopy.isomorphism.preorder_eq] at hnames
  refine ⟨fun a top htop => holdsCopy_importTree hlinked hacyclic htop a, fun a ha top htop => ?_,
    hcopies, hsame, hline, ?_, ?_, ?_⟩
  · rw [importTree_eq_insertTree hlinked hacyclic htop]
    exact ha.insertTree _
  · exact hsize.trans (Nat.zero_add _)
  · rw [compact, preorder, copy, hnames, hsize, List.range_eq_range']
    simp [size]
  · rw [show r.compact = .ofTree (r.arena.tree r.root) from copy_eq_ofTree hlinked hacyclic hroot,
      compact_ofTree]

/-- A list of statements whose line break was taken out. -/
def brokenList : RootedArena :=
  ⟨(commentedList.perform (.detach 2)).1, 0⟩

theorem wellFormed_brokenList : brokenList.arena.WellFormed :=
  (reachable_commentedList.perform (.detach 2) (by decide)).wellFormed

theorem copies_faithful_brokenList :
    brokenList.arena.size = 4 ∧ brokenList.compact.arena.size = 3 ∧
      brokenList.compact.preorder = [0, 1, 2] ∧
      brokenList.compact.compact = brokenList.compact ∧
      (∃ rename, HoldsCopy brokenList.arena 3 commentedList rename
        (commentedList.importTree brokenList.arena 3).1 4) := by
  obtain ⟨hcopy, -, -, -, -, hsize, hpreorder, htwice⟩ :=
    copies_faithful wellFormed_brokenList.linked wellFormed_brokenList.acyclic
      (r := brokenList) (by decide)
  have hthree : brokenList.preorder.length = 3 := by decide
  refine ⟨by decide, hsize.trans hthree, ?_, htwice, hcopy commentedList 3 (by decide)⟩
  rw [hpreorder, hsize, hthree]
  rfl

end RootedArena

end ScriptTree
