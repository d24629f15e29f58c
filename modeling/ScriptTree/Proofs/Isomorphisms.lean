import Mathlib.Data.List.Forall2
import Mathlib.Data.List.GetD
import ScriptTree.Proofs.Preorder

/-!
# Trees that differ in the names of their tokens

Two trees are isomorphic if the tokens of one, taken under new names, are those of the other: parents
before children, with the same kinds and texts and with the same forms under the new names. Trees are
isomorphic if a relation between tokens that holds of their topmost is passed on to the children.
-/

namespace ScriptTree.Arena

open Relation

variable {a b : Arena} {top top' : Nat}

/-- The tokens below one token are those below another one under other names. -/
structure Isomorphism (rename : Nat → Nat) (a : Arena) (top : Nat) (b : Arena) (top' : Nat) :
    Prop where
  preorder_eq : b.preorder top' = (a.preorder top).map rename
  kind?_eq : ∀ id ∈ a.preorder top, b.kind? (rename id) = a.kind? id
  text?_eq : ∀ id ∈ a.preorder top, b.text? (rename id) = a.text? id
  form_eq : ∀ id ∈ a.preorder top,
    b.form (rename id) = (a.form id).map fun entry => (entry.1, rename entry.2)

/-! ### Lists side by side -/

/-- Different things can be renamed to the things at the same places of another list. -/
theorem exists_map_eq {xs ys : List Nat} (hnodup : xs.Nodup) (hlength : xs.length = ys.length) :
    ∃ rename : Nat → Nat, xs.map rename = ys := by
  refine ⟨fun x => ys.getD (xs.idxOf x) 0, List.ext_getElem (by simpa) fun i hi hi' => ?_⟩
  rw [List.length_map] at hi
  rw [List.getElem_map, hnodup.idxOf_getElem i hi, List.getD_eq_getElem _ _ hi']

/-- Lists made of parts of the same lengths are equal only part by part. -/
theorem forall₂_eq_of_flatMap_eq {α β γ : Type} {f : α → List γ} {g : β → List γ} {xs : List α}
    {ys : List β} (hlength : List.Forall₂ (fun x y => (f x).length = (g y).length) xs ys)
    (heq : xs.flatMap f = ys.flatMap g) : List.Forall₂ (fun x y => f x = g y) xs ys := by
  induction hlength with
  | nil => exact .nil
  | cons hfirst _ ih =>
    rw [List.flatMap_cons, List.flatMap_cons] at heq
    obtain ⟨hpart, hrest⟩ := List.append_inj heq hfirst
    exact .cons hpart (ih hrest)

/-! ### Bisimulations -/

/-- A relation between tokens that is passed on to the children, which have the same roles. -/
structure Bisimulation (R : Nat → Nat → Prop) (a b : Arena) : Prop where
  kind?_eq : ∀ x y, R x y → b.kind? y = a.kind? x
  text?_eq : ∀ x y, R x y → b.text? y = a.text? x
  forms : ∀ x y, R x y →
    List.Forall₂ (fun entry entry' => entry.1 = entry'.1 ∧ R entry.2 entry'.2) (a.form x) (b.form y)

variable {R : Nat → Nat → Prop}

/-- The children of related tokens are related. -/
theorem Bisimulation.children (h : Bisimulation R a b) {x y : Nat} (hxy : R x y) :
    List.Forall₂ R (a.children x) (b.children y) := by
  rw [Arena.children, Arena.children, List.forall₂_map_left_iff, List.forall₂_map_right_iff]
  exact (h.forms x y hxy).imp fun _ _ => And.right

/-- All tokens below related tokens are related, each to the one at the same place. -/
theorem Bisimulation.preorder (h : Bisimulation R a b) (hlinked : a.Linked) (hacyclic : a.Acyclic)
    (hlinked' : b.Linked) (hacyclic' : b.Acyclic) {x y : Nat} (hx : x < a.size) (hy : y < b.size)
    (hxy : R x y) : List.Forall₂ R (a.preorder x) (b.preorder y) := by
  refine below_induction hlinked hacyclic (P := fun x => ∀ y < b.size, R x y →
    List.Forall₂ R (a.preorder x) (b.preorder y)) (fun x hx ih y hy hxy => ?_) hx y hy hxy
  rw [preorder_eq hlinked hacyclic hx, preorder_eq hlinked' hacyclic' hy]
  have hchildren : List.Forall₂ (fun c c' => List.Forall₂ R (a.preorder c) (b.preorder c'))
      (a.children x) (b.children y) := by
    refine List.forall₂_iff_get.2 ⟨(h.children hxy).length_eq, fun i hi hi' => ?_⟩
    exact ih _ (List.get_mem _ _) _ (hlinked'.child_lt (List.get_mem _ _))
      ((h.children hxy).get hi hi')
  refine .cons hxy ?_
  generalize a.children x = xs, b.children y = ys at hchildren
  induction hchildren with
  | nil => exact .nil
  | cons hfirst _ ih =>
    rw [List.flatMap_cons, List.flatMap_cons]
    exact List.rel_append hfirst ih

/-- If the names that make tokens below one token of those below a related one are given, they make
children of children. -/
theorem Bisimulation.rename_children (h : Bisimulation R a b) (hlinked : a.Linked)
    (hacyclic : a.Acyclic) (hlinked' : b.Linked) (hacyclic' : b.Acyclic) {x y : Nat}
    (hx : x < a.size) (hy : y < b.size) (hxy : R x y) {rename : Nat → Nat}
    (hrename : (a.preorder x).map rename = b.preorder y) :
    List.Forall₂ (fun c c' => (a.preorder c).map rename = b.preorder c' ∧ rename c = c' ∧ R c c')
      (a.children x) (b.children y) := by
  rw [preorder_eq hlinked hacyclic hx, preorder_eq hlinked' hacyclic' hy, List.map_cons,
    List.map_flatMap] at hrename
  have hchildren := h.children hxy
  have hlength : List.Forall₂ (fun c c' =>
      ((a.preorder c).map rename).length = (b.preorder c').length) (a.children x)
      (b.children y) := by
    refine List.forall₂_iff_get.2 ⟨hchildren.length_eq, fun i hi hi' => ?_⟩
    rw [List.length_map]
    exact (h.preorder hlinked hacyclic hlinked' hacyclic' (hlinked.child_lt (List.get_mem _ _))
      (hlinked'.child_lt (List.get_mem _ _)) (hchildren.get hi hi')).length_eq
  have hparts := forall₂_eq_of_flatMap_eq hlength (List.cons.inj hrename).2
  refine List.forall₂_iff_get.2 ⟨hchildren.length_eq, fun i hi hi' => ?_⟩
  have hpart := hparts.get hi hi'
  refine ⟨hpart, ?_, hchildren.get hi hi'⟩
  rw [preorder_eq hlinked hacyclic (hlinked.child_lt (List.get_mem _ _)),
    preorder_eq hlinked' hacyclic' (hlinked'.child_lt (List.get_mem _ _)), List.map_cons] at hpart
  exact (List.cons.inj hpart).1

/-- Related tokens are the topmost of isomorphic trees, in which every token is related to the one
that it is renamed to. -/
theorem Bisimulation.exists_isomorphism (h : Bisimulation R a b) (hlinked : a.Linked)
    (hacyclic : a.Acyclic) (hlinked' : b.Linked) (hacyclic' : b.Acyclic) (htop : top < a.size)
    (htop' : top' < b.size) (hrelated : R top top') :
    ∃ rename, Isomorphism rename a top b top' ∧ ∀ id ∈ a.preorder top, R id (rename id) := by
  have hall := h.preorder hlinked hacyclic hlinked' hacyclic' htop htop' hrelated
  obtain ⟨rename, hrename⟩ :=
    exists_map_eq (nodup_preorder hlinked hacyclic htop) hall.length_eq
  have hrelates : ∀ id ∈ a.preorder top, R id (rename id) := by
    rw [← hrename, List.forall₂_map_right_iff, List.forall₂_same] at hall
    exact hall
  -- on the way down, the tokens below a token are renamed to those below its new name
  have hbelow {x : Nat} (hway : ReflTransGen a.IsParent top x) :
      x < a.size ∧ rename x < b.size ∧ R x (rename x) ∧
        (a.preorder x).map rename = b.preorder (rename x) := by
    induction hway with
    | refl =>
      have hhead := hrename
      rw [preorder_eq hlinked hacyclic htop, preorder_eq hlinked' hacyclic' htop',
        List.map_cons] at hhead
      obtain ⟨hself, -⟩ := List.cons.inj hhead
      rw [hself]
      exact ⟨htop, htop', hrelated, hrename⟩
    | @tail x c _ hlink ih =>
      obtain ⟨hx, hy, hxy, hmap⟩ := ih
      have hc := (hlinked.parent_iff c x).1 hlink
      have hpairs := h.rename_children hlinked hacyclic hlinked' hacyclic' hx hy hxy hmap
      obtain ⟨i, hi, rfl⟩ := List.mem_iff_getElem.1 hc
      have hi' : i < (b.children (rename x)).length := hpairs.length_eq ▸ hi
      obtain ⟨hpart, hself, hpair⟩ := hpairs.get hi hi'
      simp only [List.get_eq_getElem] at hpart hself hpair
      rw [hself]
      exact ⟨hlinked.child_lt hc, hlinked'.child_lt (List.getElem_mem hi'), hpair, hpart⟩
  refine ⟨rename, ⟨hrename.symm, fun id hid => h.kind?_eq _ _ (hrelates id hid),
    fun id hid => h.text?_eq _ _ (hrelates id hid), fun id hid => ?_⟩, hrelates⟩
  obtain ⟨hx, hy, hxy, hmap⟩ := hbelow ((mem_preorder_iff hlinked hacyclic htop).1 hid)
  have hpairs := h.rename_children hlinked hacyclic hlinked' hacyclic' hx hy hxy hmap
  rw [Arena.children, Arena.children, List.forall₂_map_left_iff, List.forall₂_map_right_iff]
    at hpairs
  have hforms := h.forms _ _ hxy
  refine List.ext_getElem (by rw [List.length_map, hforms.length_eq]) fun i hi hi' => ?_
  rw [List.length_map] at hi'
  rw [List.getElem_map]
  exact Prod.ext (hforms.get hi' hi).1.symm (hpairs.get hi' hi).2.1.symm

end ScriptTree.Arena
