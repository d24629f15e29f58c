import Mathlib.Data.List.TakeDrop
import ScriptTree.Parse.Entry
import ScriptTree.Proofs.Spellings.Reactions

/-!
# Roots in the two spellings

What is put around the outermost delivery keeps twins twins.
-/

namespace ScriptTree

variable [ReaderSpelling]

/-- The same items stand among the children. -/
theorem Form.Twin.items {form form' : List Entry} (h : Form.Twin form form') :
    List.Forall₂ Tree.Twin (Form.items form) (Form.items form') := by
  induction h with
  | nil => exact .nil
  | @cons x y xs ys h _ ih =>
    simp only [Form.items, List.filter_cons, h.role]
    split
    · exact .cons h.tree ih
    · exact ih
  | twice h _ ih =>
    obtain ⟨_, rfl, rfl, rfl⟩ := h
    exact ih

/-- The same children, without their roles. -/
theorem Form.children_twins {form form' : List Entry} (h : Form.Twin form form') :
    Tree.Twins (form.map Prod.snd) (form'.map Prod.snd) :=
  h.map (fun _ _ hentry => hentry.tree) fun _ _ _ hbreak => by
    obtain ⟨htwice, rfl, rfl, rfl⟩ := hbreak
    exact ⟨htwice, rfl, rfl, rfl⟩

namespace Entrance

/-- The same tokens are put around a node. -/
theorem surround_twin {leading leading' trailing trailing' : List Tree}
    (hleading : Tree.Twins leading leading') (htrailing : Tree.Twins trailing trailing')
    {t t' : Tree} (h : t.Twin t') :
    Agree Tree.Twin (surround leading trailing t) (surround leading' trailing' t') := by
  cases h with
  | node kind extent extent' h =>
    exact Tree.twin_node kind extent extent'
      (((Form.twin_extras hleading).append h.aligned).append (Form.twin_extras htrailing))
  | leaf kind extent extent' h =>
    unfold surround
    dsimp only
    rw [hleading.isEmpty_eq, htrailing.isEmpty_eq]
    split
    · exact .leaf kind extent extent' h
    · exact rfl

/-- The same item is moved out of a list. -/
theorem hoistItem_twin {list list' : Tree} (h : list.Twin list') :
    (hoistItem list).Twin (hoistItem list') := by
  have hitems := h.form_twin.items
  have hspan := h.form_twin.span (p := fun entry => entry.1 != .item)
    (q := fun entry => entry.1 != .item) (fun _ _ hentry => by rw [hentry.role])
    (fun _ _ _ hbreak => by
      obtain ⟨_, rfl, rfl, rfl⟩ := hbreak
      exact ⟨rfl, rfl⟩)
  have hhead := List.head?_dropWhile_not (fun entry : Entry => entry.1 != .item) list.form
  unfold hoistItem
  simp only [List.span_eq_takeWhile_dropWhile]
  obtain ⟨hbefore, hafter⟩ := hspan
  generalize Form.items list.form = items at *
  generalize Form.items list'.form = items' at *
  generalize list.form.takeWhile (fun entry => entry.1 != .item) = before at *
  generalize list.form.dropWhile (fun entry => entry.1 != .item) = after at *
  generalize list'.form.takeWhile (fun entry => entry.1 != .item) = before' at *
  generalize list'.form.dropWhile (fun entry => entry.1 != .item) = after' at *
  cases hitems with
  | nil => exact h
  | cons ht hrest =>
    cases hrest with
    | cons _ _ => cases ht <;> exact h
    | nil =>
      cases ht with
      | leaf kind extent extent' ht => exact h
      | node kind extent extent' hform =>
        cases hafter with
        | nil => exact h
        | twice hbreak _ =>
          obtain ⟨_, rfl, rfl, rfl⟩ := hbreak
          simp at hhead
        | cons _ hafter =>
          exact Tree.twin_node kind extent extent'
            (((Form.twin_extras (Form.children_twins hbefore)).append hform.aligned).append
              (Form.twin_extras (Form.children_twins hafter)))

/-- The same root takes everything that was delivered. -/
theorem rootOf_twin (entrance : Entrance) {d d' : Delivery} (hd : d.Twin d') :
    Agree Tree.Twin (entrance.rootOf d) (entrance.rootOf d') := by
  unfold rootOf
  rcases hd.token.none_or_some with ⟨hnone, hnone'⟩ | ⟨_, _, hsome, hsome', ht⟩
  · rw [hnone, hnone']
    exact Tree.twin_ofForm _ (Form.twin_extras (hd.leading.append hd.trailing))
  · rw [hsome, hsome']
    have hsurround := surround_twin hd.leading hd.trailing ht
    cases entrance with
    | file =>
      refine (surround_twin hd.leading .nil ht).bind fun _ _ hmembers => ?_
      have hform := (Form.twin_entry (.slot .members) hmembers).append
        (Form.twin_extras hd.trailing)
      exact Form.Twin.assemble hform .file
    | statements => exact hsurround
    | expression => exact hsurround
    | statement => exact hsurround.map fun _ _ => hoistItem_twin

/-- The outermost state is the same in the two spellings. -/
theorem reader_twin (entrance : Entrance) : entrance.reader.Twin entrance.reader := by
  cases entrance with
  | expression => exact .root ⟨.nil, rfl⟩
  | _ => exact .block (BlockReader.twin_start _ _ _ _)

end Entrance

end ScriptTree
