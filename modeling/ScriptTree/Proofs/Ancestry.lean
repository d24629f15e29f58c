import Mathlib.Data.List.Perm.Subperm
import Mathlib.Logic.Relation
import ScriptTree.Proofs.Links

/-!
# Ancestors

The parents of tokens form a relation. Where no token is an ancestor of itself, a token has fewer
ancestors than there are tokens, so a bounded walk to the root meets all of them.
-/

namespace ScriptTree.Arena

open Relation

/-- Whether a node is the parent of a token. -/
def IsParent (a : Arena) (node token : Nat) : Prop :=
  a.parent? token = some node

/-- No token is an ancestor of itself. -/
def Acyclic (a : Arena) : Prop :=
  ∀ id, ¬ TransGen a.IsParent id id

variable {a : Arena} {id ancestor fuel : Nat}

/-- A parent is a token. -/
theorem Linked.parent_lt (h : a.Linked) {node : Nat} (hparent : a.parent? id = some node) :
    node < a.size := by
  by_contra hge
  have hmem := (h.parent_iff id node).1 hparent
  rw [children_of_size_le (Nat.le_of_not_lt hge)] at hmem
  cases hmem

/-- A token that stands in a form is allocated. -/
theorem Linked.child_lt (h : a.Linked) {node : Nat} (hmem : id ∈ a.children node) :
    id < a.size := by
  by_contra hge
  have hparent := (h.parent_iff id node).2 hmem
  rw [parent?_of_size_le (Nat.le_of_not_lt hge)] at hparent
  cases hparent

/-- The ancestors that a walk meets are ancestors. -/
theorem transGen_of_mem_ancestorsFrom (h : ancestor ∈ a.ancestorsFrom fuel id) :
    TransGen a.IsParent ancestor id := by
  induction fuel generalizing id with
  | zero => cases h
  | succ fuel ih =>
    rw [ancestorsFrom] at h
    cases hparent : a.parent? id with
    | none => simp [hparent] at h
    | some parent =>
      rw [hparent] at h
      rcases List.mem_cons.1 h with rfl | hmem
      · exact .single hparent
      · exact .tail (ih hmem) hparent

/-- A walk that ends before its bound meets all ancestors. -/
theorem mem_ancestorsFrom_of_transGen (hshort : (a.ancestorsFrom fuel id).length < fuel)
    (h : TransGen a.IsParent ancestor id) : ancestor ∈ a.ancestorsFrom fuel id := by
  induction fuel generalizing id with
  | zero => cases hshort
  | succ fuel ih =>
    obtain ⟨parent, hchain, hparent⟩ := TransGen.tail'_iff.1 h
    have hparent : a.parent? id = some parent := hparent
    simp only [ancestorsFrom, hparent, List.length_cons, Nat.add_lt_add_iff_right] at hshort ⊢
    rcases reflTransGen_iff_eq_or_transGen.1 hchain with rfl | hchain
    · exact List.mem_cons_self
    · exact List.mem_cons_of_mem _ (ih hshort hchain)

/-- A walk that ends before its bound meets no more ancestors with a greater bound. -/
theorem ancestorsFrom_eq_of_le {more : Nat} (hshort : (a.ancestorsFrom fuel id).length < fuel)
    (hle : fuel ≤ more) : a.ancestorsFrom more id = a.ancestorsFrom fuel id := by
  induction fuel generalizing id more with
  | zero => cases hshort
  | succ fuel ih =>
    obtain ⟨more, rfl⟩ : ∃ n, more = n + 1 := ⟨more - 1, by omega⟩
    cases hparent : a.parent? id with
    | none => simp [ancestorsFrom, hparent]
    | some parent =>
      simp only [ancestorsFrom, hparent, List.length_cons, Nat.add_lt_add_iff_right] at hshort ⊢
      rw [ih hshort (by omega)]

/-- A walk meets no token twice. -/
theorem nodup_ancestorsFrom (h : a.Acyclic) (fuel id : Nat) : (a.ancestorsFrom fuel id).Nodup := by
  induction fuel generalizing id with
  | zero => exact List.nodup_nil
  | succ fuel ih =>
    rw [ancestorsFrom]
    cases a.parent? id with
    | none => exact List.nodup_nil
    | some parent =>
      exact List.nodup_cons.2 ⟨fun hmem => h parent (transGen_of_mem_ancestorsFrom hmem),
        ih parent⟩

/-- A walk ends after fewer steps than there are tokens. -/
theorem length_ancestorsFrom_lt (hlinked : a.Linked) (hacyclic : a.Acyclic) (hid : id < a.size)
    (fuel : Nat) : (a.ancestorsFrom fuel id).length < a.size := by
  have hnodup : (id :: a.ancestorsFrom fuel id).Nodup :=
    List.nodup_cons.2 ⟨fun hmem => hacyclic id (transGen_of_mem_ancestorsFrom hmem),
      nodup_ancestorsFrom hacyclic fuel id⟩
  have hsubset : id :: a.ancestorsFrom fuel id ⊆ List.range a.size := by
    intro token hmem
    rw [List.mem_range]
    rcases List.mem_cons.1 hmem with rfl | hmem
    · exact hid
    · obtain ⟨child, hparent, _⟩ := TransGen.head'_iff.1 (transGen_of_mem_ancestorsFrom hmem)
      exact hlinked.parent_lt hparent
  have hle := (hnodup.subperm hsubset).length_le
  simp only [List.length_cons, List.length_range] at hle
  omega

/-- More steps than there are tokens meet no more ancestors. -/
theorem ancestorsFrom_eq_ancestors (hlinked : a.Linked) (hacyclic : a.Acyclic)
    (hle : a.size ≤ fuel) : a.ancestorsFrom fuel id = a.ancestors id := by
  rcases Nat.lt_or_ge id a.size with hlt | hge
  · exact ancestorsFrom_eq_of_le (length_ancestorsFrom_lt hlinked hacyclic hlt a.size) hle
  · have hparent := parent?_of_size_le hge
    have hnone (n : Nat) : a.ancestorsFrom n id = [] := by
      cases n <;> simp [ancestorsFrom, hparent]
    rw [ancestors, hnone, hnone]

/-- The bounded walk finds exactly the proper ancestors. -/
theorem isAncestor_iff (hlinked : a.Linked) (hacyclic : a.Acyclic) :
    a.isAncestor ancestor id ↔ TransGen a.IsParent ancestor id := by
  rw [isAncestor, List.contains_iff_mem]
  refine ⟨transGen_of_mem_ancestorsFrom, fun h => ?_⟩
  obtain ⟨parent, _, hparent⟩ := TransGen.tail'_iff.1 h
  refine mem_ancestorsFrom_of_transGen (length_ancestorsFrom_lt hlinked hacyclic ?_ a.size) h
  exact hlinked.child_lt ((hlinked.parent_iff id parent).1 hparent)

/-- Fewer parents give fewer ancestors. -/
theorem Acyclic.mono {a' : Arena} (h : a.Acyclic)
    (hparent : ∀ node token, a'.IsParent node token → a.IsParent node token) : a'.Acyclic :=
  fun id hcycle => h id (TransGen.mono hparent id id hcycle)

/-- A token may get a parent that is neither the token itself nor below it. -/
theorem Acyclic.insert {a' : Arena} {node token : Nat} (h : a.Acyclic) (hne : node ≠ token)
    (hbelow : ¬ TransGen a.IsParent token node)
    (hparent : ∀ p c, a'.IsParent p c → a.IsParent p c ∨ p = node ∧ c = token) : a'.Acyclic := by
  -- a way down that uses the new link leads to the node first, and on from the token
  have hsplit {x y : Nat} (hway : TransGen a'.IsParent x y) : TransGen a.IsParent x y ∨
      ReflTransGen a.IsParent x node ∧ ReflTransGen a.IsParent token y := by
    induction hway with
    | single hlink =>
      rcases hparent _ _ hlink with hold | ⟨rfl, rfl⟩
      · exact .inl (.single hold)
      · exact .inr ⟨.refl, .refl⟩
    | tail _ hlink ih =>
      rcases hparent _ _ hlink with hold | ⟨rfl, rfl⟩
      · exact ih.imp (.tail · hold) fun ⟨hup, hdown⟩ => ⟨hup, .tail hdown hold⟩
      · exact .inr ⟨ih.elim TransGen.to_reflTransGen And.left, .refl⟩
  intro id hcycle
  rcases hsplit hcycle with hold | ⟨hup, hdown⟩
  · exact h id hold
  · rcases reflTransGen_iff_eq_or_transGen.1 (hdown.trans hup) with heq | hway
    · exact hne heq
    · exact hbelow hway

end ScriptTree.Arena
