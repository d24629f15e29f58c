import Mathlib.Data.List.Nodup
import ScriptTree.Proofs.Ancestry

/-!
# The tokens below a token

In a linked arena without cycles the bounded walk down from a token meets the token and everything
below it, each once and parents before their children. What holds of a node if it holds of its
children holds of all tokens.
-/

namespace ScriptTree.Arena

open Relation

variable {a : Arena} {id node child : Nat}

/-- A child has one more ancestor than its parent, which is the nearest. -/
theorem ancestors_child (hlinked : a.Linked) (hacyclic : a.Acyclic)
    (hmem : child ∈ a.children node) : a.ancestors child = node :: a.ancestors node := by
  have hparent := (hlinked.parent_iff child node).2 hmem
  have hlt := length_ancestorsFrom_lt hlinked hacyclic (hlinked.child_lt hmem) a.size
  obtain ⟨n, hn⟩ : ∃ n, a.size = n + 1 := ⟨a.size - 1, by omega⟩
  rw [ancestors, ancestors]
  simp only [hn, ancestorsFrom, hparent, List.length_cons, Nat.add_lt_add_iff_right] at hlt ⊢
  exact congrArg _ (ancestorsFrom_eq_of_le hlt (Nat.le_succ n)).symm

/-- What holds of a node if it holds of its children holds of all tokens. -/
theorem below_induction (hlinked : a.Linked) (hacyclic : a.Acyclic) {P : Nat → Prop}
    (step : ∀ node < a.size, (∀ child ∈ a.children node, P child) → P node) (hid : id < a.size) :
    P id := by
  induction h : a.size - (a.ancestors id).length using Nat.strongRecOn generalizing id with
  | ind n ih =>
    refine step id hid fun child hmem => ?_
    have hchild := hlinked.child_lt hmem
    have hlt : (a.ancestors child).length < a.size :=
      length_ancestorsFrom_lt hlinked hacyclic hchild a.size
    have hmore := congrArg List.length (ancestors_child hlinked hacyclic hmem)
    rw [List.length_cons] at hmore
    exact ih _ (by omega) hchild rfl

/-- A walk down that is bounded by the tokens that are not above it meets no more with a greater
bound. -/
theorem preorderFrom_eq (hlinked : a.Linked) (hacyclic : a.Acyclic) (hid : id < a.size)
    {fuel more : Nat} (hfuel : a.size ≤ fuel + (a.ancestors id).length)
    (hmore : a.size ≤ more + (a.ancestors id).length) :
    a.preorderFrom fuel id = a.preorderFrom more id := by
  induction fuel generalizing id more with
  | zero =>
    have hlt : (a.ancestors id).length < a.size :=
      length_ancestorsFrom_lt hlinked hacyclic hid a.size
    omega
  | succ fuel ih =>
    have hlt : (a.ancestors id).length < a.size :=
      length_ancestorsFrom_lt hlinked hacyclic hid a.size
    obtain ⟨more, rfl⟩ : ∃ n, more = n + 1 := ⟨more - 1, by omega⟩
    rw [preorderFrom, preorderFrom]
    refine congrArg _ (List.flatMap_congr fun child hmem => ?_)
    have hdeeper := congrArg List.length (ancestors_child hlinked hacyclic hmem)
    rw [List.length_cons] at hdeeper
    exact ih (hlinked.child_lt hmem) (by omega) (by omega)

/-- Below a token stand the token and what stands below its children. -/
theorem preorder_eq (hlinked : a.Linked) (hacyclic : a.Acyclic) (hid : id < a.size) :
    a.preorder id = id :: (a.children id).flatMap a.preorder := by
  obtain ⟨n, hn⟩ : ∃ n, a.size = n + 1 := ⟨a.size - 1, by omega⟩
  rw [preorder, hn, preorderFrom]
  refine congrArg _ (List.flatMap_congr fun child hmem => ?_)
  have hdeeper := congrArg List.length (ancestors_child hlinked hacyclic hmem)
  rw [List.length_cons] at hdeeper
  exact preorderFrom_eq hlinked hacyclic (hlinked.child_lt hmem) (by omega) (by omega)

/-- The walk down from a child is shorter. -/
theorem length_preorder_child (hlinked : a.Linked) (hacyclic : a.Acyclic) (hid : id < a.size)
    (hmem : child ∈ a.children id) : (a.preorder child).length < (a.preorder id).length := by
  have hpart : (a.preorder child).Sublist ((a.children id).flatMap a.preorder) := by
    rw [List.flatMap_def]
    exact List.sublist_flatten_of_mem (List.mem_map_of_mem hmem)
  rw [preorder_eq hlinked hacyclic hid, List.length_cons]
  exact Nat.lt_succ_of_le hpart.length_le

/-- A walk down needs no greater bound than the number of tokens it meets. -/
theorem preorderFrom_of_length_le (hlinked : a.Linked) (hacyclic : a.Acyclic) (hid : id < a.size)
    {fuel : Nat} (hfuel : (a.preorder id).length ≤ fuel) :
    a.preorderFrom fuel id = a.preorder id := by
  refine below_induction hlinked hacyclic (P := fun id => ∀ fuel, (a.preorder id).length ≤ fuel →
    a.preorderFrom fuel id = a.preorder id) (fun node hnode ih fuel hfuel => ?_) hid fuel hfuel
  have hpreorder := preorder_eq hlinked hacyclic hnode
  obtain ⟨fuel, rfl⟩ : ∃ n, fuel = n + 1 := by
    rw [hpreorder, List.length_cons] at hfuel
    exact ⟨fuel - 1, by omega⟩
  rw [preorderFrom, hpreorder]
  refine congrArg _ (List.flatMap_congr fun child hmem => ih child hmem fuel ?_)
  have hlt := length_preorder_child hlinked hacyclic hnode hmem
  omega

/-- The walk down meets a token and the tokens below it. -/
theorem mem_preorder_iff (hlinked : a.Linked) (hacyclic : a.Acyclic) (hid : id < a.size)
    {token : Nat} : token ∈ a.preorder id ↔ ReflTransGen a.IsParent id token := by
  refine below_induction hlinked hacyclic (P := fun id =>
    token ∈ a.preorder id ↔ ReflTransGen a.IsParent id token) (fun node hnode ih => ?_) hid
  rw [preorder_eq hlinked hacyclic hnode, List.mem_cons, List.mem_flatMap,
    ReflTransGen.cases_head_iff]
  refine or_congr eq_comm (exists_congr fun child => ?_)
  rw [IsParent, hlinked.parent_iff]
  exact and_congr_right fun hmem => ih child hmem

/-- Different children of a node have nothing below them in common. -/
theorem disjoint_below (hlinked : a.Linked) (hacyclic : a.Acyclic) {other token : Nat}
    (hchild : child ∈ a.children node) (hother : other ∈ a.children node) (hne : child ≠ other)
    (hbelow : ReflTransGen a.IsParent child token) : ¬ ReflTransGen a.IsParent other token := by
  intro hbelow'
  -- the ways up from a token never part, so one of the children would be above the other
  have habove {x y : Nat} (hx : x ∈ a.children node) (hy : y ∈ a.children node) (hxy : x ≠ y) :
      ¬ ReflTransGen a.IsParent x y := by
    intro hway
    rcases ReflTransGen.cases_tail hway with heq | ⟨parent, hup, hparent⟩
    · exact hxy heq.symm
    · have hnode : a.IsParent node x := (hlinked.parent_iff x node).2 hx
      obtain rfl : node = parent := by
        have := (hlinked.parent_iff y node).2 hy
        exact Option.some.inj (this.symm.trans hparent)
      exact hacyclic node (TransGen.head' hnode hup)
  have hunique : Relator.RightUnique (Function.swap a.IsParent) :=
    fun _ _ _ h h' => Option.some.inj (h.symm.trans h')
  rcases ReflTransGen.total_of_right_unique hunique (reflTransGen_swap.2 hbelow)
    (reflTransGen_swap.2 hbelow') with hway | hway
  · exact habove hother hchild hne.symm (reflTransGen_swap.1 hway)
  · exact habove hchild hother hne (reflTransGen_swap.1 hway)

/-- The walk down meets no token twice. -/
theorem nodup_preorder (hlinked : a.Linked) (hacyclic : a.Acyclic) (hid : id < a.size) :
    (a.preorder id).Nodup := by
  refine below_induction hlinked hacyclic (P := fun id => (a.preorder id).Nodup)
    (fun node hnode ih => ?_) hid
  have hbelow {child token : Nat} (hmem : child ∈ a.children node)
      (htoken : token ∈ a.preorder child) : ReflTransGen a.IsParent child token :=
    (mem_preorder_iff hlinked hacyclic (hlinked.child_lt hmem)).1 htoken
  rw [preorder_eq hlinked hacyclic hnode, List.nodup_cons, List.nodup_flatMap]
  refine ⟨fun hmem => ?_, ih, ?_⟩
  · obtain ⟨child, hchild, hself⟩ := List.mem_flatMap.1 hmem
    exact hacyclic node
      (TransGen.head' ((hlinked.parent_iff child node).2 hchild) (hbelow hchild hself))
  · refine (hlinked.nodup node).imp_of_mem fun {child other} hchild hother hne => ?_
    intro token htoken htoken'
    exact disjoint_below hlinked hacyclic hchild hother hne (hbelow hchild htoken)
      (hbelow hother htoken')

/-- What the walk down meets are tokens. -/
theorem lt_of_mem_preorder (hlinked : a.Linked) (hacyclic : a.Acyclic) (hid : id < a.size)
    {token : Nat} (hmem : token ∈ a.preorder id) : token < a.size := by
  rcases ReflTransGen.cases_tail ((mem_preorder_iff hlinked hacyclic hid).1 hmem) with
    heq | ⟨parent, _, hparent⟩
  · exact heq ▸ hid
  · exact hlinked.child_lt ((hlinked.parent_iff token parent).1 hparent)

/-- What the walk down meets below a token that it meets, it meets one after another. -/
theorem exists_preorder_eq_append (hlinked : a.Linked) (hacyclic : a.Acyclic) (hid : id < a.size)
    {token : Nat} (hmem : token ∈ a.preorder id) :
    ∃ before after, a.preorder id = before ++ a.preorder token ++ after := by
  refine below_induction hlinked hacyclic (P := fun id => token ∈ a.preorder id →
    ∃ before after, a.preorder id = before ++ a.preorder token ++ after)
    (fun node hnode ih hmem => ?_) hid hmem
  have hpreorder := preorder_eq hlinked hacyclic hnode
  rw [hpreorder] at hmem
  rcases List.mem_cons.1 hmem with rfl | hbelow
  · exact ⟨[], [], by simp⟩
  · obtain ⟨child, hchild, htoken⟩ := List.mem_flatMap.1 hbelow
    obtain ⟨before, after, heq⟩ := ih child hchild htoken
    obtain ⟨front, back, hchildren⟩ := List.append_of_mem hchild
    refine ⟨node :: (front.flatMap a.preorder ++ before), after ++ back.flatMap a.preorder, ?_⟩
    simp [hpreorder, hchildren, heq]

/-- Not more tokens stand below a token than there are. -/
theorem length_preorder_le (hlinked : a.Linked) (hacyclic : a.Acyclic) (hid : id < a.size) :
    (a.preorder id).length ≤ a.size := by
  have hsubset : a.preorder id ⊆ List.range a.size := fun token hmem =>
    List.mem_range.2 (lt_of_mem_preorder hlinked hacyclic hid hmem)
  have hle := ((nodup_preorder hlinked hacyclic hid).subperm hsubset).length_le
  rwa [List.length_range] at hle

end ScriptTree.Arena
