import ScriptTree.Proofs.Imports
import ScriptTree.Proofs.Moves

/-!
# Runs of operations on an arena

However an arena came about by operations, refused or not, it is well formed. A refused operation
leaves the arena as it was, but for one: a token that is put beside itself is taken out before it
turns out that there is nothing to put it beside.
-/

namespace ScriptTree.Arena

/-- An operation on an arena. An item or an extra is pushed in that role. -/
inductive Operation where
  | leaf (kind : LeafKind) (text : String)
  | allocLeaf (kind : LeafKind) (text : String)
  | allocNode (kind : NodeKind)
  | keyword (word : Keyword)
  | punct (mark : Punct)
  | operator (op : OperatorKind)
  | space (width : Nat)
  | newLine
  | setExtent (token : Nat) (extent : Extent)
  | setLeafKind (token : Nat) (kind : LeafKind)
  | invalidate (token : Nat)
  | push (node token : Nat) (role : Role)
  | setSlot (node : Nat) (slot : Slot) (token : Nat)
  | insertBefore (anchor token : Nat)
  | insertAfter (anchor token : Nat)
  | replace (old new : Nat)
  | clearSlot (node : Nat) (slot : Slot)
  | detach (token : Nat)
  | remove (token : Nat)
  | detachTrailingExtras (node : Nat)
  deriving DecidableEq, Repr

/-- The tokens that an operation names. -/
def Operation.tokens : Operation → List Nat
  | .setExtent token _ | .setLeafKind token _ | .invalidate token | .detach token
  | .remove token => [token]
  | .push node token _ | .setSlot node _ token => [node, token]
  | .insertBefore anchor token | .insertAfter anchor token => [anchor, token]
  | .replace old new => [old, new]
  | .clearSlot node _ | .detachTrailingExtras node => [node]
  | _ => []

/-- The reason why an operation is refused, if it is. -/
def refusal? {α : Type} : Except TokenError α → Option TokenError
  | .ok _ => none
  | .error e => some e

/-- The arena after an operation, and the reason if it was refused. -/
def perform (a : Arena) : Operation → Arena × Option TokenError
  | .leaf kind text =>
    match a.leaf kind text with
    | .ok (a, _) => (a, none)
    | .error e => (a, some e)
  | .allocLeaf kind text => ((a.allocLeaf kind text).1, none)
  | .allocNode kind => ((a.allocNode kind).1, none)
  | .keyword word => ((a.keyword word).1, none)
  | .punct mark => ((a.punct mark).1, none)
  | .operator op => ((a.operator op).1, none)
  | .space width => ((a.space width).1, none)
  | .newLine => (a.newLine.1, none)
  | .setExtent token extent => (a.setExtent token extent, none)
  | .setLeafKind token kind => (a.setLeafKind token kind, none)
  | .invalidate token => (a.invalidate token, none)
  | .push node token role => (a.push node token role).map id refusal?
  | .setSlot node slot token => (a.setSlot node slot token).map id refusal?
  | .insertBefore anchor token => (a.insertBefore anchor token).map id refusal?
  | .insertAfter anchor token => (a.insertAfter anchor token).map id refusal?
  | .replace old new => (a.replace old new).map id refusal?
  | .clearSlot node slot => ((a.clearSlot node slot).1, none)
  | .detach token => ((a.detach token).1, none)
  | .remove token => (a.remove token).map id refusal?
  | .detachTrailingExtras node => ((a.detachTrailingExtras node).1, none)

/-- An arena that came about from an empty one by operations on its tokens, refused or not, and by
copying trees from other such arenas. -/
inductive Reachable : Arena → Prop
  | empty : Reachable {}
  | perform {a : Arena} (h : Reachable a) (op : Operation)
      (htokens : ∀ id ∈ op.tokens, id < a.size) :
    Reachable (a.perform op).1
  | importTree {a source : Arena} (h : Reachable a) (hsource : Reachable source) {top : Nat}
    (htop : top < source.size) : Reachable (a.importTree source top).1

variable {a : Arena} {node token : Nat}

/-! ### Well-formed arenas -/

theorem wellFormed_empty : WellFormed {} := by
  refine ⟨⟨fun token node => ?_, fun node => ?_⟩, fun id hcycle => ?_, fun node kind hkind => ?_⟩
  · simp [parent?, children, form, get?]
  · simp [children, form, get?]
  · obtain ⟨parent, _, hparent⟩ := Relation.TransGen.tail'_iff.1 hcycle
    simp [IsParent, parent?, get?] at hparent
  · simp [nodeKind?, kind?, get?] at hkind

/-- A new leaf is a tree of its own. -/
theorem WellFormed.allocLeaf (h : a.WellFormed) (kind : LeafKind) (text : String) :
    (a.allocLeaf kind text).1.WellFormed := by
  have heq : a.allocLeaf kind text = a.insertTree none (.ofText kind text) := rfl
  rw [heq]
  exact h.insertTree (.leaf _ _ _)

/-- A new node is a tree of its own. -/
theorem WellFormed.allocNode (h : a.WellFormed) (kind : NodeKind) :
    (a.allocNode kind).1.WellFormed := by
  have heq : (a.allocNode kind).1 = (a.insertTree none (.ofForm kind [])).1 := by
    refine ext_get? fun id => ?_
    simp only [Arena.allocNode, alloc, Tree.ofForm, Arena.insertTree, insertForm, updateForm,
      get?_update]
    split
    · rename_i hid
      rw [hid, get?_push_self, Option.map_some]
      rfl
    · rfl
  rw [heq]
  exact h.insertTree (.node _ (Form.suits_nil kind) (by simp))

theorem WellFormed.leaf (h : a.WellFormed) {kind : LeafKind} {text : String} {a' : Arena} {id : Nat}
    (hleaf : a.leaf kind text = .ok (a', id)) : a'.WellFormed := by
  unfold Arena.leaf at hleaf
  split at hleaf
  · obtain rfl : (a.allocLeaf kind text).1 = a' := congrArg Prod.fst (Except.ok.inj hleaf)
    exact h.allocLeaf kind text
  · cases hleaf

/-- A change to one token that shows neither in parents nor in forms nor in the kinds of nodes. -/
theorem WellFormed.update (h : a.WellFormed) (id : Nat) {change : Token → Token}
    (hchange : ∀ t, (change t).parent = t.parent ∧ (change t).form = t.form ∧
      (change t).kind.node? = t.kind.node?) : (a.update id change).WellFormed := by
  have hsame (other : Nat) : (a.update id change).parent? other = a.parent? other ∧
      (a.update id change).form other = a.form other ∧
      (a.update id change).nodeKind? other = a.nodeKind? other := by
    simp only [parent?, Arena.form, nodeKind?, kind?, get?_update]
    split
    · cases a.get? other with
      | none => simp
      | some t => simpa using hchange t
    · simp
  exact h.congr (fun id => (hsame id).1) (fun id => (hsame id).2.1) fun id => (hsame id).2.2

theorem WellFormed.setExtent (h : a.WellFormed) (token : Nat) (extent : Extent) :
    (a.setExtent token extent).WellFormed :=
  h.update token fun _ => ⟨rfl, rfl, rfl⟩

theorem WellFormed.setLeafKind (h : a.WellFormed) (token : Nat) (kind : LeafKind) :
    (a.setLeafKind token kind).WellFormed := by
  refine h.update token fun t => ?_
  cases hbody : t.body <;> simp [Token.form, Token.kind, hbody, TokenKind.node?]

theorem WellFormed.clearSlot (h : a.WellFormed) (node : Nat) (slot : Slot) :
    (a.clearSlot node slot).1.WellFormed := by
  unfold Arena.clearSlot
  split
  · exact h
  · exact h.detach _

/-- What is left of the arena when a token is removed does not depend on whether it had a place. -/
theorem fst_remove (a : Arena) (token : Nat) : (a.remove token).1 = (a.detach token).1 := by
  unfold remove
  split <;> rename_i heq <;> rw [heq]

theorem WellFormed.detachTrailingExtras (h : a.WellFormed) (node : Nat) :
    (a.detachTrailingExtras node).1.WellFormed := by
  have hfold (tokens : List Nat) {a : Arena} (h : a.WellFormed) :
      (tokens.foldl (fun a token => (a.detach token).1) a).WellFormed := by
    induction tokens generalizing a with
    | nil => exact h
    | cons token rest ih => exact ih (h.detach token)
  exact hfold _ h

/-- Every operation on tokens of a well-formed arena leaves one behind, refused or not. -/
theorem WellFormed.perform (h : a.WellFormed) (op : Operation)
    (htokens : ∀ id ∈ op.tokens, id < a.size) : (a.perform op).1.WellFormed := by
  cases op with
  | leaf kind text =>
    simp only [Arena.perform]
    split
    · rename_i hleaf
      exact h.leaf hleaf
    · exact h
  | allocLeaf kind text => exact h.allocLeaf kind text
  | allocNode kind => exact h.allocNode kind
  | keyword word => exact h.allocLeaf _ _
  | punct mark => exact h.allocLeaf _ _
  | operator op => exact h.allocLeaf _ _
  | space width => exact h.allocLeaf _ _
  | newLine => exact h.allocLeaf _ _
  | setExtent token extent => exact h.setExtent token extent
  | setLeafKind token kind => exact h.setLeafKind token kind
  | invalidate token => exact h.setLeafKind token .invalid
  | push node token role => exact h.push (htokens token (by simp [Operation.tokens])) node role
  | setSlot node slot token =>
    exact h.setSlot (htokens token (by simp [Operation.tokens])) node slot
  | insertBefore anchor token =>
    exact h.insertSibling (htokens token (by simp [Operation.tokens])) anchor false
  | insertAfter anchor token =>
    exact h.insertSibling (htokens token (by simp [Operation.tokens])) anchor true
  | replace old new => exact h.replace (htokens new (by simp [Operation.tokens])) old
  | clearSlot node slot => exact h.clearSlot node slot
  | detach token => exact h.detach token
  | remove token =>
    simp only [Arena.perform, Prod.map_fst, id]
    rw [fst_remove]
    exact h.detach token
  | detachTrailingExtras node => exact h.detachTrailingExtras node

/-- Every arena that comes about by operations is well formed. -/
theorem Reachable.wellFormed (h : Reachable a) : a.WellFormed := by
  induction h with
  | empty => exact wellFormed_empty
  | perform _ op htokens ih => exact ih.perform op htokens
  | importTree _ _ htop ih ihsource =>
    rw [importTree_eq_insertTree ihsource.linked ihsource.acyclic htop]
    exact ih.insertTree (ihsource.suited_treeFrom _ _)

/-- No token is listed twice in all forms together. -/
theorem Linked.nodup_flatMap_children (h : a.Linked) (nodes : List Nat) (hnodes : nodes.Nodup) :
    (nodes.flatMap a.children).Nodup := by
  refine List.nodup_flatMap.2 ⟨fun node _ => h.nodup node, hnodes.imp ?_⟩
  intro node other hne token hmem hmem'
  have hparent := (h.parent_iff token node).2 hmem
  rw [(h.parent_iff token other).2 hmem'] at hparent
  exact hne (Option.some.inj hparent).symm

/-- Whatever is done to an arena, refused or not, parents and forms agree, no token is listed twice
in all forms together, no token is its own ancestor, forms suit their nodes, and a walk to the root
that is bounded by the number of tokens meets all ancestors. -/
theorem invariant_of_reachable (h : Reachable a) :
    a.WellFormed ∧ ((List.range a.size).flatMap a.children).Nodup ∧
      ∀ ancestor id, (a.isAncestor ancestor id ↔ Relation.TransGen a.IsParent ancestor id) ∧
        ∀ steps, a.size ≤ steps → a.ancestorsFrom steps id = a.ancestors id := by
  have hwell := h.wellFormed
  refine ⟨hwell, hwell.linked.nodup_flatMap_children _ List.nodup_range, fun ancestor id => ?_⟩
  exact ⟨isAncestor_iff hwell.linked hwell.acyclic, fun steps hle =>
    ancestorsFrom_eq_ancestors hwell.linked hwell.acyclic hle⟩

/-- A list of statements that holds a blank. -/
def blankList : Arena :=
  ((({} : Arena).perform (.allocNode .statementsList)).1.perform (.space 1)).1.perform
    (.push 0 1 .extra) |>.1

theorem reachable_blankList : Reachable blankList :=
  ((Reachable.empty.perform (.allocNode .statementsList) (by decide)).perform (.space 1)
    (by decide)).perform (.push 0 1 .extra) (by decide)

theorem invariant_of_refused_insert :
    Reachable (blankList.perform (.insertBefore 1 1)).1 ∧
      (blankList.perform (.insertBefore 1 1)).1.WellFormed := by
  have h : Reachable (blankList.perform (.insertBefore 1 1)).1 :=
    reachable_blankList.perform _ (by decide)
  exact ⟨h, (invariant_of_reachable h).1⟩

/-! ### Refused operations -/

/-- Whether an operation puts a token beside itself that stands in a form. -/
def Operation.BesideItself (a : Arena) (op : Operation) : Prop :=
  ∃ token, (a.parent? token).isSome ∧
    (op = .insertBefore token token ∨ op = .insertAfter token token)

/-- A token may be put in any role under the node under which it stands. -/
theorem WellFormed.checkAttach_child {kind : NodeKind} {role : Role} (h : a.WellFormed)
    (hkind : a.nodeKind? node = some kind) (hparent : a.parent? token = some node)
    (hrole : kind.checkRole role = .ok ()) : a.checkAttach node token role = .ok kind := by
  have hne : node ≠ token := fun heq => h.acyclic token (.single (heq ▸ hparent))
  have hbelow : a.isAncestor token node = false := by
    rw [Bool.eq_false_iff]
    exact fun hway => h.acyclic token
      (.tail ((isAncestor_iff h.linked h.acyclic).1 hway) hparent)
  simp [checkAttach, hkind, hne, hbelow, hrole, Except.mapError, Except.map]

/-- A token that is put beside itself is taken out. -/
theorem WellFormed.insertSibling_self (h : a.WellFormed) (hparent : a.parent? token = some node)
    (after : Bool) :
    a.insertSibling token token after = ((a.detach token).1, .error (.detached token)) := by
  obtain ⟨role, hrole, hmem⟩ := h.linked.role?_eq_some hparent
  obtain ⟨kind, hkind⟩ :=
    exists_nodeKind_of_mem_children ((h.linked.parent_iff token node).1 hparent)
  have hbeside : kind.checkRole role.beside = .ok () := by
    have hadmitted := (h.suits node kind hkind).checkRole hmem
    cases role with
    | item => exact hadmitted
    | slot _ => rfl
    | extra => rfl
  have hcheck := h.checkAttach_child hkind hparent hbeside
  have hgone : token ∉ (a.detach token).1.children node := by
    rw [children, form_detach h.linked]
    simp
  simp [Arena.insertSibling, hparent, hrole, hcheck, hgone]

/-- Another token stays where it is when one is taken out. -/
theorem mem_children_detach {other : Nat} (h : a.Linked) (hne : other ≠ token)
    (hmem : other ∈ a.children node) : other ∈ (a.detach token).1.children node := by
  obtain ⟨entry, hentry, rfl⟩ := List.mem_map.1 hmem
  rw [children, form_detach h]
  exact List.mem_map_of_mem (List.mem_filter.2 ⟨hentry, by simpa using hne⟩)

/-- Putting a token beside another one is refused without a trace. -/
theorem WellFormed.insertSibling_refused (h : a.WellFormed) {anchor : Nat} {after : Bool}
    {a' : Arena} {e : TokenError} (hne : anchor ≠ token ∨ a.parent? anchor = none)
    (hrefused : a.insertSibling anchor token after = (a', .error e)) : a' = a := by
  unfold Arena.insertSibling at hrefused
  split at hrefused
  · rename_i parent anchorRole hparent _
    have hne : anchor ≠ token := hne.resolve_right (by simp [hparent])
    dsimp only at hrefused
    split at hrefused
    · exact (Prod.mk.inj hrefused).1.symm
    · have hanchor :=
        mem_children_detach h.linked hne ((h.linked.parent_iff anchor parent).1 hparent)
      rw [if_pos (List.contains_iff_mem.2 hanchor)] at hrefused
      cases (Prod.mk.inj hrefused).2
  · exact (Prod.mk.inj hrefused).1.symm

theorem push_refused {role : Role} {a' : Arena} {e : TokenError}
    (hrefused : a.push node token role = (a', .error e)) : a' = a := by
  unfold push at hrefused
  split at hrefused
  · exact (Prod.mk.inj hrefused).1.symm
  · cases role with
    | slot slot =>
      dsimp only at hrefused
      split at hrefused
      · exact (Prod.mk.inj hrefused).1.symm
      · cases (Prod.mk.inj hrefused).2
    | item => cases (Prod.mk.inj hrefused).2
    | extra => cases (Prod.mk.inj hrefused).2

theorem setSlot_refused {slot : Slot} {a' : Arena} {e : TokenError}
    (hrefused : a.setSlot node slot token = (a', .error e)) : a' = a := by
  unfold setSlot at hrefused
  split at hrefused
  · exact (Prod.mk.inj hrefused).1.symm
  · dsimp only at hrefused
    split at hrefused <;> cases (Prod.mk.inj hrefused).2

theorem replace_refused {old new : Nat} {a' : Arena} {e : TokenError}
    (hrefused : a.replace old new = (a', .error e)) : a' = a := by
  unfold replace at hrefused
  split at hrefused
  · exact (Prod.mk.inj hrefused).1.symm
  split at hrefused
  · cases (Prod.mk.inj hrefused).2
  split at hrefused
  · exact (Prod.mk.inj hrefused).1.symm
  split at hrefused
  · exact (Prod.mk.inj hrefused).1.symm
  · cases (Prod.mk.inj hrefused).2

/-- A token that has a parent is not refused to be removed. -/
theorem Linked.remove_refused (h : a.Linked) {a' : Arena} {e : TokenError}
    (hrefused : a.remove token = (a', .error e)) : a' = a := by
  cases hparent : a.parent? token with
  | none =>
    simp only [Arena.remove, Arena.detach, hparent] at hrefused
    exact (Prod.mk.inj hrefused).1.symm
  | some parent =>
    obtain ⟨role, hrole, _⟩ := h.role?_eq_some hparent
    simp only [Arena.remove, Arena.detach, hparent, hrole] at hrefused
    cases (Prod.mk.inj hrefused).2

/-- An operation is refused with the error that it ends with. -/
theorem eq_of_refusal? {α : Type} {result : Arena × Except TokenError α} {e : TokenError}
    (h : (result.map id refusal?).2 = some e) : result = (result.1, .error e) := by
  obtain ⟨a, outcome⟩ := result
  cases outcome with
  | ok _ => cases h
  | error e' => rw [Option.some.inj (show some e' = some e from h)]

/-- A refused operation leaves the arena as it was, unless it puts a token beside itself. -/
theorem WellFormed.perform_eq_iff (h : a.WellFormed) {op : Operation} {e : TokenError}
    (hrefused : (a.perform op).2 = some e) : (a.perform op).1 = a ↔ ¬ op.BesideItself a := by
  constructor
  · rintro heq ⟨token, hparent, hop⟩
    obtain ⟨parent, hparent⟩ := Option.isSome_iff_exists.1 hparent
    have hdetach : (a.perform op).1 = (a.detach token).1 := by
      rcases hop with rfl | rfl
      all_goals simp [Arena.perform, insertBefore, insertAfter, h.insertSibling_self hparent]
    have hgone := parent?_detach a token token
    rw [← hdetach, heq, hparent, if_pos rfl] at hgone
    cases hgone
  · intro hnot
    have hne {anchor token : Nat}
        (hop : op = .insertBefore anchor token ∨ op = .insertAfter anchor token) :
        anchor ≠ token ∨ a.parent? anchor = none := by
      by_contra hcontra
      obtain ⟨heq, hparent⟩ := not_or.1 hcontra
      obtain rfl := not_not.1 heq
      exact hnot ⟨anchor, Option.isSome_iff_ne_none.2 hparent, hop⟩
    cases op with
    | leaf kind text =>
      simp only [Arena.perform] at hrefused ⊢
      split
      · rename_i hleaf
        simp [hleaf] at hrefused
      · rfl
    | push node token role => exact push_refused (eq_of_refusal? hrefused)
    | setSlot node slot token => exact setSlot_refused (eq_of_refusal? hrefused)
    | insertBefore anchor token =>
      exact h.insertSibling_refused (hne (.inl rfl)) (eq_of_refusal? hrefused)
    | insertAfter anchor token =>
      exact h.insertSibling_refused (hne (.inr rfl)) (eq_of_refusal? hrefused)
    | replace old new => exact replace_refused (eq_of_refusal? hrefused)
    | remove token => exact h.linked.remove_refused (eq_of_refusal? hrefused)
    | _ => cases hrefused

/-- However an arena came about, a refused operation leaves it as it was exactly if it does not put
a token beside itself that stands in a form. -/
theorem refused_leaves_arena_iff (h : Reachable a) {op : Operation} {e : TokenError}
    (hrefused : (a.perform op).2 = some e) : (a.perform op).1 = a ↔ ¬ op.BesideItself a :=
  h.wellFormed.perform_eq_iff hrefused

theorem refused_cycle_leaves_arena :
    (blankList.perform (.push 0 0 .extra)).2 = some (.cycle 0 0) ∧
      ((blankList.perform (.push 0 0 .extra)).1 = blankList ↔
        ¬ (Operation.push 0 0 .extra).BesideItself blankList) :=
  ⟨by decide, refused_leaves_arena_iff reachable_blankList (e := .cycle 0 0) (by decide)⟩

/-- A blank that is put before itself is refused, and stands in no form then. -/
theorem refused_insert_changes_arena :
    Reachable blankList ∧ (blankList.perform (.insertBefore 1 1)).2 = some (.detached 1) ∧
      blankList.children 0 = [1] ∧ (blankList.perform (.insertBefore 1 1)).1.children 0 = [] :=
  ⟨reachable_blankList, by decide, by decide, by decide⟩

end ScriptTree.Arena
