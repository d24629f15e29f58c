import ScriptTree.Proofs.Assembly
import ScriptTree.Proofs.Positions
import ScriptTree.Reparse.InArena

/-!
# Copies in the places of old tokens

A copy of a tree is placed and put into the place of an old token. No such operation is refused,
because a copy stands in no form and nothing old stands below it. Of the old tokens only the node
shows a difference, in the entries that were replaced.
-/

namespace ScriptTree.Arena

open Relation

variable {a b : Arena} {id node top : Nat} {pos start : Position}

/-! ### The tree of placed tokens -/

/-- The tokens of a run show the places that the run gives to them. -/
def ShowsPlaces (a : Arena) (pos : Position) (ids : List Nat) (b : Arena) : Prop :=
  ∀ id ∈ ids, b.shown? id =
    (a.shown? id).map fun shown => (shown.1, (a.placeIn pos ids id).getD shown.2)

/-- The tokens of a part of a run show the places that the part gives to them. -/
theorem ShowsPlaces.of_append (ids : List Nat) {more : List Nat} (h : a.ShowsPlaces pos (ids ++ more) b)
    (hdisjoint : ids.Disjoint more) :
    a.ShowsPlaces pos ids b ∧ a.ShowsPlaces (pos.advance (a.textOf ids)) more b := by
  refine ⟨fun id hid => ?_, fun id hid => ?_⟩
  · rw [h id (List.mem_append_left more hid), placeIn_append, placeIn_of_mem hid]
    rfl
  · have hnot : id ∉ ids := fun hmem => hdisjoint hmem hid
    rw [h id (List.mem_append_right ids hid), placeIn_append, placeIn_of_notMem hnot]
    rfl

/-- The trees of children that show their places one behind another are placed one behind another,
if the tree of each of them is placed when it shows its places. -/
theorem mapChildren_of_showsPlaces {form : List (Role × Nat)}
    (hnodup : ((form.map Prod.snd).flatMap a.preorder).Nodup)
    (hchild : ∀ entry ∈ form, ∀ pos, a.ShowsPlaces pos (a.preorder entry.2) b →
      b.tree entry.2 = ((a.tree entry.2).placeFrom pos).1)
    (h : a.ShowsPlaces pos ((form.map Prod.snd).flatMap a.preorder) b) :
    Form.mapChildren b.tree form = (Tree.placeForm pos (Form.mapChildren a.tree form)).1 := by
  induction form generalizing pos with
  | nil => rfl
  | cons entry rest ih =>
    rw [List.map_cons, List.flatMap_cons] at hnodup h
    obtain ⟨hfirst, hrest⟩ := ShowsPlaces.of_append _ h (List.disjoint_of_nodup_append hnodup)
    have htree := hchild entry List.mem_cons_self pos hfirst
    have hmore := ih (List.nodup_append.1 hnodup).2.1
      (fun other hmem => hchild other (List.mem_cons_of_mem entry hmem)) hrest
    have hstop := (Tree.text_placeFrom pos (a.tree entry.2)).2
    rw [text_tree] at hstop
    simp only [Form.mapChildren, List.map_cons, Tree.placeForm] at hmore ⊢
    rw [htree, hmore, hstop]

/-- The tree of tokens that show their places is the tree placed. -/
theorem WellFormed.tree_of_showsPlaces (ha : a.WellFormed) (hb : b.WellFormed) (hid : id < a.size)
    (h : a.ShowsPlaces pos (a.preorder id) b) : b.tree id = ((a.tree id).placeFrom pos).1 := by
  refine below_induction ha.linked ha.acyclic (P := fun id => ∀ pos,
    a.ShowsPlaces pos (a.preorder id) b → b.tree id = ((a.tree id).placeFrom pos).1)
    (fun id hid ih pos h => ?_) hid pos h
  have hpreorder := preorder_eq ha.linked ha.acyclic hid
  have hnodup := nodup_preorder ha.linked ha.acyclic hid
  rw [hpreorder] at h hnodup
  obtain ⟨body, extent, hshown⟩ := exists_shown? hid
  have hself := h id List.mem_cons_self
  rw [hshown, placeIn, if_pos rfl, Option.map_some, Option.getD_some] at hself
  cases body with
  | leaf kind text =>
    rw [tree_of_shown_leaf hself, tree_of_shown_leaf hshown, Tree.text_leaf, Tree.placeFrom]
  | node kind form =>
    have htree := ha.tree_of_shown_node hshown
    have hchildren : a.children id = form.map Prod.snd := by
      rw [children, form_of_shown_node hshown]
    have htext : a.text? id = none := by
      obtain ⟨t, ht, hbody, -⟩ := shown?_eq_some_iff.1 hshown
      simp [text?, ht, Token.text?, hbody]
    rw [hchildren] at ih h hnodup
    obtain ⟨-, hbelow⟩ := ShowsPlaces.of_append [id] h (by
      rintro other hother hmem
      rw [List.mem_singleton.1 hother] at hmem
      exact (List.nodup_cons.1 hnodup).1 hmem)
    have hempty : a.textOf [id] = "" := by simp [htext]
    rw [hempty, Position.advance_empty] at hbelow
    have hform := mapChildren_of_showsPlaces (List.nodup_cons.1 hnodup).2
      (fun entry hmem => ih entry.2 (List.mem_map_of_mem hmem)) hbelow
    have hstop := (Tree.text_placeForm pos (Form.mapChildren a.tree form)).2
    rw [hb.tree_of_shown_node hself, htree, Tree.text_node, Tree.placeFrom]
    simp only [Form.mapChildren] at hform hstop ⊢
    rw [hform, hstop]

/-- Placing a token places its tree, and shows at the tokens below it only. -/
theorem WellFormed.place_spec (ha : a.WellFormed) (htop : top < a.size) (start : Position) :
    (a.place top start).1.WellFormed ∧
      (a.place top start).1.tree top = ((a.tree top).placeFrom start).1 ∧
      (a.place top start).2 = ((a.tree top).placeFrom start).2 ∧
      ∀ id, ¬ ReflTransGen a.IsParent top id → (a.place top start).1.get? id = a.get? id := by
  obtain ⟨hrun, hstop⟩ := place_run ha.linked ha.acyclic htop start
  have hwell := hrun.wellFormed ha
  refine ⟨hwell, ha.tree_of_showsPlaces hwell htop fun id _ => ?_, ?_, fun id hid => ?_⟩
  · rw [shown?, hrun id, shown?, Option.map_map, Option.map_map]
    rfl
  · rw [hstop, (Tree.text_placeFrom start _).2]
  · rw [hrun id, placeIn_of_notMem fun hmem =>
      hid ((mem_preorder_iff ha.linked ha.acyclic htop).1 hmem)]
    cases a.get? id <;> rfl

/-! ### One copy -/

/-- Some entries of a node were replaced by new tokens, and nothing else that is old shows a
difference. -/
structure Refilled (a : Arena) (node : Nat) (kind : NodeKind) (form : List (Role × Nat))
    (a' : Arena) : Prop where
  wellFormed : a'.WellFormed
  size_le : a.size ≤ a'.size
  shown?_node : a'.shown? node = some (.node kind form, a.extent node)
  shown?_old : ∀ id < a.size, id ≠ node → a'.shown? id = a.shown? id
  child_new : ∀ id, a.size ≤ id → ∀ child ∈ a'.children id, a.size ≤ child

variable {a' a'' source : Arena} {kind : NodeKind} {form form' : List (Role × Nat)}

theorem Refilled.form_eq (h : Refilled a node kind form a') : a'.form node = form :=
  form_of_shown_node h.shown?_node

theorem Refilled.extent_eq (h : Refilled a node kind form a') :
    a'.extent node = a.extent node :=
  extent_of_shown h.shown?_node

theorem Refilled.nodeKind?_eq (h : Refilled a node kind form a') :
    a'.nodeKind? node = some kind := by
  obtain ⟨t, ht, hbody, -⟩ := shown?_eq_some_iff.1 h.shown?_node
  simp [nodeKind?, kind?, ht, Token.kind, hbody, TokenKind.node?]

/-- No entry was replaced yet. -/
theorem WellFormed.refilled (ha : a.WellFormed) (hkind : a.nodeKind? node = some kind) :
    Refilled a node kind (a.form node) a where
  wellFormed := ha
  size_le := Nat.le_refl _
  shown?_node := (ha.tree_of_nodeKind? hkind).1
  shown?_old _ _ _ := rfl
  child_new id hid := by simp [children_of_size_le hid]

/-- Entries of a node may be replaced one after another. -/
theorem Refilled.trans (hnode : node < a.size) (h : Refilled a node kind form a')
    (h' : Refilled a' node kind form' a'') : Refilled a node kind form' a'' where
  wellFormed := h'.wellFormed
  size_le := Nat.le_trans h.size_le h'.size_le
  shown?_node := by rw [h'.shown?_node, h.extent_eq]
  shown?_old id hid hne := by
    rw [h'.shown?_old id (Nat.lt_of_lt_of_le hid h.size_le) hne, h.shown?_old id hid hne]
  child_new id hid child hmem := by
    rcases Nat.lt_or_ge id a'.size with hlt | hge
    · have hne : id ≠ node := by omega
      rw [children, form_congr (h'.shown?_old id hlt hne)] at hmem
      exact h.child_new id hid child hmem
    · exact Nat.le_trans h.size_le (h'.child_new id hge child hmem)

/-- What stands below new tokens is new. -/
theorem Refilled.below_new (h : Refilled a node kind form a') {id x : Nat} (hid : a.size ≤ id)
    (hbelow : ReflTransGen a'.IsParent id x) : a.size ≤ x := by
  induction hbelow with
  | refl => exact hid
  | tail _ hlink ih => exact h.child_new _ ih _ ((h.wellFormed.linked.parent_iff _ _).1 hlink)

/-- Copying a token of another arena puts its tree behind what was there. -/
theorem WellFormed.importTree_spec (ha : a.WellFormed) (hsource : source.WellFormed) {new : Nat}
    (hnew : new < source.size) :
    ∃ a', a.importTree source new = (a', a.size) ∧ a'.WellFormed ∧ a.size < a'.size ∧
      a'.tree a.size = source.tree new ∧ (∀ id < a.size, a'.get? id = a.get? id) ∧
      (∀ id < a.size, a'.Loose id a.size) ∧
      ∀ id, a.size ≤ id → ∀ child ∈ a'.children id, a.size ≤ child := by
  have ht : (source.tree new).Suited := hsource.suited_treeFrom _ _
  have hgrown := grown_insertTree a none (source.tree new)
  refine ⟨(a.insertTree none (source.tree new)).1, ?_, ha.insertTree ht, ?_, tree_insertTree a _,
    hgrown.get?_of_lt, fun id hid => ha.loose_insertTree ht hid, fun id hid child hmem => ?_⟩
  · rw [importTree_eq_insertTree hsource.linked hsource.acyclic hnew]
    exact Prod.ext rfl (snd_insertTree a none _)
  · have htop := hgrown.top_lt _ (List.mem_singleton_self _)
    omega
  · have hlt := hgrown.child_lt id hid child hmem
    omega

/-- Whether a token is loose depends on parents only. -/
theorem Loose.congr {token : Nat} (h : a.Loose node token) (hsize : b.size = a.size)
    (hparent : ∀ id, b.parent? id = a.parent? id) : b.Loose node token := by
  have hlink : b.IsParent = a.IsParent := by
    funext parent child
    rw [IsParent, IsParent, hparent]
  exact ⟨hsize ▸ h.lt, by rw [hparent, h.parent?_eq], hlink ▸ h.not_above⟩

/-- A loose token is put into the place of an old one. -/
theorem WellFormed.replace_of_loose (ha : a.WellFormed) {role : Role} {old new : Nat}
    {before after : List (Role × Nat)} (hform : a.form node = before ++ (role, old) :: after)
    (hloose : a.Loose node new) :
    a.replace old new =
      ((a.setParent old none).attach node new fun _ => before ++ (role, new) :: after, .ok ()) := by
  have hparent : a.parent? old = some node :=
    (ha.linked.parent_iff old node).2 (by simp [children, hform])
  have hne : new ≠ old := by
    rintro rfl
    rw [hloose.parent?_eq] at hparent
    cases hparent
  have hrole : a.role? old = some role := by
    obtain ⟨role', hrole, -⟩ := ha.linked.role?_eq_some hparent
    have hmem : (role, old) ∈ a.form node := by simp [hform]
    have hsame : role = role' := ha.linked.role_eq hparent hrole hmem rfl
    rw [hrole, hsame]
  have hcycle : ¬ (new = node ∨ a.isAncestor new node = true) := by
    rintro (rfl | hway)
    · exact hloose.not_above .refl
    · exact hloose.not_above ((isAncestor_iff ha.linked ha.acyclic).1 hway).to_reflTransGen
  rw [Arena.replace]
  simp only [hparent, if_neg hne, hrole, if_neg hcycle, hloose.detach_eq]
  rw [attach_eq_const, form_setParent, ha.linked.map_substitute hform]

/-- A copy is put into the place of an old token, and its tree is placed. -/
theorem WellFormed.substitute_spec (ha : a.WellFormed) (hsource : source.WellFormed)
    (hkind : a.nodeKind? node = some kind) {role : Role} {old new : Nat}
    {before after : List (Role × Nat)} (hform : a.form node = before ++ (role, old) :: after)
    (hnew : new < source.size) (start : Position) :
    ∃ a', a.substitute source start old new =
        (a', .ok (a.size, ((source.tree new).placeFrom start).2)) ∧
      Refilled a node kind (before ++ (role, a.size) :: after) a' ∧ a.size < a'.size ∧
      a'.tree a.size = ((source.tree new).placeFrom start).1 := by
  have hnode := lt_of_nodeKind? hkind
  obtain ⟨b, himport, hb, hlt, htree, hold, hloose, hchild⟩ := ha.importTree_spec hsource hnew
  obtain ⟨hp, hplaced, hstop, hkept⟩ := hb.place_spec hlt start
  obtain ⟨hrun, -⟩ := place_run hb.linked hb.acyclic hlt start
  rw [htree] at hplaced hstop
  generalize hplace : (b.place a.size start).1 = p at *
  have holdp {id : Nat} (hid : id < a.size) : p.get? id = a.get? id := by
    rw [hkept id (hloose id hid).not_above, hold id hid]
  obtain ⟨hformp, hkindp⟩ := form_nodeKind?_congr (holdp hnode)
  have hloosep : p.Loose node a.size := (hloose node hnode).congr hrun.size_eq hrun.parent?_eq
  have hreplace := hp.replace_of_loose (hformp.trans hform) hloosep
  have hwell := hp.replace hloosep.lt old
  rw [hreplace] at hwell
  have hshown {id : Nat} (hne : id ≠ node) :
      ((p.setParent old none).attach node a.size fun _ => before ++ (role, a.size) :: after).shown?
        id = p.shown? id := by
    rw [shown?_attach_of_ne hne, shown?_setParent]
  have hextent : p.extent node = a.extent node := by rw [extent, extent, holdp hnode]
  refine ⟨_, ?_, ⟨hwell, ?_, ?_, fun id hid hne => ?_, fun id hid child hmem => ?_⟩, ?_, ?_⟩
  · rw [Arena.substitute, himport]
    simp only [hplace, hreplace, hstop, Except.map]
  · rw [Arena.attach, size_setParent, size_updateForm, size_setParent, hrun.size_eq]
    exact hlt.le
  · have hnodep := (hp.tree_of_nodeKind? (hkindp.trans hkind)).1
    rw [← shown?_setParent p old node none] at hnodep
    rw [Arena.attach, shown?_setParent, shown?_updateForm_self hnodep, hextent]
  · rw [hshown hne, shown?, holdp hid, shown?]
  · have hne : id ≠ node := by omega
    rw [children, form_congr (hshown hne), (hrun.sameText (fun _ => ⟨rfl, rfl⟩) id).1] at hmem
    exact hchild id hid child hmem
  · rw [Arena.attach, size_setParent, size_updateForm, size_setParent, hrun.size_eq]
    exact hlt
  · rw [← hplaced]
    refine hp.tree_congr hwell hloosep.lt fun x hbelow => hshown ?_
    rintro rfl
    exact hloosep.not_above hbelow

/-! ### A run of copies -/

/-- Copies are put into the places of old tokens one behind another, and their trees are placed one
behind another. -/
theorem WellFormed.substituteAll_spec (ha : a.WellFormed) (hsource : source.WellFormed)
    (hkind : a.nodeKind? node = some kind) {before run after : List (Role × Nat)}
    (hform : a.form node = before ++ run ++ after) {news : List (Role × Nat)}
    (hroles : news.map Prod.fst = run.map Prod.fst)
    (hnews : ∀ entry ∈ news, entry.2 < source.size) (start : Position) :
    ∃ a' copies, a.substituteAll source start ((run.map Prod.snd).zip (news.map Prod.snd)) =
        (a', .ok (copies.map Prod.snd,
          (Tree.placeForm start (Form.mapChildren source.tree news)).2)) ∧
      Refilled a node kind (before ++ copies ++ after) a' ∧
      (∀ entry ∈ copies, a.size ≤ entry.2) ∧
      Form.mapChildren a'.tree copies =
        (Tree.placeForm start (Form.mapChildren source.tree news)).1 := by
  induction run generalizing a before news start with
  | nil =>
    rw [List.map_nil, List.map_eq_nil_iff] at hroles
    refine ⟨a, [], by simp [hroles, substituteAll, Form.mapChildren, Tree.placeForm], ?_, by simp,
      by simp [hroles, Form.mapChildren, Tree.placeForm]⟩
    simpa [hform] using ha.refilled hkind
  | cons entry rest ih =>
    obtain ⟨role, old⟩ := entry
    cases news with
    | nil => cases hroles
    | cons first news =>
      obtain ⟨role', new⟩ := first
      obtain ⟨rfl, hrest⟩ : role' = role ∧ news.map Prod.fst = rest.map Prod.fst := by
        simpa using hroles
      have hnode := lt_of_nodeKind? hkind
      have hnew : new < source.size := hnews _ List.mem_cons_self
      have hsplit : a.form node = before ++ (role', old) :: (rest ++ after) := by simpa using hform
      obtain ⟨b, hfirst, hrefilled, hlt, htree⟩ :=
        ha.substitute_spec hsource hkind hsplit hnew start
      have hformb : b.form node = (before ++ [(role', a.size)]) ++ rest ++ after := by
        simpa using hrefilled.form_eq
      obtain ⟨a', copies, hothers, hmore, hcopies, htrees⟩ :=
        ih hrefilled.wellFormed hrefilled.nodeKind?_eq hformb hrest
          (fun entry hmem => hnews entry (List.mem_cons_of_mem _ hmem))
          ((source.tree new).placeFrom start).2
      -- the node is the parent of the first copy, so that the others leave its tree as it is
      have hkept : a'.tree a.size = b.tree a.size := by
        have hchild : a.size ∈ b.children node := by simp [children, hformb]
        have hbelow := (hrefilled.wellFormed.not_below_child hchild).2
        refine hrefilled.wellFormed.tree_congr hmore.wellFormed hlt fun x hx => ?_
        have hxmem := (mem_preorder_iff hrefilled.wellFormed.linked hrefilled.wellFormed.acyclic
          hlt).2 hx
        refine hmore.shown?_old x (lt_of_mem_preorder hrefilled.wellFormed.linked
          hrefilled.wellFormed.acyclic hlt hxmem) ?_
        rintro rfl
        exact hbelow hx
      refine ⟨a', (role', a.size) :: copies, ?_, ?_, ?_, ?_⟩
      · simp only [List.map_cons, List.zip_cons_cons, substituteAll, hfirst, hothers, Form.mapChildren,
          Tree.placeForm]
      · simpa using hrefilled.trans hnode hmore
      · refine List.forall_mem_cons.2 ⟨Nat.le_refl _, fun entry hmem => ?_⟩
        exact Nat.le_trans hrefilled.size_le (hcopies entry hmem)
      · simp only [Form.mapChildren, List.map_cons, Tree.placeForm] at htrees ⊢
        rw [hkept, htree, htrees]

end ScriptTree.Arena
