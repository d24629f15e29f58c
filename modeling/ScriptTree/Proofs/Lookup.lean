import ScriptTree.Arena.Rooted
import ScriptTree.Proofs.Positions

/-!
# Finding tokens by their offset

Placing a tree spreads its leaves over the bytes of its text, one after another and without gaps, and
every node over the leaves below it. Of the children of a node whose bytes hold an offset, one holds it
too, so the way down ends at a leaf; and no other leaf holds the offset, wherever empty tokens stand
between.
-/

namespace ScriptTree

/-- The bytes of a token hold the offsets from its start to its end. -/
theorem Extent.contains_span {e : Extent} {offset : Nat} :
    e.span.contains offset ↔ e.start.offset ≤ offset ∧ offset < e.stop.offset := by
  rw [Span.contains, Bool.and_eq_true, decide_eq_true_iff, decide_eq_true_iff]
  rfl

namespace Arena

open Relation

variable {a b : Arena} {pos : Position} {ids more : List Nat} {id top token offset : Nat}

/-! ### Tokens in their places -/

/-- Each token of a run that begins at `pos` stands where the text before it ends. -/
def InPlace (a : Arena) (pos : Position) (ids : List Nat) : Prop :=
  ∀ token ∈ ids, a.placeIn pos ids token = some (a.extent token)

/-- The parts of a run are in their places. -/
theorem InPlace.of_append (h : a.InPlace pos (ids ++ more)) (hnodup : (ids ++ more).Nodup) :
    a.InPlace pos ids ∧ a.InPlace (pos.advance (a.textOf ids)) more := by
  have hdisjoint := List.disjoint_of_nodup_append hnodup
  constructor
  · intro token hmem
    have htoken := h token (List.mem_append_left _ hmem)
    rw [placeIn_append] at htoken
    rw [placeIn_of_mem hmem] at htoken ⊢
    simpa using htoken
  · intro token hmem
    have htoken := h token (List.mem_append_right _ hmem)
    rwa [placeIn_append, placeIn_of_notMem fun hmem' => hdisjoint hmem' hmem, Option.none_or]
      at htoken

/-- The bytes of the first token of a run are those of its text. -/
theorem InPlace.offsets (h : a.InPlace pos (id :: ids)) :
    (a.extent id).start.offset = pos.offset ∧
      (a.extent id).stop.offset = pos.offset + (a.textOf (a.preorder id)).utf8ByteSize := by
  have hfirst := h id List.mem_cons_self
  rw [placeIn, if_pos rfl, Option.some.injEq, text_tree] at hfirst
  rw [← hfirst, Position.offset_advance]
  exact ⟨rfl, rfl⟩

/-- The bytes of the topmost of the tokens below a token are those of their text. -/
theorem InPlace.offsets_preorder (hlinked : a.Linked) (hacyclic : a.Acyclic) (hid : id < a.size)
    (h : a.InPlace pos (a.preorder id)) :
    (a.extent id).start.offset = pos.offset ∧
      (a.extent id).stop.offset = pos.offset + (a.textOf (a.preorder id)).utf8ByteSize := by
  rw [preorder_eq hlinked hacyclic hid] at h
  exact h.offsets

/-- The tokens below a token of a tree are in their places, and its bytes are among those of the
tree. -/
theorem InPlace.below (hlinked : a.Linked) (hacyclic : a.Acyclic) (hid : id < a.size)
    (h : a.InPlace pos (a.preorder id)) (hmem : token ∈ a.preorder id) :
    (∃ pos, a.InPlace pos (a.preorder token)) ∧
      (a.extent id).start.offset ≤ (a.extent token).start.offset ∧
      (a.extent token).stop.offset ≤ (a.extent id).stop.offset := by
  obtain ⟨before, after, heq⟩ := exists_preorder_eq_append hlinked hacyclic hid hmem
  obtain ⟨hstart, hstop⟩ := h.offsets_preorder hlinked hacyclic hid
  have hnodup := nodup_preorder hlinked hacyclic hid
  rw [heq, List.append_assoc] at h hnodup
  obtain ⟨-, hrest⟩ := h.of_append hnodup
  obtain ⟨htoken, -⟩ := hrest.of_append (List.nodup_append.1 hnodup).2.1
  obtain ⟨hstart', hstop'⟩ := htoken.offsets_preorder hlinked hacyclic
    (lt_of_mem_preorder hlinked hacyclic hid hmem)
  rw [Position.offset_advance] at hstart' hstop'
  rw [heq, textOf_append, textOf_append, String.utf8ByteSize_append,
    String.utf8ByteSize_append] at hstop
  exact ⟨⟨_, htoken⟩, by omega, by omega⟩

/-! ### The leaf that holds an offset -/

/-- A token below another is a leaf whose bytes hold an offset. -/
def IsLeafAt (a : Arena) (top offset id : Nat) : Prop :=
  id ∈ a.preorder top ∧ (a.text? id).isSome ∧ (a.extent id).span.contains offset

/-- A leaf ends before any later token of the run begins. -/
theorem InPlace.stop_le_start {rest : List Nat} {leaf : Nat}
    (h : a.InPlace pos (ids ++ leaf :: (more ++ token :: rest)))
    (hnodup : (ids ++ leaf :: (more ++ token :: rest)).Nodup)
    (hleaf : a.preorder leaf = [leaf]) :
    (a.extent leaf).stop.offset ≤ (a.extent token).start.offset := by
  obtain ⟨-, hlate⟩ := h.of_append hnodup
  have hstop := hlate.offsets.2
  rw [← List.cons_append] at hlate
  obtain ⟨-, hlast⟩ := hlate.of_append (List.nodup_append.1 hnodup).2.1
  have hself : a.textOf (a.preorder leaf) = (a.text? leaf).getD "" := by simp [hleaf]
  have hbehind := Position.offset_advance (pos.advance (a.textOf ids)) (a.textOf (leaf :: more))
  rw [textOf_cons, String.utf8ByteSize_append] at hbehind
  rw [hlast.offsets.1, textOf_cons, hbehind, hstop, hself]
  omega

/-- Not more than one leaf holds an offset. -/
theorem InPlace.leafAt_unique (hlinked : a.Linked) (hacyclic : a.Acyclic) (htop : top < a.size)
    (h : a.InPlace pos (a.preorder top)) {x y : Nat} (hx : a.IsLeafAt top offset x)
    (hy : a.IsLeafAt top offset y) : x = y := by
  obtain ⟨hxmem, hxtext, hxoffset⟩ := hx
  obtain ⟨hymem, hytext, hyoffset⟩ := hy
  rw [Extent.contains_span] at hxoffset hyoffset
  have hleaf {z : Nat} (hz : (a.text? z).isSome) : a.preorder z = [z] := by
    obtain ⟨text, htext⟩ := Option.isSome_iff_exists.1 hz
    exact (preorder_of_text? hlinked hacyclic htext).1
  have hnodup := nodup_preorder hlinked hacyclic htop
  obtain ⟨before, after, hsplit⟩ := List.append_of_mem hxmem
  rw [hsplit] at h hnodup hymem
  by_contra hne
  rcases List.mem_append.1 hymem with hbefore | hrest
  · obtain ⟨front, back, rfl⟩ := List.append_of_mem hbefore
    rw [List.append_assoc, List.cons_append] at h hnodup
    have hle := h.stop_le_start hnodup (hleaf hytext)
    omega
  · obtain ⟨front, back, rfl⟩ := List.append_of_mem ((List.mem_cons.1 hrest).resolve_left
      fun heq => hne heq.symm)
    have hle := h.stop_le_start hnodup (hleaf hxtext)
    omega

/-- Of children in their places, one holds an offset of their text. -/
theorem InPlace.exists_child (hlinked : a.Linked) (hacyclic : a.Acyclic) {children : List Nat}
    (hlt : ∀ child ∈ children, child < a.size) (hnodup : (children.flatMap a.preorder).Nodup)
    (h : a.InPlace pos (children.flatMap a.preorder)) (hle : pos.offset ≤ offset)
    (hoffset : offset < pos.offset + (a.textOf (children.flatMap a.preorder)).utf8ByteSize) :
    ∃ child ∈ children, (a.extent child).span.contains offset := by
  induction children generalizing pos with
  | nil =>
    rw [List.flatMap_nil, textOf_nil, String.utf8ByteSize_empty] at hoffset
    omega
  | cons first rest ih =>
    rw [List.flatMap_cons] at hnodup h
    rw [List.flatMap_cons, textOf_append, String.utf8ByteSize_append] at hoffset
    obtain ⟨hfirst, hrest⟩ := h.of_append hnodup
    obtain ⟨hstart, hstop⟩ :=
      hfirst.offsets_preorder hlinked hacyclic (hlt first List.mem_cons_self)
    rcases Nat.lt_or_ge offset (a.extent first).stop.offset with hin | hout
    · refine ⟨first, List.mem_cons_self, ?_⟩
      exact Extent.contains_span.2 ⟨by omega, hin⟩
    · obtain ⟨child, hmem, hchild⟩ := ih (fun child hmem => hlt child (List.mem_cons_of_mem _ hmem))
        (List.nodup_append.1 hnodup).2.1 hrest (by rw [Position.offset_advance]; omega)
        (by rw [Position.offset_advance]; omega)
      exact ⟨child, List.mem_cons_of_mem _ hmem, hchild⟩

/-- The way down from a token that holds an offset ends at a leaf that holds it. -/
theorem InPlace.isLeafAt_innermostFrom (hlinked : a.Linked) (hacyclic : a.Acyclic) {fuel : Nat}
    (hid : id < a.size) (hfuel : (a.preorder id).length ≤ fuel) (h : a.InPlace pos (a.preorder id))
    (hoffset : (a.extent id).span.contains offset) :
    a.IsLeafAt id offset (RootedArena.innermostFrom a offset fuel id) := by
  induction fuel generalizing id pos with
  | zero =>
    rw [preorder_eq hlinked hacyclic hid, List.length_cons] at hfuel
    omega
  | succ fuel ih =>
    have hpreorder := preorder_eq hlinked hacyclic hid
    rw [RootedArena.innermostFrom]
    cases hfind : (a.children id).find? fun child => (a.extent child).span.contains offset with
    | some child =>
      have hchild := List.mem_of_find?_eq_some hfind
      have hmem : child ∈ a.preorder id := by
        rw [mem_preorder_iff hlinked hacyclic hid]
        exact .single ((hlinked.parent_iff child id).2 hchild)
      obtain ⟨⟨pos', hbelow⟩, -⟩ := h.below hlinked hacyclic hid hmem
      have hlt := length_preorder_child hlinked hacyclic hid hchild
      obtain ⟨hleaf, htext, hcontains⟩ := ih (hlinked.child_lt hchild) (by omega) hbelow
        (by simpa using List.find?_some hfind)
      refine ⟨?_, htext, hcontains⟩
      rw [hpreorder]
      exact List.mem_cons_of_mem _ (List.mem_flatMap.2 ⟨child, hchild, hleaf⟩)
    | none =>
      refine ⟨hpreorder ▸ List.mem_cons_self, ?_, hoffset⟩
      by_contra htext
      obtain ⟨hstart, hstop⟩ := h.offsets_preorder hlinked hacyclic hid
      have hnodup := nodup_preorder hlinked hacyclic hid
      rw [Extent.contains_span] at hoffset
      -- a node has no text of its own, so that one of its children holds the offset
      rw [Bool.not_eq_true, Option.isSome_eq_false_iff, Option.isNone_iff_eq_none] at htext
      rw [hpreorder, textOf_cons, htext, Option.getD_none, String.empty_append] at hstop
      rw [hpreorder, ← List.singleton_append] at h hnodup
      obtain ⟨-, hchildren⟩ := h.of_append hnodup
      have hempty : a.textOf [id] = "" := by simp [htext]
      rw [hempty, Position.advance_empty] at hchildren
      have hle : pos.offset ≤ offset := by omega
      obtain ⟨child, hchild, hcontains⟩ := hchildren.exists_child hlinked hacyclic
        (fun child hchild => hlinked.child_lt hchild) (List.nodup_append.1 hnodup).2.1 hle (by omega)
      exact List.find?_eq_none.1 hfind child hchild hcontains

/-! ### Placed arenas -/

/-- The text of tokens depends on the texts of leaves only. -/
theorem textOf_congr (h : ∀ id, b.text? id = a.text? id) (ids : List Nat) :
    b.textOf ids = a.textOf ids := by
  simp only [textOf, h]

/-- The tokens below a token depend on forms only. -/
theorem preorder_congr (hsize : b.size = a.size) (h : ∀ id, b.form id = a.form id) (id : Nat) :
    b.preorder id = a.preorder id := by
  have hfrom (fuel id : Nat) : b.preorderFrom fuel id = a.preorderFrom fuel id := by
    induction fuel generalizing id with
    | zero => rfl
    | succ fuel ih =>
      rw [preorderFrom, preorderFrom, children, children, h]
      exact congrArg _ (List.flatMap_congr fun child _ => ih child)
  rw [preorder, preorder, hsize, hfrom]

/-- Placing a token puts the tokens below it in their places. -/
theorem PlacedRun.inPlace (hlinked : a.Linked) (hacyclic : a.Acyclic) (htop : top < a.size)
    (h : a.PlacedRun pos (a.preorder top) a b) : b.InPlace pos (b.preorder top) := by
  have hsame : SameText a b := h.sameText fun _ => ⟨rfl, rfl⟩
  have hpreorder := preorder_congr h.size_eq fun id => (hsame id).1
  have htext (ids : List Nat) := textOf_congr (fun id => (hsame id).2) ids
  intro token hmem
  rw [hpreorder] at hmem ⊢
  obtain ⟨t, ht⟩ : ∃ t, a.get? token = some t :=
    ⟨_, Array.getElem?_eq_getElem (lt_of_mem_preorder hlinked hacyclic htop hmem)⟩
  rw [extent, h token, ht, placeIn_of_mem hmem, placeIn_of_mem hmem]
  simp [text_tree, htext, hpreorder]

/-- The way up from a token below another comes past it. -/
theorem ancestors_eq_append (hlinked : a.Linked) (hacyclic : a.Acyclic)
    (hway : ReflTransGen a.IsParent top id) :
    ∃ below above, id :: a.ancestors id = below ++ top :: above ∧ ∀ token ∈ below ++ [top],
      ReflTransGen a.IsParent top token ∧ ReflTransGen a.IsParent token id := by
  induction hway with
  | refl => exact ⟨[], a.ancestors top, rfl, by simpa using ReflTransGen.refl⟩
  | @tail parent child hup hlink ih =>
    obtain ⟨below, above, heq, htokens⟩ := ih
    have hchild := (hlinked.parent_iff child parent).1 hlink
    refine ⟨child :: below, above, ?_, fun token hmem => ?_⟩
    · rw [ancestors_child hlinked hacyclic hchild, heq, List.cons_append]
    · rcases List.mem_cons.1 hmem with rfl | hmem
      · exact ⟨hup.tail hlink, .refl⟩
      · obtain ⟨hdown, hway⟩ := htokens token hmem
        exact ⟨hdown, hway.tail hlink⟩

end Arena

namespace RootedArena

open Arena Relation

variable {r : RootedArena}

/-- Where tokens are in their places, the token found for an offset is the leaf whose bytes hold
it. -/
theorem tokenAt?_eq_some_iff (hlinked : r.arena.Linked) (hacyclic : r.arena.Acyclic)
    (hroot : r.root < r.arena.size) {pos : Position} (h : r.arena.InPlace pos r.preorder)
    (offset id : Nat) :
    r.tokenAt? offset = some id ↔ r.arena.IsLeafAt r.root offset id := by
  have hlength := length_preorder_le hlinked hacyclic hroot
  rw [tokenAt?]
  constructor
  · intro hfound
    split at hfound
    · rename_i hoffset
      rw [← Option.some.inj hfound]
      exact InPlace.isLeafAt_innermostFrom hlinked hacyclic hroot hlength h hoffset
    · cases hfound
  · intro hleaf
    have hoffset : (r.arena.extent r.root).span.contains offset := by
      obtain ⟨-, hstart, hstop⟩ := h.below hlinked hacyclic hroot hleaf.1
      have hin := Extent.contains_span.1 hleaf.2.2
      exact Extent.contains_span.2 ⟨by omega, by omega⟩
    rw [if_pos hoffset]
    have hinner := InPlace.isLeafAt_innermostFrom hlinked hacyclic hroot hlength h hoffset
    exact congrArg some (h.leafAt_unique hlinked hacyclic hroot hinner hleaf)

/-- Where tokens are in their places, a token is found for the offsets of the text. -/
theorem isSome_tokenAt?_iff (hlinked : r.arena.Linked) (hacyclic : r.arena.Acyclic)
    (hroot : r.root < r.arena.size) {pos : Position} (h : r.arena.InPlace pos r.preorder)
    (offset : Nat) :
    (r.tokenAt? offset).isSome ↔
      pos.offset ≤ offset ∧ offset < pos.offset + r.tree.text.utf8ByteSize := by
  obtain ⟨hstart, hstop⟩ := h.offsets_preorder hlinked hacyclic hroot
  rw [← text_tree] at hstop
  rw [tree, ← hstop, ← hstart, ← Extent.contains_span, tokenAt?]
  split <;> simp_all

/-- Where tokens are in their places, a token on the way up from a leaf holds the offsets of the
leaf. -/
theorem contains_of_above (hlinked : r.arena.Linked) (hacyclic : r.arena.Acyclic)
    (hroot : r.root < r.arena.size) {pos : Position} (h : r.arena.InPlace pos r.preorder)
    {offset id token : Nat} (hleaf : r.arena.IsLeafAt r.root offset id)
    (hdown : ReflTransGen r.arena.IsParent r.root token)
    (hway : ReflTransGen r.arena.IsParent token id) :
    (r.arena.extent token).span.contains offset := by
  have hmem := (mem_preorder_iff hlinked hacyclic hroot).2 hdown
  have hlt := lt_of_mem_preorder hlinked hacyclic hroot hmem
  obtain ⟨⟨pos, hin⟩, -⟩ := h.below hlinked hacyclic hroot hmem
  obtain ⟨-, hstart, hstop⟩ :=
    hin.below hlinked hacyclic hlt ((mem_preorder_iff hlinked hacyclic hlt).2 hway)
  have hoffset := Extent.contains_span.1 hleaf.2.2
  exact Extent.contains_span.2 ⟨by omega, by omega⟩

/-- In a tree that was placed from any position on, an offset of its text is found in a leaf: the only
one whose bytes hold the offset. All tokens on the way up from it to the root hold the offset too. -/
theorem lookup_finds_leaf (hlinked : r.arena.Linked) (hacyclic : r.arena.Acyclic)
    (hroot : r.root < r.arena.size) (base : Position) (offset : Nat) :
    (((r.place base).1.tokenAt? offset).isSome ↔
      base.offset ≤ offset ∧ offset < base.offset + r.tree.text.utf8ByteSize) ∧
    (∀ id, (r.place base).1.tokenAt? offset = some id ↔
      (r.place base).1.arena.IsLeafAt r.root offset id) ∧
    ∀ id, (r.place base).1.tokenAt? offset = some id →
      ∃ below above, id :: (r.place base).1.arena.ancestors id = below ++ r.root :: above ∧
        ∀ token ∈ below ++ [r.root],
          ((r.place base).1.arena.extent token).span.contains offset := by
  obtain ⟨hrun, -⟩ := place_run hlinked hacyclic hroot base
  have hsame : SameText r.arena (r.place base).1.arena := hrun.sameText fun _ => ⟨rfl, rfl⟩
  have hsize : (r.place base).1.arena.size = r.arena.size := hrun.size_eq
  have hinPlace : (r.place base).1.arena.InPlace base (r.place base).1.preorder :=
    hrun.inPlace hlinked hacyclic hroot
  have htext : (r.place base).1.tree.text = r.tree.text := by
    rw [tree, tree, text_tree, text_tree, preorder_congr hsize fun id => (hsame id).1,
      textOf_congr fun id => (hsame id).2]
    rfl
  have hlinked' : (r.place base).1.arena.Linked :=
    hlinked.congr hrun.parent?_eq fun id => (hsame id).1
  have hacyclic' : (r.place base).1.arena.Acyclic := hacyclic.congr hrun.parent?_eq
  have hroot' : (r.place base).1.root < (r.place base).1.arena.size := hsize ▸ hroot
  have hfound := tokenAt?_eq_some_iff hlinked' hacyclic' hroot' hinPlace offset
  rw [← htext]
  refine ⟨isSome_tokenAt?_iff hlinked' hacyclic' hroot' hinPlace offset, hfound, fun id hid => ?_⟩
  have hleaf := (hfound id).1 hid
  have hbelow := (mem_preorder_iff hlinked' hacyclic' hroot').1 hleaf.1
  obtain ⟨below, above, heq, htokens⟩ := ancestors_eq_append hlinked' hacyclic' hbelow
  refine ⟨below, above, heq, fun token htoken => ?_⟩
  obtain ⟨hdown, hway⟩ := htokens token htoken
  exact contains_of_above hlinked' hacyclic' hroot' hinPlace hleaf hdown hway

theorem lookup_finds_leaf_commentedList :
    ((RootedArena.mk commentedList 0).place ⟨5, 1, 3⟩).1.tokenAt? 9 = some 3 ∧
      ((RootedArena.mk commentedList 0).place ⟨5, 1, 3⟩).1.tokenAt? 11 = none := by
  have hwell := reachable_commentedList.wellFormed
  have hfinds (offset : Nat) := lookup_finds_leaf hwell.linked hwell.acyclic
    (r := ⟨commentedList, 0⟩) (by decide) ⟨5, 1, 3⟩ offset
  refine ⟨((hfinds 9).2.1 3).2 (by unfold IsLeafAt; decide), ?_⟩
  have hnone := mt (hfinds 11).1.1 (by decide)
  simpa using hnone

end RootedArena

end ScriptTree
