import Mathlib.Data.List.Induction
import ScriptTree.Proofs.ArenaRuns
import ScriptTree.Proofs.Places
import ScriptTree.Proofs.Preorder

/-!
# Positions are sums over the text

Placing a tree goes through it with a stack of nodes that are still open. Every token that it comes
past gets the position after the text of all leaves before it, and the position after its own text
too; nothing else in the arena changes. The argument follows the tree: what one frame does until it
is taken off the stack is one statement about the node, and the loop over the children of the node
chains these statements.
-/

namespace ScriptTree

namespace Position

/-- The column after characters, counted from the last line feed among them. -/
def columnAfter (column : Nat) (cs : List Char) : Nat :=
  if '\n' ∈ cs then (cs.reverse.takeWhile (· ≠ '\n')).length else column + cs.length

/-- The position a text further on, told from the text as a whole. -/
def beyond (p : Position) (text : String) : Position where
  offset := p.offset + text.utf8ByteSize
  line := p.line + text.toList.count '\n'
  column := columnAfter p.column text.toList

/-- One more character is one more column, and a line feed begins with the first one. -/
theorem columnAfter_concat (column : Nat) (cs : List Char) (c : Char) :
    columnAfter column (cs ++ [c]) = if c = '\n' then 0 else columnAfter column cs + 1 := by
  by_cases hc : c = '\n'
  · simp [columnAfter, hc]
  · have hmem : '\n' ∈ cs ++ [c] ↔ '\n' ∈ cs := by simp [Ne.symm hc]
    simp only [columnAfter, hmem, if_neg hc, List.reverse_concat, List.length_append]
    split
    · rw [List.takeWhile_cons_of_pos (by simpa using hc), List.length_cons]
    · rw [List.length_singleton, Nat.add_assoc]

/-- Reading characters one after another counts lines and columns. -/
theorem advanceChars_line_column (p : Position) (cs : List Char) :
    (p.advanceChars cs).line = p.line + cs.count '\n' ∧
      (p.advanceChars cs).column = columnAfter p.column cs := by
  induction cs using List.reverseRecOn with
  | nil => simp [columnAfter]
  | append_singleton cs c ih =>
    have hlast : p.advanceChars (cs ++ [c]) = (p.advanceChars cs).advanceChar c := by
      simp [advanceChars]
    rw [hlast, columnAfter_concat, List.count_append, advanceChar]
    by_cases hc : c = '\n'
    · simp [hc, ih.1, Nat.add_assoc]
    · simp [hc, ih.1, ih.2]

/-- Reading a text character by character leads to the position that lies beyond it. -/
theorem advance_eq_beyond (p : Position) (text : String) : p.advance text = p.beyond text := by
  obtain ⟨hline, hcolumn⟩ := advanceChars_line_column p text.toList
  have hoffset := offset_advance p text
  rw [advance] at hoffset ⊢
  rw [beyond, ← hoffset, ← hline, ← hcolumn]

end Position

namespace Arena

open Relation

variable {a b b' : Arena} {id node top : Nat} {pos start : Position}

/-! ### The text below a token -/

/-- The text of tokens one after another, to which nodes add nothing. -/
def textOf (a : Arena) (ids : List Nat) : String :=
  ids.foldr (fun id text => (a.text? id).getD "" ++ text) ""

/-- The text of all leaves below a token that stand before another. -/
def textBefore (a : Arena) (top id : Nat) : String :=
  a.textOf ((a.preorder top).takeWhile (· ≠ id))

@[simp]
theorem textOf_nil (a : Arena) : a.textOf [] = "" := rfl

@[simp]
theorem textOf_cons (a : Arena) (id : Nat) (ids : List Nat) :
    a.textOf (id :: ids) = (a.text? id).getD "" ++ a.textOf ids := rfl

@[simp]
theorem textOf_append (a : Arena) (ids more : List Nat) :
    a.textOf (ids ++ more) = a.textOf ids ++ a.textOf more := by
  induction ids with
  | nil => simp
  | cons id ids ih => simp [ih, String.append_assoc]

/-- The text of a tree is the text of the tokens that the walk down meets. -/
theorem text_treeFrom (a : Arena) (fuel id : Nat) :
    (a.treeFrom fuel id).text = a.textOf (a.preorderFrom fuel id) := by
  induction fuel generalizing id with
  | zero => simp [treeFrom, preorderFrom, Tree.ofText]
  | succ fuel ih =>
    rw [treeFrom, preorderFrom, children, form, textOf_cons, text?]
    cases htoken : a.get? id with
    | none => simp [Tree.ofText]
    | some token =>
      cases hbody : token.body with
      | leaf kind text => simp [hbody, Token.form, Token.text?]
      | node kind form =>
        have hform (entries : List (Role × Nat)) :
            Tree.textOfForm (entries.map fun entry => (entry.1, a.treeFrom fuel entry.2)) =
              a.textOf ((entries.map Prod.snd).flatMap (a.preorderFrom fuel)) := by
          induction entries with
          | nil => simp
          | cons entry rest ih' => simp [ih, ih']
        simp [hbody, Token.form, Token.text?, hform]

/-- The text of a tree is the text of the tokens below its topmost. -/
theorem text_tree (a : Arena) (id : Nat) : (a.tree id).text = a.textOf (a.preorder id) :=
  text_treeFrom a a.size id

/-! ### Places of a run of tokens -/

/-- The place that a run of tokens which begins at `pos` gives to one of them. -/
def placeIn (a : Arena) (pos : Position) : List Nat → Nat → Option Extent
  | [], _ => none
  | first :: rest, id =>
    if id = first then some ⟨pos, pos.advance (a.tree id).text⟩
    else a.placeIn (pos.advance ((a.text? first).getD "")) rest id

/-- Only the tokens of the run get a place. -/
theorem placeIn_of_notMem {ids : List Nat} (h : id ∉ ids) : a.placeIn pos ids id = none := by
  induction ids generalizing pos with
  | nil => rfl
  | cons first rest ih =>
    rw [List.mem_cons, not_or] at h
    rw [placeIn, if_neg h.1, ih h.2]

/-- A token of the run begins after the text of those before it. -/
theorem placeIn_of_mem {ids : List Nat} (h : id ∈ ids) :
    a.placeIn pos ids id =
      some ⟨pos.advance (a.textOf (ids.takeWhile (· ≠ id))),
        (pos.advance (a.textOf (ids.takeWhile (· ≠ id)))).advance (a.tree id).text⟩ := by
  induction ids generalizing pos with
  | nil => cases h
  | cons first rest ih =>
    rw [placeIn]
    by_cases heq : id = first
    · simp [heq, Position.advance]
    · have hrest : id ∈ rest := (List.mem_cons.1 h).resolve_left heq
      simp [heq, Ne.symm heq, ih hrest]

/-- A second run goes on where the first one ends. -/
theorem placeIn_append (a : Arena) (pos : Position) (ids more : List Nat) (id : Nat) :
    a.placeIn pos (ids ++ more) id =
      (a.placeIn pos ids id).or (a.placeIn (pos.advance (a.textOf ids)) more id) := by
  induction ids generalizing pos with
  | nil => simp [placeIn, Position.advance]
  | cons first rest ih =>
    rw [List.cons_append, placeIn, placeIn]
    split
    · rfl
    · rw [ih, textOf_cons, Position.advance_append]

/-- The tokens of a run got their places, and nothing else changed. -/
def PlacedRun (a : Arena) (pos : Position) (ids : List Nat) (b b' : Arena) : Prop :=
  ∀ id, b'.get? id = (b.get? id).map fun t =>
    { t with extent := (a.placeIn pos ids id).getD t.extent }

theorem placedRun_nil (a : Arena) (pos : Position) (b : Arena) : a.PlacedRun pos [] b b := by
  intro id
  cases b.get? id <;> rfl

/-- Two runs without a common token make one. -/
theorem PlacedRun.append {ids more : List Nat} {b'' : Arena} (h : a.PlacedRun pos ids b b')
    (hmore : a.PlacedRun (pos.advance (a.textOf ids)) more b' b'') (hdisjoint : ids.Disjoint more) :
    a.PlacedRun pos (ids ++ more) b b'' := by
  intro id
  rw [hmore id, h id, Option.map_map, placeIn_append]
  refine Option.map_congr fun token _ => ?_
  by_cases hmem : id ∈ ids
  · have hnot : id ∉ more := fun hmem' => hdisjoint hmem hmem'
    simp [placeIn_of_notMem hnot]
  · simp [placeIn_of_notMem hmem]

/-- A leaf gets its place. -/
theorem placedRun_leaf {text : String} (htext : (a.tree id).text = text) :
    a.PlacedRun pos [id] b (b.setExtent id ⟨pos, pos.advance text⟩) := by
  intro other
  rw [setExtent, get?_update, placeIn]
  split
  · rename_i heq
    simp [heq, htext]
  · cases b.get? other <;> rfl

/-- A node gets its place after the tokens below it. -/
theorem PlacedRun.withNode {ids : List Nat} (h : a.PlacedRun pos ids b b')
    (htext : a.text? node = none) (hnot : node ∉ ids) :
    a.PlacedRun pos (node :: ids) b
      (b'.setExtent node ⟨pos, pos.advance (a.tree node).text⟩) := by
  intro other
  rw [setExtent, get?_update, h other, placeIn, htext]
  split
  · rename_i heq
    simp [heq, placeIn_of_notMem hnot]
  · simp [Position.advance]

/-! ### The loop -/

/-- Arenas with the same forms and the same texts. -/
def SameText (a b : Arena) : Prop :=
  ∀ id, b.form id = a.form id ∧ b.text? id = a.text? id

/-- Placing tokens leaves forms and texts. -/
theorem PlacedRun.sameText {ids : List Nat} (h : a.PlacedRun pos ids b b') (hb : SameText a b) :
    SameText a b' := by
  intro id
  have hform : b'.form id = b.form id := by
    rw [form, form, h id]
    cases b.get? id <;> rfl
  have htext : b'.text? id = b.text? id := by
    rw [text?, text?, h id]
    cases b.get? id <;> rfl
  rw [hform, htext]
  exact hb id

/-- Placing tokens allocates none. -/
theorem PlacedRun.size_eq {ids : List Nat} (h : a.PlacedRun pos ids a b) :
    b.size = a.size := by
  have hnone (id : Nat) : b.size ≤ id ↔ a.size ≤ id := by
    have hid : b.get? id = none ↔ a.get? id = none := by rw [h id, Option.map_eq_none_iff]
    rwa [get?, get?, Array.getElem?_eq_none_iff, Array.getElem?_eq_none_iff] at hid
  exact Nat.le_antisymm ((hnone _).2 (Nat.le_refl _)) ((hnone _).1 (Nat.le_refl _))

/-- Placing tokens leaves the parents. -/
theorem PlacedRun.parent?_eq {ids : List Nat} (h : a.PlacedRun pos ids a b) (id : Nat) :
    b.parent? id = a.parent? id := by
  rw [parent?, parent?, h id]
  cases a.get? id <;> rfl

/-- Placing tokens keeps an arena well formed. -/
theorem PlacedRun.wellFormed {ids : List Nat} (h : a.PlacedRun pos ids a b) (ha : a.WellFormed) :
    b.WellFormed := by
  refine ha.congr h.parent?_eq (fun id => (h.sameText (fun _ => ⟨rfl, rfl⟩) id).1) fun id => ?_
  rw [nodeKind?, nodeKind?, kind?, kind?, h id]
  cases a.get? id <;> rfl

/-- A leaf has nothing below it. -/
theorem preorder_of_text? (hlinked : a.Linked) (hacyclic : a.Acyclic) {text : String}
    (htext : a.text? id = some text) : a.preorder id = [id] ∧ (a.tree id).text = text := by
  obtain ⟨token, htoken, hbody⟩ := Option.bind_eq_some_iff.1 htext
  have hid : id < a.size := by
    by_contra hge
    rw [get?, Array.getElem?_eq_none (Nat.le_of_not_lt hge)] at htoken
    cases htoken
  have hchildren : a.children id = [] := by
    rw [children, form, htoken]
    unfold Token.text? at hbody
    unfold Token.form
    split at hbody
    · rename_i heq
      simp [heq]
    · cases hbody
  have hpreorder : a.preorder id = [id] := by
    rw [preorder_eq hlinked hacyclic hid, hchildren, List.flatMap_nil]
  refine ⟨hpreorder, ?_⟩
  simp [text_tree, hpreorder, htext]

/-- Some steps place the tokens of a run, two steps for each token but for some to spare, and leave
the stack of frames as one that goes on behind the run. -/
def Places (a b : Arena) (pos : Position) (ids : List Nat) (spare : Nat)
    (frames rest : List PlaceFrame) : Prop :=
  ∃ b' used, a.PlacedRun pos ids b b' ∧ used + spare ≤ 2 * ids.length ∧
    ∀ fuel, placeFrames (used + fuel) b pos frames =
      placeFrames fuel b' (pos.advance (a.textOf ids)) rest

/-- A run may be followed by another one. -/
theorem Places.append {ids more : List Nat} {spare : Nat} {frames next rest : List PlaceFrame}
    (h : a.Places b pos ids spare frames next) (hb : SameText a b)
    (hmore : ∀ b', SameText a b' → a.Places b' (pos.advance (a.textOf ids)) more 0 next rest)
    (hdisjoint : ids.Disjoint more) : a.Places b pos (ids ++ more) spare frames rest := by
  obtain ⟨b', used, hrun, hused, hsteps⟩ := h
  obtain ⟨b'', used', hrun', hused', hsteps'⟩ := hmore b' (hrun.sameText hb)
  refine ⟨b'', used + used', hrun.append hrun' hdisjoint, ?_, fun fuel => ?_⟩
  · rw [List.length_append]
    omega
  · rw [Nat.add_assoc, hsteps, hsteps', textOf_append, Position.advance_append]

/-- The next child of a node is placed, if placing a node takes it off the stack. -/
theorem places_child (hlinked : a.Linked) (hacyclic : a.Acyclic) {child placed : Nat} {role : Role}
    (hentry : (a.form node)[placed]? = some (role, child)) (around : List PlaceFrame)
    (hchild : a.text? child = none → ∀ around,
      a.Places b pos (a.preorder child) 1 ({ node := child, start := pos } :: around) around)
    (hb : SameText a b) :
    a.Places b pos (a.preorder child) 0 ({ node, placed, start } :: around)
      ({ node, placed := placed + 1, start } :: around) := by
  have hform : (b.form node)[placed]? = some (role, child) := by rw [(hb node).1, hentry]
  have htext := (hb child).2
  cases hleaf : a.text? child with
  | some text =>
    obtain ⟨hpreorder, htree⟩ := preorder_of_text? hlinked hacyclic hleaf
    rw [hleaf] at htext
    rw [hpreorder]
    refine ⟨_, 1, placedRun_leaf htree, by simp, fun fuel => ?_⟩
    rw [Nat.add_comm, placeFrames]
    simp [hform, htext, hleaf]
  | none =>
    rw [hleaf] at htext
    obtain ⟨b', used, hrun, hused, hsteps⟩ :=
      hchild hleaf ({ node, placed := placed + 1, start } :: around)
    refine ⟨b', used + 1, hrun, hused, fun fuel => ?_⟩
    rw [Nat.add_right_comm, placeFrames, ← hsteps]
    simp [hform, htext]

/-- The children of a node that are left are placed, if placing a node takes it off the stack. -/
theorem places_children (hlinked : a.Linked) (hacyclic : a.Acyclic) (hnode : node < a.size)
    (around : List PlaceFrame)
    (hchildren : ∀ child ∈ a.children node, a.text? child = none → ∀ b, SameText a b →
      ∀ pos around,
        a.Places b pos (a.preorder child) 1 ({ node := child, start := pos } :: around) around)
    {done rest : List (Role × Nat)} (hform : a.form node = done ++ rest) (hb : SameText a b) :
    a.Places b pos ((rest.map Prod.snd).flatMap a.preorder) 0
      ({ node, placed := done.length, start } :: around)
      ({ node, placed := (a.form node).length, start } :: around) := by
  induction rest generalizing done b pos with
  | nil =>
    rw [hform, List.append_nil]
    exact ⟨b, 0, placedRun_nil a pos b, by simp, fun fuel => by simp [Position.advance]⟩
  | cons entry rest ih =>
    obtain ⟨role, child⟩ := entry
    have hentry : (a.form node)[done.length]? = some (role, child) := by simp [hform]
    have hmem : child ∈ a.children node := by simp [children, hform]
    have hfirst : a.Places b pos (a.preorder child) 0
        ({ node, placed := done.length, start } :: around)
        ({ node, placed := done.length + 1, start } :: around) :=
      places_child hlinked hacyclic hentry around
        (fun hleaf around => hchildren child hmem hleaf b hb pos around) hb
    have hmore (b' : Arena) (hb' : SameText a b') :
        a.Places b' (pos.advance (a.textOf (a.preorder child)))
          ((rest.map Prod.snd).flatMap a.preorder) 0
          ({ node, placed := (done ++ [(role, child)]).length, start } :: around)
          ({ node, placed := (a.form node).length, start } :: around) :=
      ih (by simpa using hform) hb'
    rw [List.map_cons, List.flatMap_cons]
    refine hfirst.append hb (by simpa using hmore) ?_
    -- the children have nothing below them in common
    have hnodup := nodup_preorder hlinked hacyclic hnode
    rw [preorder_eq hlinked hacyclic hnode, children, hform, List.map_append, List.flatMap_append,
      List.map_cons, List.flatMap_cons] at hnodup
    exact List.disjoint_of_nodup_append (List.nodup_append.1 (List.nodup_cons.1 hnodup).2).2.1

/-- Placing a node takes its frame off the stack. -/
theorem places_node (hlinked : a.Linked) (hacyclic : a.Acyclic) (hnode : node < a.size)
    (htext : a.text? node = none) (hb : SameText a b) (pos : Position) (around : List PlaceFrame) :
    a.Places b pos (a.preorder node) 1 ({ node, start := pos } :: around) around := by
  refine below_induction hlinked hacyclic (P := fun node => a.text? node = none → ∀ b, SameText a b →
    ∀ pos around, a.Places b pos (a.preorder node) 1 ({ node, start := pos } :: around) around)
    (fun node hnode ih htext b hb pos around => ?_) hnode htext b hb pos around
  have hplaces : a.Places b pos ((a.children node).flatMap a.preorder) 0
      ({ node, placed := 0, start := pos } :: around)
      ({ node, placed := (a.form node).length, start := pos } :: around) :=
    places_children hlinked hacyclic hnode around ih (List.nil_append _).symm hb
  obtain ⟨b', used, hrun, hused, hsteps⟩ := hplaces
  have hpreorder := preorder_eq hlinked hacyclic hnode
  have hnot : node ∉ (a.children node).flatMap a.preorder :=
    (List.nodup_cons.1 (hpreorder ▸ nodup_preorder hlinked hacyclic hnode)).1
  have hlast : (b'.form node)[(a.form node).length]? = none := by
    rw [(hrun.sameText hb node).1]
    exact List.getElem?_eq_none (Nat.le_refl _)
  have hstop : pos.advance (a.tree node).text =
      pos.advance (a.textOf ((a.children node).flatMap a.preorder)) := by
    simp [text_tree, hpreorder, htext]
  refine ⟨_, used + 1, hpreorder ▸ hrun.withNode htext hnot, ?_, fun fuel => ?_⟩
  · rw [hpreorder, List.length_cons]
    change used + 0 ≤ 2 * ((a.children node).flatMap a.preorder).length at hused
    omega
  · rw [Nat.add_assoc]
    refine (hsteps (1 + fuel)).trans ?_
    rw [Nat.add_comm 1 fuel, placeFrames, hlast, ← text_tree, hstop]

/-- Placing a token places the run of the tokens below it. -/
theorem place_run (hlinked : a.Linked) (hacyclic : a.Acyclic) (htop : top < a.size)
    (base : Position) :
    a.PlacedRun base (a.preorder top) a (a.place top base).1 ∧
      (a.place top base).2 = base.advance (a.tree top).text := by
  rw [place]
  cases htext : a.text? top with
  | some text =>
    obtain ⟨hpreorder, htree⟩ := preorder_of_text? hlinked hacyclic htext
    rw [hpreorder, htree]
    exact ⟨placedRun_leaf htree, rfl⟩
  | none =>
    obtain ⟨b', used, hrun, hused, hsteps⟩ :=
      places_node hlinked hacyclic htop htext (fun _ => ⟨rfl, rfl⟩) base []
    have hle := length_preorder_le hlinked hacyclic htop
    have hend : placeFrames (2 * a.size) a base [{ node := top, start := base }] =
        (b', base.advance (a.tree top).text) := by
      have hrest := hsteps (2 * a.size - used)
      rw [Nat.add_sub_cancel' (by omega)] at hrest
      rw [hrest, text_tree]
      cases 2 * a.size - used <;> rfl
    simp only [hend, and_true]
    exact hrun

/-- Placing a token gives each token below it the position after the text of all leaves before it
and, after its own text, the position where it ends, told from the text as a whole: offsets are sums
of bytes, lines are counted by line feeds, and columns count characters from the last line feed. The
position that is returned is the end of the topmost token, and nothing else in the arena changes. -/
theorem place_eq_sums (hlinked : a.Linked) (hacyclic : a.Acyclic) (htop : top < a.size)
    (base : Position) :
    (∀ id, ReflTransGen a.IsParent top id →
      (a.place top base).1.get? id = (a.get? id).map fun t =>
        { t with
          extent := ⟨base.beyond (a.textBefore top id),
            (base.beyond (a.textBefore top id)).beyond (a.tree id).text⟩ }) ∧
    (∀ id, ¬ ReflTransGen a.IsParent top id → (a.place top base).1.get? id = a.get? id) ∧
    (a.place top base).2 = ((a.place top base).1.extent top).stop ∧
    (a.place top base).2 = base.beyond (a.tree top).text := by
  obtain ⟨hrun, hstop⟩ := place_run hlinked hacyclic htop base
  have hbelow (id : Nat) : id ∈ a.preorder top ↔ ReflTransGen a.IsParent top id :=
    mem_preorder_iff hlinked hacyclic htop
  have hplaced (id : Nat) (hid : ReflTransGen a.IsParent top id) :
      (a.place top base).1.get? id = (a.get? id).map fun t =>
        { t with
          extent := ⟨base.beyond (a.textBefore top id),
            (base.beyond (a.textBefore top id)).beyond (a.tree id).text⟩ } := by
    rw [hrun id, placeIn_of_mem ((hbelow id).2 hid)]
    simp only [← Position.advance_eq_beyond, textBefore, Option.getD_some]
  refine ⟨hplaced, fun id hid => ?_, ?_, ?_⟩
  · rw [hrun id, placeIn_of_notMem (fun hmem => hid ((hbelow id).1 hmem))]
    cases a.get? id <;> rfl
  · have hbefore : a.textBefore top top = "" := by
      rw [textBefore, preorder_eq hlinked hacyclic htop]
      simp
    obtain ⟨token, htoken⟩ : ∃ token, a.get? top = some token :=
      ⟨_, Array.getElem?_eq_getElem htop⟩
    rw [extent, hplaced top .refl, hbefore, htoken, hstop]
    simp [← Position.advance_eq_beyond, Position.advance]
  · rw [hstop, Position.advance_eq_beyond]

/-- A list of statements with a blank, a line break and a comment. -/
def commentedList : Arena :=
  (((blankList.perform .newLine).1.perform (.push 0 2 .extra)).1.perform
    (.allocLeaf .comment "# é")).1.perform (.push 0 3 .extra) |>.1

theorem reachable_commentedList : Reachable commentedList :=
  (((reachable_blankList.perform .newLine (by decide)).perform (.push 0 2 .extra)
    (by decide)).perform (.allocLeaf .comment "# é") (by decide)).perform (.push 0 3 .extra)
    (by decide)

theorem place_eq_sums_commentedList :
    ((commentedList.place 0 ⟨5, 1, 3⟩).1.get? 3 = (commentedList.get? 3).map fun t =>
      { t with extent := ⟨⟨7, 2, 0⟩, ⟨11, 2, 3⟩⟩ }) ∧
    (commentedList.place 0 ⟨5, 1, 3⟩).2 = ⟨11, 2, 3⟩ := by
  have hwell := reachable_commentedList.wellFormed
  obtain ⟨hplaced, _, _, hstop⟩ :=
    place_eq_sums hwell.linked hwell.acyclic (by decide : 0 < commentedList.size) ⟨5, 1, 3⟩
  rw [hplaced 3 (.single rfl), hstop]
  decide

end Arena

end ScriptTree
