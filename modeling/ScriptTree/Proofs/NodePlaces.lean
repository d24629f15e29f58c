import ScriptTree.Proofs.Splices

/-!
# Places of nodes

Which items can be read again depends on where the nodes of a tree stand, not on where its leaves
do. Nor does it depend on where the lists begin whose items stand at level zero, and the nodes around
them. When a run takes the place of another, the nodes stay where the text puts them, even if a run
without text is given some at the beginning of such a list.
-/

namespace ScriptTree.Tree

mutual

/-- Every node of the tree stores the place that counting from `start` gives. A node that may have
items at level zero inside it, which is what `outer` says, has to store its end only. -/
def NodesPlacedFrom (outer : Bool) (start : Position) : Tree → Prop
  | .leaf _ _ _ => True
  | .node kind form extent =>
    (outer = false → extent.start = start) ∧ extent.stop = start.advance (textOfForm form) ∧
      FormNodesPlacedFrom (outer && kind == .file) start form

/-- Every node of the children stores the place that counting from `start` gives. -/
def FormNodesPlacedFrom (outer : Bool) (start : Position) : List Entry → Prop
  | [] => True
  | (_, t) :: rest =>
    t.NodesPlacedFrom outer start ∧ FormNodesPlacedFrom outer (start.advance t.text) rest

end

variable {outer : Bool} {start : Position} {t : Tree} {form : List Entry}

@[simp]
theorem nodesPlacedFrom_leaf {kind : LeafKind} {s : String} {extent : Extent} :
    (Tree.leaf kind s extent).NodesPlacedFrom outer start := by
  simp [NodesPlacedFrom]

@[simp]
theorem nodesPlacedFrom_node {kind : NodeKind} {extent : Extent} :
    (Tree.node kind form extent).NodesPlacedFrom outer start ↔
      (outer = false → extent.start = start) ∧ extent.stop = start.advance (textOfForm form) ∧
        FormNodesPlacedFrom (outer && kind == .file) start form := by
  simp [NodesPlacedFrom]

@[simp]
theorem formNodesPlacedFrom_nil : FormNodesPlacedFrom outer start [] := by
  simp [FormNodesPlacedFrom]

@[simp]
theorem formNodesPlacedFrom_cons {role : Role} {rest : List Entry} :
    FormNodesPlacedFrom outer start ((role, t) :: rest) ↔
      t.NodesPlacedFrom outer start ∧ FormNodesPlacedFrom outer (start.advance t.text) rest := by
  simp [FormNodesPlacedFrom]

@[simp]
theorem formNodesPlacedFrom_append {xs ys : List Entry} :
    FormNodesPlacedFrom outer start (xs ++ ys) ↔
      FormNodesPlacedFrom outer start xs ∧
        FormNodesPlacedFrom outer (start.advance (textOfForm xs)) ys := by
  induction xs generalizing start with
  | nil => simp
  | cons entry rest ih =>
    obtain ⟨role, t⟩ := entry
    simp [ih, and_assoc]

mutual

/-- The nodes of a tree that knows its place know theirs. -/
theorem PlacedFrom.nodesPlacedFrom (outer : Bool) {start : Position} (t : Tree)
    (h : t.PlacedFrom start) : t.NodesPlacedFrom outer start := by
  match t with
  | .leaf kind s extent => exact nodesPlacedFrom_leaf
  | .node kind form extent =>
    rw [placedFrom_node] at h
    obtain ⟨hform, rfl⟩ := h
    exact nodesPlacedFrom_node.2
      ⟨fun _ => rfl, rfl, FormPlacedFrom.formNodesPlacedFrom _ form hform⟩

/-- The nodes of children that know their places know theirs. -/
theorem FormPlacedFrom.formNodesPlacedFrom (outer : Bool) {start : Position} (form : List Entry)
    (h : FormPlacedFrom start form) : FormNodesPlacedFrom outer start form := by
  match form with
  | [] => exact formNodesPlacedFrom_nil
  | (role, t) :: rest =>
    rw [formPlacedFrom_cons] at h
    exact formNodesPlacedFrom_cons.2 ⟨PlacedFrom.nodesPlacedFrom outer t h.1,
      FormPlacedFrom.formNodesPlacedFrom outer rest h.2⟩

end

/-- A node that knows its place begins and ends where its text does. -/
theorem NodesPlacedFrom.extent_eq (h : t.NodesPlacedFrom false start)
    (hnode : t.nodeKind?.isSome) : t.extent = ⟨start, start.advance t.text⟩ := by
  cases t with
  | leaf kind s extent => cases hnode
  | node kind form extent =>
    rw [nodesPlacedFrom_node] at h
    obtain ⟨hstart, hstop, -⟩ := h
    obtain ⟨begins, ends⟩ := extent
    obtain rfl : begins = start := hstart rfl
    obtain rfl : ends = begins.advance (textOfForm form) := hstop
    rw [text_node]
    rfl

/-- A child that is a node, among children whose nodes know their places, begins and ends where its
text does. -/
theorem FormNodesPlacedFrom.extent_eq (h : FormNodesPlacedFrom false start form) {index : Nat}
    {role : Role} (hget : form[index]? = some (role, t)) (hnode : t.nodeKind?.isSome) :
    t.extent = ⟨start.advance (textOfForm (form.take index)),
      start.advance (textOfForm (form.take (index + 1)))⟩ := by
  obtain ⟨hindex, hentry⟩ := List.getElem?_eq_some_iff.1 hget
  have hform : form.take index ++ (role, t) :: form.drop (index + 1) = form := by
    rw [← hentry, ← List.drop_eq_getElem_cons hindex, List.take_append_drop]
  have hnext : form.take (index + 1) = form.take index ++ [(role, t)] := by
    rw [List.take_add_one, hget]
    rfl
  rw [← hform, formNodesPlacedFrom_append, formNodesPlacedFrom_cons] at h
  rw [h.2.1.extent_eq hnode, hnext, textOfForm_append, textOfForm_cons, textOfForm_nil,
    String.append_empty, Position.advance_append]

/-! ### Moving and replacing -/

variable {old new : Position}

mutual

/-- A tree moves to where its text moves to. -/
theorem NodesPlacedFrom.shift {outer : Bool} {start start' : Position} (t : Tree)
    (h : t.NodesPlacedFrom outer start)
    (hmoves : ∀ s rest, s ++ rest = t.text → (start.advance s).shift old new = start'.advance s) :
    (t.shift old new).NodesPlacedFrom outer start' := by
  match t with
  | .leaf kind s extent =>
    rw [Tree.shift]
    exact nodesPlacedFrom_leaf
  | .node kind form extent =>
    rw [text_node] at hmoves
    obtain ⟨hstart, hstop, hform⟩ := nodesPlacedFrom_node.1 h
    have hbegin := hmoves "" (textOfForm form) (by simp)
    have hend := hmoves (textOfForm form) "" (by simp)
    rw [Position.advance_empty, Position.advance_empty] at hbegin
    rw [Tree.shift]
    refine nodesPlacedFrom_node.2
      ⟨fun houter => ?_, ?_, FormNodesPlacedFrom.shiftForm form hform hmoves⟩
    · rw [Extent.shift, hstart houter, hbegin]
    · rw [Extent.shift, hstop, hend, textOfForm_shiftForm]

/-- Children move to where their text moves to. -/
theorem FormNodesPlacedFrom.shiftForm {outer : Bool} {start start' : Position} (form : List Entry)
    (h : FormNodesPlacedFrom outer start form)
    (hmoves : ∀ s rest, s ++ rest = textOfForm form →
      (start.advance s).shift old new = start'.advance s) :
    FormNodesPlacedFrom outer start' (shiftForm old new form) := by
  match form with
  | [] =>
    rw [Tree.shiftForm]
    exact formNodesPlacedFrom_nil
  | (role, t) :: more =>
    rw [formNodesPlacedFrom_cons] at h
    rw [textOfForm_cons] at hmoves
    rw [Tree.shiftForm, formNodesPlacedFrom_cons, text_shift]
    constructor
    · refine NodesPlacedFrom.shift t h.1 fun s rest hs => hmoves s (rest ++ textOfForm more) ?_
      rw [← String.append_assoc, hs]
    · refine FormNodesPlacedFrom.shiftForm more h.2 fun s rest hs => ?_
      rw [← Position.advance_append, ← Position.advance_append]
      exact hmoves _ rest (by rw [String.append_assoc, hs])

end

/-- Children stay that end where nothing moves. -/
theorem FormNodesPlacedFrom.shiftForm_front {base : Position}
    (h : FormNodesPlacedFrom outer start form) (rest : String)
    (hstay : ∀ (p : Position) (s : String), p.advance s = base → p.shift old new = p)
    (hbase : start.advance (textOfForm form ++ rest) = base) :
    FormNodesPlacedFrom outer start (Tree.shiftForm old new form) := by
  refine h.shiftForm form fun s more hs => hstay _ (more ++ rest) ?_
  rw [← Position.advance_append, ← String.append_assoc, hs, hbase]

/-- Children behind a text that changed move with it. -/
theorem FormNodesPlacedFrom.shiftForm_back {s : String} (new : Position)
    (h : FormNodesPlacedFrom outer (old.advance s) form) :
    FormNodesPlacedFrom outer (new.advance s) (Tree.shiftForm old new form) := by
  refine h.shiftForm form fun more rest _ => ?_
  rw [← Position.advance_append, ← Position.advance_append, Position.shift_advance]

end ScriptTree.Tree

namespace ScriptTree.Reparse

open ScriptTree.Tree

variable {first count : Nat} {path : List Nat} {t : Tree} {front back : String}
  {run newRun : List Entry} {start base : Position} {outer : Bool}

theorem isFile_nodeKind (block : BlockKind) : (block.nodeKind == .file) = false := by
  cases block <;> rfl

/-- When a run takes the place of one with text, or neither has any, every node stands where the
text puts it. -/
theorem RunAt.nodesPlacedFrom_replaceRun (h : RunAt first count path t front run back)
    (hplaced : t.NodesPlacedFrom outer start) (hbase : start.advance front = base)
    (hnew : FormNodesPlacedFrom false base newRun)
    (hfill : textOfForm run = "" → textOfForm newRun = "") (hlength : newRun.length = count) :
    (Reparse.replaceRun (base.advance (textOfForm run)) (base.advance (textOfForm newRun)) first
      count newRun path t).NodesPlacedFrom outer start := by
  have hstay (p : Position) (s : String) (hp : p.advance s = base) :=
    shift_eq_of_advance hfill hp
  induction path generalizing t start front back outer with
  | nil =>
    obtain ⟨block, extent, before, after, rfl, hfirst, hcount, rfl, rfl⟩ := h
    rw [nodesPlacedFrom_node, isFile_nodeKind, Bool.and_false, formNodesPlacedFrom_append,
      formNodesPlacedFrom_append, textOfForm_append, textOfForm_append, Position.advance_append,
      Position.advance_append, hbase] at hplaced
    obtain ⟨hstart, hstop, ⟨hbefore, _⟩, hafter⟩ := hplaced
    have hbefore' := hbefore.shiftForm_front "" hstay (by simpa using hbase)
    have hafter' : FormNodesPlacedFrom false (base.advance (textOfForm newRun))
        (shiftForm (base.advance (textOfForm run)) (base.advance (textOfForm newRun)) after) := by
      have hafter : FormNodesPlacedFrom false ((base.advance (textOfForm run)).advance "") after :=
        by simpa using hafter
      simpa using hafter.shiftForm_back (base.advance (textOfForm newRun))
    rw [replaceRun_list hfirst hcount, nodesPlacedFrom_node, isFile_nodeKind, Bool.and_false,
      formNodesPlacedFrom_append, formNodesPlacedFrom_append]
    simp only [textOfForm_append, Position.advance_append, hbase, textOfForm_shiftForm]
    refine ⟨fun houter => ?_, ?_, ⟨hbefore', hnew⟩, hafter'⟩
    · rw [Extent.shift, hstart houter, hstay _ _ hbase]
    · rw [Extent.shift, hstop, Position.shift_advance]
  | cons index path ih =>
    obtain ⟨kind, extent, before, role, child, after, innerFront, innerBack, rfl, hindex, hchild,
      rfl, rfl⟩ := h
    have hinner := hchild.text_eq
    have hinner' := (hchild.replaceRun (base.advance (textOfForm run))
      (base.advance (textOfForm newRun)) hlength).text_eq
    have hwhole := hbase
    rw [Position.advance_append] at hbase
    rw [nodesPlacedFrom_node, formNodesPlacedFrom_append, formNodesPlacedFrom_cons,
      textOfForm_append, textOfForm_cons, hinner] at hplaced
    simp only [Position.advance_append, hbase] at hplaced
    obtain ⟨hstart, hstop, hbefore, hplaced, hafter⟩ := hplaced
    have hbefore' := hbefore.shiftForm_front innerFront hstay hwhole
    have hafter' := hafter.shiftForm_back (base.advance (textOfForm newRun))
    have hreplaced := ih hchild hplaced hbase
    rw [replaceRun_child hindex, nodesPlacedFrom_node, formNodesPlacedFrom_append,
      formNodesPlacedFrom_cons, textOfForm_append, textOfForm_cons, hinner']
    simp only [Position.advance_append, hbase, textOfForm_shiftForm]
    refine ⟨fun houter => ?_, ?_, hbefore', hreplaced, hafter'⟩
    · rw [Extent.shift, hstart houter, hstay _ _ hwhole]
    · rw [Extent.shift, hstop, ← Position.advance_append _ innerBack, Position.shift_advance,
        Position.advance_append]

/-- Nodes that begin with a replaced run at level zero need not store where they begin. So the run
may as well be given text where it had none. -/
theorem RunAt.nodesPlacedFrom_replaceRun_outermost (h : RunAt 0 count path t front run back)
    (hpath : path = [] ∨ path = [0] ∧ t.nodeKind? = some .file)
    (hplaced : t.NodesPlacedFrom true start) (hbase : start.advance front = base)
    (hnew : FormNodesPlacedFrom false base newRun) (hlength : newRun.length = count) :
    (Reparse.replaceRun (base.advance (textOfForm run)) (base.advance (textOfForm newRun)) 0
      count newRun path t).NodesPlacedFrom true start := by
  have hlist {t : Tree} {front back : String} (h : RunAt 0 count [] t front run back)
      (hplaced : t.NodesPlacedFrom true start) (hbase : start.advance front = base) :
      (Reparse.replaceRun (base.advance (textOfForm run)) (base.advance (textOfForm newRun)) 0
        count newRun [] t).NodesPlacedFrom true start := by
    obtain ⟨block, extent, before, after, rfl, hfirst, hcount, rfl, rfl⟩ := h
    obtain rfl := List.length_eq_zero_iff.1 hfirst
    obtain rfl : start = base := by simpa using hbase
    rw [nodesPlacedFrom_node, isFile_nodeKind, Bool.and_false, List.nil_append,
      formNodesPlacedFrom_append, textOfForm_append, Position.advance_append] at hplaced
    obtain ⟨-, hstop, -, hafter⟩ := hplaced
    have hafter' : FormNodesPlacedFrom false (start.advance (textOfForm newRun))
        (shiftForm (start.advance (textOfForm run)) (start.advance (textOfForm newRun)) after) := by
      have hafter : FormNodesPlacedFrom false ((start.advance (textOfForm run)).advance "") after :=
        by simpa using hafter
      simpa using hafter.shiftForm_back (start.advance (textOfForm newRun))
    rw [replaceRun_list hfirst hcount, nodesPlacedFrom_node, isFile_nodeKind, Bool.and_false,
      shiftForm, List.nil_append, formNodesPlacedFrom_append]
    simp only [textOfForm_append, Position.advance_append, textOfForm_shiftForm]
    refine ⟨nofun, ?_, hnew, hafter'⟩
    rw [Extent.shift, hstop, Position.shift_advance]
  rcases hpath with rfl | ⟨rfl, hfile⟩
  · exact hlist h hplaced hbase
  · obtain ⟨kind, extent, before, role, child, after, innerFront, innerBack, rfl, hindex, hchild,
      rfl, rfl⟩ := h
    obtain rfl := List.length_eq_zero_iff.1 hindex
    obtain rfl : kind = .file := Option.some.inj hfile
    have hinner := hchild.text_eq
    have hinner' := (hchild.replaceRun (base.advance (textOfForm run))
      (base.advance (textOfForm newRun)) hlength).text_eq
    rw [textOfForm_nil, String.empty_append] at hbase
    rw [nodesPlacedFrom_node, List.nil_append, formNodesPlacedFrom_cons, textOfForm_cons,
      hinner] at hplaced
    simp only [Position.advance_append, hbase] at hplaced
    obtain ⟨-, hstop, hplaced, hafter⟩ := hplaced
    have hafter' := hafter.shiftForm_back (base.advance (textOfForm newRun))
    have hreplaced := hlist hchild hplaced hbase
    rw [replaceRun_child hindex, nodesPlacedFrom_node, shiftForm, List.nil_append,
      formNodesPlacedFrom_cons, textOfForm_cons, hinner']
    simp only [Position.advance_append, hbase, textOfForm_shiftForm]
    refine ⟨nofun, ?_, hreplaced, hafter'⟩
    rw [Extent.shift, hstop, ← Position.advance_append _ innerBack, Position.shift_advance,
      Position.advance_append]

end ScriptTree.Reparse
