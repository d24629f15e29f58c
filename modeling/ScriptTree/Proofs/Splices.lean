import ScriptTree.Proofs.Places

/-!
# Putting a run in place of another

A run of entries is found at the end of a way into a tree, with text in front of it and behind it.
When another run takes its place, the text around it stays, runs that end before it stay, and all
tokens keep knowing their places, unless the run had no text and is given some: then the tokens
that end or begin there move as if they stood behind it.
-/

namespace ScriptTree.Reparse

open ScriptTree.Tree

/-- A run of `count` entries from `first` on, in the line-oriented list at the end of a way into a
tree, with the text in front of the run and behind it. -/
def RunAt (first count : Nat) : List Nat → Tree → String → List Entry → String → Prop
  | [], t, front, run, back =>
    ∃ (block : BlockKind) (extent : Extent) (before after : List Entry),
      t = .node block.nodeKind (before ++ run ++ after) extent ∧ before.length = first ∧
      run.length = count ∧ front = textOfForm before ∧ back = textOfForm after
  | index :: path, t, front, run, back =>
    ∃ kind extent before role child after innerFront innerBack,
      t = .node kind (before ++ (role, child) :: after) extent ∧ before.length = index ∧
      RunAt first count path child innerFront run innerBack ∧
      front = textOfForm before ++ innerFront ∧ back = innerBack ++ textOfForm after

variable {first count first' count' : Nat} {path path' : List Nat} {t : Tree}
  {front back front' back' : String} {run newRun run' : List Entry} {start old new : Position}

/-- The text of a tree, split at a run. -/
theorem RunAt.text_eq (h : RunAt first count path t front run back) :
    t.text = front ++ textOfForm run ++ back := by
  induction path generalizing t front back with
  | nil =>
    obtain ⟨kind, extent, before, after, rfl, _, _, rfl, rfl⟩ := h
    simp [String.append_assoc]
  | cons index path ih =>
    obtain ⟨kind, extent, before, role, child, after, innerFront, innerBack, rfl, _, hchild, rfl,
      rfl⟩ := h
    simp [ih hchild, String.append_assoc]

/-- A run on the way through a child is a run of the child. -/
theorem RunAt.in_child {kind : NodeKind} {extent : Extent} {before after : List Entry} {role : Role}
    {child : Tree}
    (h : RunAt first count (before.length :: path) (.node kind (before ++ (role, child) :: after)
      extent) front run back) :
    ∃ innerFront innerBack, RunAt first count path child innerFront run innerBack ∧
      front = textOfForm before ++ innerFront ∧ back = innerBack ++ textOfForm after := by
  obtain ⟨_, _, before', role', child', after', innerFront, innerBack, hnode, hlength, hchild,
    rfl, rfl⟩ := h
  simp only [node.injEq] at hnode
  obtain ⟨rfl, hrest⟩ := List.append_inj hnode.2.1 hlength.symm
  obtain ⟨hentry, rfl⟩ := List.cons.inj hrest
  obtain ⟨rfl, rfl⟩ := Prod.mk.inj hentry
  exact ⟨innerFront, innerBack, hchild, rfl, rfl⟩

/-- A run has as many entries as it says. -/
theorem RunAt.length_eq (h : RunAt first count path t front run back) : run.length = count := by
  induction path generalizing t front back with
  | nil =>
    obtain ⟨_, _, _, _, _, _, hcount, _⟩ := h
    exact hcount
  | cons index path ih =>
    obtain ⟨_, _, _, _, _, _, _, _, _, _, hchild, _⟩ := h
    exact ih hchild

/-! ### What becomes of a tree -/

/-- Moving children is moving each of them. -/
theorem shiftForm_eq_map (old new : Position) (form : List Entry) :
    shiftForm old new form = form.map fun entry => (entry.1, entry.2.shift old new) := by
  induction form with
  | nil => simp [shiftForm]
  | cons entry rest ih =>
    obtain ⟨role, t⟩ := entry
    simp [shiftForm, ih]

@[simp]
theorem length_shiftForm (old new : Position) (form : List Entry) :
    (shiftForm old new form).length = form.length := by
  rw [shiftForm_eq_map, List.length_map]

/-- Moving a tree leaves its kind. -/
@[simp]
theorem nodeKind?_shift (old new : Position) (t : Tree) :
    (t.shift old new).nodeKind? = t.nodeKind? := by
  cases t <;> simp [Tree.shift, Tree.nodeKind?, Tree.kind]

/-- Putting a run in the place of another leaves the kind of the root. -/
theorem nodeKind?_replaceRun (old new : Position) (first count : Nat) (run : List Entry)
    (path : List Nat) (t : Tree) :
    (replaceRun old new first count run path t).nodeKind? = t.nodeKind? := by
  cases t with
  | leaf kind s extent => simp [replaceRun, Tree.nodeKind?, Tree.kind]
  | node kind form extent => cases path <;> simp [replaceRun, Tree.nodeKind?, Tree.kind]

/-- A run is replaced in the list that holds it. -/
theorem replaceRun_list {kind : NodeKind} {extent : Extent} {before after : List Entry}
    (hfirst : before.length = first) (hcount : run.length = count) :
    replaceRun old new first count newRun [] (.node kind (before ++ run ++ after) extent) =
      .node kind (shiftForm old new before ++ newRun ++ shiftForm old new after)
        (extent.shift old new) := by
  have htake : (before ++ run ++ after).take first = before := by
    rw [List.append_assoc, List.take_left' hfirst]
  have hdrop : (before ++ run ++ after).drop (first + count) = after := by
    rw [List.drop_left' (by rw [List.length_append, hfirst, hcount])]
  rw [replaceRun, htake, hdrop]

/-- A run is replaced in the child that holds it. -/
theorem replaceRun_child {kind : NodeKind} {extent : Extent} {role : Role} {index : Nat}
    {before after : List Entry} (hindex : before.length = index) :
    replaceRun old new first count newRun (index :: path)
        (.node kind (before ++ (role, t) :: after) extent) =
      .node kind
        (shiftForm old new before
          ++ (role, replaceRun old new first count newRun path t) :: shiftForm old new after)
        (extent.shift old new) := by
  subst hindex
  have hbefore (f : Entry → Entry) :
      (before.mapIdx fun i entry =>
        if i = before.length then f entry else (entry.1, entry.2.shift old new)) =
        shiftForm old new before := by
    rw [shiftForm_eq_map]
    refine List.ext_getElem (by simp) fun i hi _ => ?_
    have hne : i ≠ before.length := by
      simp only [List.length_mapIdx] at hi
      omega
    simp [hne]
  have hafter (f : Entry → Entry) :
      (after.mapIdx fun i entry =>
        if i + 1 + before.length = before.length then f entry
        else (entry.1, entry.2.shift old new)) = shiftForm old new after := by
    rw [shiftForm_eq_map]
    exact List.ext_getElem (by simp) fun i hi _ => by simp
  simp only [replaceRun, List.mapIdx_append, List.mapIdx_cons, Nat.zero_add, if_true]
  rw [hbefore, hafter]

/-- The new run stands where the old one stood. -/
theorem RunAt.replaceRun (old new : Position) (h : RunAt first count path t front run back)
    (hlength : newRun.length = count) :
    RunAt first count path (replaceRun old new first count newRun path t) front newRun back := by
  induction path generalizing t front back with
  | nil =>
    obtain ⟨kind, extent, before, after, rfl, hfirst, hcount, rfl, rfl⟩ := h
    refine ⟨kind, extent.shift old new, shiftForm old new before, shiftForm old new after,
      replaceRun_list hfirst hcount, ?_, hlength, ?_, ?_⟩
    · rw [length_shiftForm, hfirst]
    · rw [textOfForm_shiftForm]
    · rw [textOfForm_shiftForm]
  | cons index path ih =>
    obtain ⟨kind, extent, before, role, child, after, innerFront, innerBack, rfl, hindex, hchild,
      rfl, rfl⟩ := h
    refine ⟨kind, extent.shift old new, shiftForm old new before, role, _,
      shiftForm old new after, innerFront, innerBack, replaceRun_child hindex, ?_, ih hchild, ?_,
      ?_⟩
    · rw [length_shiftForm, hindex]
    · rw [textOfForm_shiftForm]
    · rw [textOfForm_shiftForm]

/-- A run in a tree that moves moves with it. -/
theorem RunAt.shift (old new : Position) (h : RunAt first count path t front run back) :
    RunAt first count path (t.shift old new) front (shiftForm old new run) back := by
  induction path generalizing t front back with
  | nil =>
    obtain ⟨kind, extent, before, after, rfl, hfirst, hcount, rfl, rfl⟩ := h
    refine ⟨kind, extent.shift old new, shiftForm old new before, shiftForm old new after,
      by simp [Tree.shift], ?_, ?_, ?_, ?_⟩
    · rw [length_shiftForm, hfirst]
    · rw [length_shiftForm, hcount]
    · rw [textOfForm_shiftForm]
    · rw [textOfForm_shiftForm]
  | cons index path ih =>
    obtain ⟨kind, extent, before, role, child, after, innerFront, innerBack, rfl, hindex, hchild,
      rfl, rfl⟩ := h
    refine ⟨kind, extent.shift old new, shiftForm old new before, role, _,
      shiftForm old new after, innerFront, innerBack, by simp [Tree.shift, shiftForm], ?_,
      ih hchild, ?_, ?_⟩
    · rw [length_shiftForm, hindex]
    · rw [textOfForm_shiftForm]
    · rw [textOfForm_shiftForm]

/-- The longer of two beginnings of a form goes on where the shorter one ends. -/
theorem exists_of_length_le {xs ys zs ws : List Entry} (h : xs ++ ys = zs ++ ws)
    (hle : xs.length ≤ zs.length) : ∃ more, zs = xs ++ more ∧ ys = more ++ ws := by
  rcases List.append_eq_append_iff.1 h with hmore | ⟨more, hxs, hws⟩
  · exact hmore
  · have hnil : more = [] := by
      rw [hxs, List.length_append] at hle
      exact List.length_eq_zero_iff.1 (by omega)
    subst hnil
    exact ⟨[], by simpa using hxs.symm, by simpa using hws.symm⟩

/-- The number of children of a node that a run inside it reaches into. -/
def reach (first count : Nat) : List Nat → Nat
  | [] => first + count
  | index :: _ => index + 1

/-- Whether a run comes before another one, by the ways to both: it ends before the entry in which
the other one lies. -/
def Precedes (first' count' : Nat) (path' : List Nat) (first : Nat) : List Nat → Prop
  | [] => reach first' count' path' ≤ first
  | index :: path =>
    reach first' count' path' ≤ index ∨
      ∃ rest, path' = index :: rest ∧ Precedes first' count' rest first path

/-- The text in front of a run holds that of the children in front of it. -/
theorem RunAt.text_le_front {kind : NodeKind} {extent : Extent} {xs ys : List Entry} {index : Nat}
    (h : RunAt first count (index :: path) (.node kind (xs ++ ys) extent) front run back)
    (hle : xs.length ≤ index) : (textOfForm xs).utf8ByteSize ≤ front.utf8ByteSize := by
  obtain ⟨_, _, before, role, child, after, innerFront, innerBack, hnode, hindex, hchild, rfl,
    rfl⟩ := h
  simp only [node.injEq] at hnode
  obtain ⟨more, rfl, _⟩ := exists_of_length_le hnode.2.1 (by omega)
  simp only [textOfForm_append, String.utf8ByteSize_append]
  omega

/-- A run that begins and ends before another one comes before it, unless both share entries. -/
theorem RunAt.precedes (h : RunAt first count path t front run back)
    (h' : RunAt first' count' path' t front' run' back')
    (hstart : front'.utf8ByteSize < front.utf8ByteSize)
    (hstop : (front' ++ textOfForm run').utf8ByteSize < (front ++ textOfForm run).utf8ByteSize)
    (hapart : path' = path → first' + count' ≤ first) :
    Precedes first' count' path' first path := by
  induction path generalizing t front back path' front' back' with
  | nil =>
    cases path' with
    | nil => exact hapart rfl
    | cons index' path' =>
      obtain ⟨kind, extent, before, after, rfl, hfirst, hcount, rfl, rfl⟩ := h
      rw [List.append_assoc] at h'
      have hlt : ¬ before.length ≤ index' := fun hle => by
        have htext := h'.text_le_front hle
        omega
      rw [Precedes, reach]
      omega
  | cons index path ih =>
    obtain ⟨kind, extent, before, role, child, after, innerFront, innerBack, rfl, rfl, hchild, rfl,
      rfl⟩ := h
    have hinner := congrArg String.utf8ByteSize hchild.text_eq
    simp only [String.utf8ByteSize_append] at hinner
    have hform : before ++ (role, child) :: after = before ++ [(role, child)] ++ after := by simp
    rw [Precedes]
    cases path' with
    | nil =>
      left
      obtain ⟨_, _, before', after', hnode, hfirst', hcount', rfl, rfl⟩ := h'
      simp only [node.injEq] at hnode
      have hlt : ¬ (before ++ [(role, child)]).length ≤ (before' ++ run').length := fun hle => by
        obtain ⟨more, hmore, _⟩ := exists_of_length_le (hform ▸ hnode.2.1) hle
        rw [← textOfForm_append, hmore] at hstop
        simp only [String.utf8ByteSize_append, textOfForm_append, textOfForm_cons] at hstop
        omega
      simp only [List.length_append, List.length_singleton] at hlt
      rw [reach]
      omega
    | cons index' path' =>
      have hlt : ¬ (before ++ [(role, child)]).length ≤ index' := fun hle => by
        have htext := (hform ▸ h').text_le_front hle
        simp only [textOfForm_append, textOfForm_cons, String.utf8ByteSize_append] at htext hstart
        omega
      simp only [List.length_append, List.length_singleton] at hlt
      by_cases hless : index' < before.length
      · exact .inl hless
      obtain rfl : index' = before.length := by omega
      obtain ⟨innerFront', innerBack', hchild', rfl, rfl⟩ := h'.in_child
      simp only [String.utf8ByteSize_append] at hstart hstop
      refine .inr ⟨path', rfl, ih hchild hchild' (by omega) ?_
        (fun heq => hapart (congrArg (before.length :: ·) heq))⟩
      simp only [String.utf8ByteSize_append]
      omega

/-- The end of a run is where an empty run stands. -/
theorem RunAt.at_stop (h : RunAt first count path t front run back) :
    RunAt (first + count) 0 path t (front ++ textOfForm run) [] back := by
  induction path generalizing t front back with
  | nil =>
    obtain ⟨kind, extent, before, after, rfl, hfirst, hcount, rfl, rfl⟩ := h
    exact ⟨kind, extent, before ++ run, after, by simp, by simp [hfirst, hcount], rfl,
      by simp, rfl⟩
  | cons index path ih =>
    obtain ⟨kind, extent, before, role, child, after, innerFront, innerBack, rfl, hindex, hchild,
      rfl, rfl⟩ := h
    exact ⟨kind, extent, before, role, child, after, _, innerBack, rfl, hindex, ih hchild,
      String.append_assoc, rfl⟩

/-- Of two runs in one list, the one that begins first has less text in front of it. -/
theorem RunAt.front_le (h : RunAt first count path t front run back)
    (h' : RunAt first' count' path t front' run' back') (hle : first ≤ first') :
    front.utf8ByteSize ≤ front'.utf8ByteSize := by
  induction path generalizing t front back front' back' with
  | nil =>
    obtain ⟨kind, extent, before, after, rfl, hfirst, _, rfl, rfl⟩ := h
    obtain ⟨_, _, before', after', hnode, hfirst', _, rfl, rfl⟩ := h'
    simp only [node.injEq] at hnode
    rw [List.append_assoc before, List.append_assoc before'] at hnode
    obtain ⟨more, rfl, _⟩ := exists_of_length_le hnode.2.1 (by omega)
    rw [textOfForm_append, String.utf8ByteSize_append]
    omega
  | cons index path ih =>
    obtain ⟨kind, extent, before, role, child, after, innerFront, innerBack, rfl, rfl, hchild, rfl,
      rfl⟩ := h
    obtain ⟨innerFront', innerBack', hchild', rfl, rfl⟩ := h'.in_child
    have hinner := ih hchild hchild'
    simp only [String.utf8ByteSize_append]
    omega

/-- A run that reaches into the first children only is a run of a node with just these. -/
theorem RunAt.of_reach {kind : NodeKind} {extent : Extent} {xs ys : List Entry}
    (h : RunAt first count path (.node kind (xs ++ ys) extent) front run back)
    (hreach : reach first count path ≤ xs.length) :
    ∃ back', RunAt first count path (.node kind xs extent) front run back' := by
  cases path with
  | nil =>
    obtain ⟨block, _, before, after, hnode, hfirst, hcount, rfl, rfl⟩ := h
    simp only [node.injEq] at hnode
    obtain ⟨rfl, hform, -⟩ := hnode
    rw [reach] at hreach
    obtain ⟨more, rfl, _⟩ := exists_of_length_le hform.symm
      (by rw [List.length_append]; omega)
    exact ⟨_, block, extent, before, more, rfl, hfirst, hcount, rfl, rfl⟩
  | cons index path =>
    obtain ⟨_, _, before, role, child, after, innerFront, innerBack, hnode, hindex, hchild, rfl,
      rfl⟩ := h
    simp only [node.injEq] at hnode
    rw [reach] at hreach
    have hform : (before ++ [(role, child)]) ++ after = xs ++ ys := by
      rw [List.append_assoc, List.singleton_append, hnode.2.1]
    obtain ⟨more, rfl, _⟩ := exists_of_length_le hform
      (by rw [List.length_append, List.length_singleton]; omega)
    exact ⟨_, kind, extent, before, role, child, more, innerFront, innerBack, by simp, hindex,
      hchild, rfl, rfl⟩

/-- A run of a node stays one when more children are put behind those of the node. -/
theorem RunAt.append {kind : NodeKind} {extent : Extent} {xs : List Entry}
    (h : RunAt first count path (.node kind xs extent) front run back) (ys : List Entry)
    (extent' : Extent) :
    RunAt first count path (.node kind (xs ++ ys) extent') front run (back ++ textOfForm ys) := by
  cases path with
  | nil =>
    obtain ⟨block, _, before, after, hnode, hfirst, hcount, rfl, rfl⟩ := h
    simp only [node.injEq] at hnode
    obtain ⟨rfl, rfl, -⟩ := hnode
    exact ⟨block, extent', before, after ++ ys, by simp, hfirst, hcount, rfl,
      (textOfForm_append _ _).symm⟩
  | cons index path =>
    obtain ⟨_, _, before, role, child, after, innerFront, innerBack, hnode, hindex, hchild, rfl,
      rfl⟩ := h
    simp only [node.injEq] at hnode
    obtain ⟨rfl, rfl, -⟩ := hnode
    exact ⟨kind, extent', before, role, child, after ++ ys, innerFront, innerBack, by simp, hindex,
      hchild, rfl, by rw [textOfForm_append, String.append_assoc]⟩

/-- The text up to the end of a run among the first children is no longer than theirs. -/
theorem RunAt.stop_le_of_reach {kind : NodeKind} {extent : Extent} {xs ys : List Entry}
    (h : RunAt first count path (.node kind (xs ++ ys) extent) front run back)
    (hreach : reach first count path ≤ xs.length) :
    (front ++ textOfForm run).utf8ByteSize ≤ (textOfForm xs).utf8ByteSize := by
  obtain ⟨back', hfront⟩ := h.of_reach hreach
  have htext : textOfForm xs = front ++ textOfForm run ++ back' := hfront.text_eq
  rw [htext, String.utf8ByteSize_append (s := front ++ textOfForm run)]
  omega

/-- A run that comes before another one ends before it begins. -/
theorem RunAt.stop_le (h : RunAt first count path t front run back)
    (h' : RunAt first' count' path' t front' run' back')
    (hprecedes : Precedes first' count' path' first path) :
    (front' ++ textOfForm run').utf8ByteSize ≤ front.utf8ByteSize := by
  induction path generalizing t front back path' front' back' with
  | nil =>
    obtain ⟨kind, extent, before, after, rfl, hfirst, hcount, rfl, rfl⟩ := h
    rw [List.append_assoc] at h'
    exact h'.stop_le_of_reach (hfirst ▸ hprecedes)
  | cons index path ih =>
    obtain ⟨kind, extent, before, role, child, after, innerFront, innerBack, rfl, rfl, hchild, rfl,
      rfl⟩ := h
    rw [String.utf8ByteSize_append (s := textOfForm before)]
    rcases hprecedes with hreach | ⟨rest, rfl, hprecedes⟩
    · have hle := h'.stop_le_of_reach hreach
      omega
    · obtain ⟨innerFront', innerBack', hchild', rfl, rfl⟩ := h'.in_child
      have hle := ih hchild hchild' hprecedes
      simp only [String.utf8ByteSize_append] at hle ⊢
      omega

/-- A run among the first children stays there, whatever becomes of the others. -/
theorem RunAt.shift_front {kind : NodeKind} {extent extent' : Extent}
    {xs ys : List Entry} (h : RunAt first count path (.node kind (xs ++ ys) extent) front run back)
    (hreach : reach first count path ≤ xs.length) (ys' : List Entry) :
    ∃ back', RunAt first count path (.node kind (shiftForm old new xs ++ ys') extent') front
      (shiftForm old new run) back' := by
  obtain ⟨_, hfront⟩ := h.of_reach hreach
  have hshift := hfront.shift old new
  rw [Tree.shift] at hshift
  exact ⟨_, hshift.append ys' extent'⟩

/-- A run that comes before another one stays where it is when the other one is replaced. -/
theorem RunAt.frame (old new : Position) (newRun : List Entry)
    (h : RunAt first count path t front run back)
    (h' : RunAt first' count' path' t front' run' back')
    (hprecedes : Precedes first' count' path' first path) :
    ∃ back'', RunAt first' count' path' (Reparse.replaceRun old new first count newRun path t)
      front' (shiftForm old new run') back'' := by
  induction path generalizing t front back path' front' back' with
  | nil =>
    obtain ⟨kind, extent, before, after, rfl, hfirst, hcount, rfl, rfl⟩ := h
    rw [replaceRun_list hfirst hcount, List.append_assoc]
    rw [List.append_assoc] at h'
    exact h'.shift_front (hfirst ▸ hprecedes) _
  | cons index path ih =>
    obtain ⟨kind, extent, before, role, child, after, innerFront, innerBack, rfl, rfl, hchild, rfl,
      rfl⟩ := h
    rw [replaceRun_child rfl]
    rcases hprecedes with hreach | ⟨rest, rfl, hprecedes⟩
    · exact h'.shift_front hreach _
    · obtain ⟨innerFront', innerBack', hchild', rfl, rfl⟩ := h'.in_child
      obtain ⟨back'', hframe⟩ := ih hchild hchild' hprecedes
      exact ⟨_, kind, extent.shift old new, shiftForm old new before, role, _, _, innerFront',
        back'', rfl, length_shiftForm _ _ _, hframe, by rw [textOfForm_shiftForm], rfl⟩

/-- The children behind those that a replaced run reaches into move. -/
theorem RunAt.replaceRun_of_reach {kind : NodeKind} {extent : Extent} {xs ys : List Entry}
    (old new : Position)
    (h : RunAt first count path (.node kind (xs ++ ys) extent) front run back)
    (hreach : reach first count path ≤ xs.length) (hlength : newRun.length = count) :
    ∃ xs', xs'.length = xs.length ∧
      Reparse.replaceRun old new first count newRun path (.node kind (xs ++ ys) extent) =
        .node kind (xs' ++ shiftForm old new ys) (extent.shift old new) := by
  obtain ⟨_, hfront⟩ := h.of_reach hreach
  cases path with
  | nil =>
    obtain ⟨block, _, before, more, hnode, hfirst, hcount, _, _⟩ := hfront
    simp only [node.injEq] at hnode
    obtain ⟨rfl, rfl, -⟩ := hnode
    refine ⟨shiftForm old new before ++ newRun ++ shiftForm old new more, ?_, ?_⟩
    · simp only [List.length_append, length_shiftForm]
      omega
    · rw [List.append_assoc (before ++ run), replaceRun_list hfirst hcount, shiftForm_append]
      simp only [List.append_assoc]
  | cons index path =>
    obtain ⟨_, _, before, role, child, more, _, _, hnode, hindex, _⟩ := hfront
    simp only [node.injEq] at hnode
    obtain ⟨rfl, rfl, -⟩ := hnode
    refine ⟨shiftForm old new before
      ++ (role, Reparse.replaceRun old new first count newRun path child)
        :: shiftForm old new more, ?_, ?_⟩
    · simp only [List.length_append, List.length_cons, length_shiftForm]
    · rw [List.append_assoc, List.cons_append, replaceRun_child hindex, shiftForm_append]
      simp only [List.append_assoc, List.cons_append]

/-- A run behind another one moves when as many entries take the place of the other one. -/
theorem RunAt.moved (old new : Position) (h : RunAt first count path t front run back)
    (h' : RunAt first' count' path' t front' run' back')
    (hprecedes : Precedes first' count' path' first path) (hlength : newRun.length = count') :
    ∃ front'', RunAt first count path
      (Reparse.replaceRun old new first' count' newRun path' t) front'' (shiftForm old new run)
        back := by
  induction path generalizing t front back path' front' back' with
  | nil =>
    obtain ⟨block, extent, before, after, rfl, hfirst, hcount, rfl, rfl⟩ := h
    rw [List.append_assoc] at h' ⊢
    obtain ⟨before', hbefore, hreplaced⟩ :=
      h'.replaceRun_of_reach old new (hfirst ▸ hprecedes) hlength
    refine ⟨_, block, extent.shift old new, before', shiftForm old new after, ?_, ?_, ?_, rfl, ?_⟩
    · rw [hreplaced, shiftForm_append, List.append_assoc]
    · rw [hbefore, hfirst]
    · rw [length_shiftForm, hcount]
    · rw [textOfForm_shiftForm]
  | cons index path ih =>
    obtain ⟨kind, extent, before, role, child, after, innerFront, innerBack, rfl, rfl, hchild, rfl,
      rfl⟩ := h
    rcases hprecedes with hreach | ⟨rest, rfl, hprecedes⟩
    · obtain ⟨before', hbefore, hreplaced⟩ :=
        h'.replaceRun_of_reach old new hreach hlength
      exact ⟨_, kind, extent.shift old new, before', role, child.shift old new,
        shiftForm old new after, innerFront, innerBack, by rw [hreplaced, shiftForm],
        hbefore, hchild.shift old new, rfl, by rw [textOfForm_shiftForm]⟩
    · obtain ⟨innerFront', innerBack', hchild', rfl, rfl⟩ := h'.in_child
      obtain ⟨front'', hmoved⟩ := ih hchild hchild' hprecedes
      exact ⟨_, kind, extent.shift old new, shiftForm old new before, role, _,
        shiftForm old new after, front'', innerBack, replaceRun_child rfl,
        length_shiftForm _ _ _, hmoved, rfl, by rw [textOfForm_shiftForm]⟩

/-! ### Places -/

/-- What ends where a run begins stays, unless the run has no text and is given some. -/
theorem shift_eq_of_advance {base p : Position} {oldText newText rest : String}
    (hfill : oldText = "" → newText = "") (hp : p.advance rest = base) :
    p.shift (base.advance oldText) (base.advance newText) = p := by
  by_cases hempty : oldText = ""
  · rw [hempty, hfill hempty, Position.shift_self]
  · refine Position.shift_of_lt _ ?_
    have hsize : oldText.utf8ByteSize ≠ 0 := fun h =>
      hempty (String.utf8ByteSize_eq_zero_iff.1 h)
    have hle := Position.offset_advance p rest
    rw [hp] at hle
    rw [Position.offset_advance]
    omega

/-- When a run takes the place of one with text, or neither has any, every token knows its place
again. -/
theorem RunAt.placedFrom_replaceRun {base : Position}
    (h : RunAt first count path t front run back) (hplaced : t.PlacedFrom start)
    (hbase : start.advance front = base) (hnew : FormPlacedFrom base newRun)
    (hfill : textOfForm run = "" → textOfForm newRun = "") (hlength : newRun.length = count) :
    (Reparse.replaceRun (base.advance (textOfForm run)) (base.advance (textOfForm newRun)) first
      count newRun path t).PlacedFrom start := by
  have hstay (p : Position) (s : String) (hp : p.advance s = base) :=
    shift_eq_of_advance hfill hp
  induction path generalizing t start front back with
  | nil =>
    obtain ⟨kind, extent, before, after, rfl, hfirst, hcount, rfl, rfl⟩ := h
    rw [placedFrom_node, formPlacedFrom_append, formPlacedFrom_append, textOfForm_append,
      textOfForm_append, Position.advance_append, Position.advance_append, hbase] at hplaced
    obtain ⟨⟨⟨hbefore, _⟩, hafter⟩, rfl⟩ := hplaced
    have hstopped := hbefore.shiftForm_eq hstay before "" (by simpa using hbase)
    have hmoved : FormPlacedFrom (base.advance (textOfForm newRun))
        (shiftForm (base.advance (textOfForm run)) (base.advance (textOfForm newRun)) after) := by
      have hafter' : FormPlacedFrom ((base.advance (textOfForm run)).advance "") after := by
        simpa using hafter
      simpa using FormPlacedFrom.shiftForm (base.advance (textOfForm newRun)) after hafter'
    rw [replaceRun_list hfirst hcount, hstopped, placedFrom_node, formPlacedFrom_append,
      formPlacedFrom_append]
    simp only [textOfForm_append, Position.advance_append, hbase, textOfForm_shiftForm]
    refine ⟨⟨⟨hbefore, hnew⟩, hmoved⟩, ?_⟩
    rw [Extent.shift, hstay _ _ hbase, Position.shift_advance]
  | cons index path ih =>
    obtain ⟨kind, extent, before, role, child, after, innerFront, innerBack, rfl, hindex, hchild,
      rfl, rfl⟩ := h
    have hinner := hchild.text_eq
    have hinner' := (hchild.replaceRun (base.advance (textOfForm run))
      (base.advance (textOfForm newRun)) hlength).text_eq
    rw [Position.advance_append] at hbase
    rw [placedFrom_node, formPlacedFrom_append, formPlacedFrom_cons, textOfForm_append,
      textOfForm_cons, hinner] at hplaced
    simp only [Position.advance_append, hbase] at hplaced
    obtain ⟨⟨hbefore, hplaced, hafter⟩, rfl⟩ := hplaced
    have hstopped := hbefore.shiftForm_eq hstay before innerFront
      (by rw [Position.advance_append, hbase])
    have hmoved := FormPlacedFrom.shiftForm (base.advance (textOfForm newRun)) after hafter
    have hreplaced := ih hchild hplaced hbase
    rw [replaceRun_child hindex, hstopped, placedFrom_node, formPlacedFrom_append,
      formPlacedFrom_cons, textOfForm_append, textOfForm_cons, hinner']
    simp only [Position.advance_append, hbase, textOfForm_shiftForm]
    refine ⟨⟨hbefore, hreplaced, hmoved⟩, ?_⟩
    have hstart : start.shift (base.advance (textOfForm run)) (base.advance (textOfForm newRun)) =
        start := hstay start (textOfForm before ++ innerFront)
          (by rw [Position.advance_append, hbase])
    rw [Extent.shift, hstart, ← Position.advance_append _ innerBack, Position.shift_advance,
      Position.advance_append]

/-- A run that is given text where it had none moves tokens too far that end or begin there. -/
theorem RunAt.isLate_replaceRun {base : Position}
    (h : RunAt first count path t front run back) (hplaced : t.PlacedFrom start)
    (hbase : start.advance front = base) (hlt : base.offset < new.offset) :
    (Reparse.replaceRun base new first count newRun path t).IsLate base.offset start.offset := by
  induction path generalizing t start front back with
  | nil =>
    obtain ⟨kind, extent, before, after, rfl, hfirst, hcount, rfl, rfl⟩ := h
    rw [placedFrom_node, formPlacedFrom_append, formPlacedFrom_append] at hplaced
    obtain ⟨⟨⟨hbefore, _⟩, _⟩, rfl⟩ := hplaced
    rw [replaceRun_list hfirst hcount, isLate_node]
    rcases List.eq_nil_or_concat before with rfl | ⟨init, ⟨role, last⟩, rfl⟩
    · obtain rfl : start = base := by simpa using hbase
      refine .inl (.inl ⟨Nat.le_refl _, ?_⟩)
      rw [Extent.shift, Position.offset_shift new (Nat.le_refl _)]
      omega
    · rw [List.concat_eq_append] at hbefore hbase ⊢
      rw [formPlacedFrom_append, formPlacedFrom_cons] at hbefore
      rw [textOfForm_append, Position.advance_append, textOfForm_cons, textOfForm_nil,
        String.append_empty] at hbase
      have hlate := hbefore.2.1.isLate_shift hbase hlt
      rw [Position.offset_advance] at hlate
      right
      rw [shiftForm_append, List.append_assoc, List.append_assoc, formIsLate_append,
        textOfForm_shiftForm, shiftForm, List.cons_append, formIsLate_cons]
      exact .inr (.inl hlate)
  | cons index path ih =>
    obtain ⟨kind, extent, before, role, child, after, innerFront, innerBack, rfl, hindex, hchild,
      rfl, rfl⟩ := h
    rw [placedFrom_node, formPlacedFrom_append, formPlacedFrom_cons] at hplaced
    rw [Position.advance_append] at hbase
    have hlate := ih hchild hplaced.1.2.1 hbase
    rw [Position.offset_advance] at hlate
    rw [replaceRun_child hindex, isLate_node, formIsLate_append, formIsLate_cons,
      textOfForm_shiftForm]
    exact .inr (.inr (.inl hlate))

/-- A token that is late behind a run stays late when another run takes its place. -/
theorem RunAt.isLate_replaceRun_of_isLate {bound bound' offset : Nat}
    (h : RunAt first count path t front run back) (hlate : t.IsLate bound offset)
    (hlt : offset + (front ++ textOfForm run).utf8ByteSize < bound)
    (hold : old.offset = offset + (front ++ textOfForm run).utf8ByteSize)
    (hnew : new.offset = offset + (front ++ textOfForm newRun).utf8ByteSize)
    (hbound : bound' + old.offset ≤ bound + new.offset) (hlength : newRun.length = count) :
    (Reparse.replaceRun old new first count newRun path t).IsLate bound' offset := by
  induction path generalizing t front back offset with
  | nil =>
    obtain ⟨kind, extent, before, after, rfl, hfirst, hcount, rfl, rfl⟩ := h
    simp only [String.utf8ByteSize_append] at hlt hold hnew
    rw [isLate_node, formIsLate_append, formIsLate_append] at hlate
    rw [replaceRun_list hfirst hcount, isLate_node, formIsLate_append]
    simp only [textOfForm_append, textOfForm_shiftForm, String.utf8ByteSize_append] at hlate ⊢
    rcases hlate with hlate | (hlate | hlate) | hlate
    · exact .inl (hlate.shift_stop (by omega) (by omega) (by omega) (by omega))
    · have hle := FormIsLate.bound_le _ hlate
      omega
    · have hle := FormIsLate.bound_le _ hlate
      omega
    · right
      right
      rw [← hold] at hlate
      rw [← hnew]
      exact FormIsLate.shiftForm (d := 0) hbound after hlate
  | cons index path ih =>
    obtain ⟨kind, extent, before, role, child, after, innerFront, innerBack, rfl, hindex, hchild,
      rfl, rfl⟩ := h
    have hinner := hchild.text_eq
    have hinner' := (hchild.replaceRun old new hlength).text_eq
    simp only [String.utf8ByteSize_append] at hlt hold hnew
    rw [isLate_node, formIsLate_append, formIsLate_cons] at hlate
    rw [replaceRun_child hindex, isLate_node, formIsLate_append, formIsLate_cons]
    simp only [textOfForm_append, textOfForm_cons, textOfForm_shiftForm, hinner, hinner',
      String.utf8ByteSize_append] at hlate ⊢
    rcases hlate with hlate | hlate | hlate | hlate
    · exact .inl (hlate.shift_stop (by omega) (by omega) (by omega) (by omega))
    · have hle := FormIsLate.bound_le _ hlate
      omega
    · refine .inr (.inr (.inl (ih hchild hlate ?_ ?_ ?_)))
      · rw [String.utf8ByteSize_append]
        omega
      · rw [String.utf8ByteSize_append]
        omega
      · rw [String.utf8ByteSize_append]
        omega
    · right
      right
      right
      have hstop : offset + (textOfForm before).utf8ByteSize
          + (innerFront.utf8ByteSize + (textOfForm run).utf8ByteSize + innerBack.utf8ByteSize) =
          old.offset + innerBack.utf8ByteSize := by
        omega
      have hstop' : offset + (textOfForm before).utf8ByteSize
          + (innerFront.utf8ByteSize + (textOfForm newRun).utf8ByteSize + innerBack.utf8ByteSize) =
          new.offset + innerBack.utf8ByteSize := by
        omega
      rw [hstop] at hlate
      rw [hstop']
      exact FormIsLate.shiftForm hbound after hlate

end ScriptTree.Reparse
