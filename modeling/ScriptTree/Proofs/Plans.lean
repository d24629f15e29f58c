import ScriptTree.Proofs.Edits
import ScriptTree.Proofs.NodePlaces
import ScriptTree.Reparse.Plan

/-!
# Plans cover the edits

A candidate stands for a run of a tree whose nodes know their places: it begins and ends where its
text does, and lines share entries only when one is part of the other. A plan splits edits into
groups, in order, and every item that may take up a group holds all its edits.
-/

namespace ScriptTree.Reparse

open ScriptTree.Tree

variable {config : Config} {start stop : Nat} {t : Tree} {p : Position} {c : Candidate}
  {outer : Bool}

/-! ### Lines -/

/-- How many entries there are before an item on its line does not depend on blanks after them. -/
theorem runLength_blanks (b b' : Nat) (entries : List Entry) :
    (runLength b entries = 0 ∧ runLength b' entries = 0) ∨
      ∃ n, runLength b entries = b + n ∧ runLength b' entries = b' + n := by
  induction entries generalizing b b' with
  | nil => exact .inl ⟨rfl, rfl⟩
  | cons entry rest ih =>
    simp only [runLength]
    split
    · rcases ih (b + 1) (b' + 1) with hzero | ⟨n, h, h'⟩
      · exact .inl hzero
      · exact .inr ⟨n + 1, by omega, by omega⟩
    · split
      · exact .inr ⟨1 + runLength 0 rest, by omega, by omega⟩
      · exact .inl ⟨rfl, rfl⟩

/-- A line begins no later than at each of its entries. -/
theorem runLength_drop_le (entries : List Entry) {k : Nat} (hk : k ≤ runLength 0 entries) :
    runLength 0 (entries.drop k) ≤ runLength 0 entries - k := by
  induction entries generalizing k with
  | nil => simp [runLength]
  | cons entry rest ih =>
    cases k with
    | zero => exact Nat.le_refl _
    | succ k =>
      rw [List.drop_succ_cons]
      rw [runLength] at hk ⊢
      split at hk
      · rename_i hspace
        rw [if_pos hspace]
        rcases runLength_blanks (0 + 1) 0 rest with ⟨hzero, _⟩ | ⟨n, hone, hnone⟩
        · omega
        · have hle := ih (k := k) (by omega)
          omega
      · rename_i hspace
        rw [if_neg hspace]
        split at hk
        · rename_i hopen
          rw [if_pos hopen]
          have hle := ih (k := k) (by omega)
          omega
        · omega

/-- A line has no more entries before an item than there are. -/
theorem runLength_le (b : Nat) (entries : List Entry) :
    runLength b entries ≤ b + entries.length := by
  induction entries generalizing b with
  | nil => exact Nat.zero_le _
  | cons entry rest ih =>
    rw [runLength, List.length_cons]
    split
    · have hle := ih (b + 1)
      omega
    · split
      · have hle := ih 0
        omega
      · exact Nat.zero_le _

/-- The entry with which a line begins before an item leaves the line open. -/
theorem exists_of_runLength (b : Nat) (entries : List Entry) :
    runLength b entries = 0 ∨ ∃ n entry, runLength b entries = b + n + 1 ∧
      entries[n]? = some entry ∧ leavesLineOpen entry = true := by
  induction entries generalizing b with
  | nil => exact .inl rfl
  | cons entry rest ih =>
    rw [runLength]
    split
    · rcases ih (b + 1) with hzero | ⟨n, opener, hlength, hget, hopen⟩
      · exact .inl hzero
      · exact .inr ⟨n + 1, opener, by omega, by simpa using hget, hopen⟩
    · split
      · rename_i hopen
        rcases ih 0 with hzero | ⟨n, opener, hlength, hget, hopener⟩
        · exact .inr ⟨0, entry, by omega, rfl, hopen⟩
        · exact .inr ⟨n + 1, opener, by omega, by simpa using hget, hopener⟩
      · exact .inl rfl

/-- A line with an item that is a node begins with a node. -/
theorem isSome_nodeKind?_opener {form : List Entry} {index : Nat} (hindex : index < form.length)
    (hnode : ∀ entry ∈ form[index]?, entry.2.nodeKind?.isSome) :
    ∀ entry ∈ form[index - runLength 0 (form.take index).reverse]?, entry.2.nodeKind?.isSome := by
  rcases exists_of_runLength 0 (form.take index).reverse with
    hzero | ⟨n, opener, hlength, hget, hopen⟩
  · rwa [hzero, Nat.sub_zero]
  · intro entry hentry
    rw [Option.mem_def] at hentry
    have hn : n < (form.take index).length := by
      have hsome := (List.getElem?_eq_some_iff.1 hget).1
      rwa [List.length_reverse] at hsome
    rw [List.getElem?_reverse hn, List.getElem?_take] at hget
    rw [List.length_take] at hn hget
    split at hget
    · rw [hlength, show index - (0 + n + 1) = min index form.length - 1 - n by omega, hget]
        at hentry
      obtain rfl := Option.some.inj hentry
      simp only [leavesLineOpen, Bool.and_eq_true, Bool.or_eq_true, beq_iff_eq] at hopen
      rcases hopen.2 with hkind | hkind <;> rw [hkind] <;> rfl
    · cases hget

/-! ### Candidates -/

/-- The list at the end of a way that leads through a child. -/
theorem listAt_child {kind : NodeKind} {extent : Extent} {role : Role} {path : List Nat}
    (before after : List Entry) :
    listAt (before.length :: path) (.node kind (before ++ (role, t) :: after) extent) =
      listAt path t := by
  simp [listAt, descend?, Tree.form]

/-- A run is found in the list at the end of its way. -/
theorem RunAt.listAt_eq {first count : Nat} {path : List Nat} {front back : String}
    {run : List Entry} (h : RunAt first count path t front run back) :
    ∃ before after, listAt path t = before ++ run ++ after ∧ before.length = first := by
  induction path generalizing t front back with
  | nil =>
    obtain ⟨kind, extent, before, after, rfl, hfirst, _⟩ := h
    exact ⟨before, after, rfl, hfirst⟩
  | cons index path ih =>
    obtain ⟨kind, extent, before, role, child, after, _, _, rfl, hindex, hchild, _⟩ := h
    obtain ⟨inner, more, hlist, hfirst⟩ := ih hchild
    refine ⟨inner, more, ?_, hfirst⟩
    rw [← hlist]
    simp [listAt, descend?, Tree.form, ← hindex]

/-- The run at the end of a candidate's way is the run that it stands for. -/
theorem RunAt.runIn_eq {front back : String} {run : List Entry}
    (h : RunAt c.first (c.last + 1 - c.first) c.path t front run back) : c.runIn t = run := by
  obtain ⟨before, after, hlist, hfirst⟩ := h.listAt_eq
  rw [Candidate.runIn, hlist, List.append_assoc, List.drop_left' hfirst,
    List.take_left' h.length_eq]

/-- A candidate fits a tree whose text begins at a position: its run is found at the end of a way,
with the given texts in front of it and in it, and its ends know their places. -/
def Candidate.FitsAt (c : Candidate) (p : Position) (path : List Nat) (t : Tree)
    (front text : String) : Prop :=
  ∃ run back, RunAt c.first (c.last + 1 - c.first) path t front run back ∧
    textOfForm run = text ∧
    (∃ opener ∈ run.head?, opener.2.extent.start = p.advance front) ∧
    ∃ item ∈ run.getLast?, item.2.extent.stop = p.advance (front ++ text)

/-- A candidate that fits a tree, with a span and a line that are right for it. -/
structure Candidate.StandsAt (c : Candidate) (p : Position) (path : List Nat) (t : Tree)
    (front text : String) : Prop where
  fits : c.FitsAt p path t front text
  span_eq : c.span = ⟨(p.advance front).offset, (p.advance (front ++ text)).offset⟩
  line_eq : c.first + runLength 0 ((listAt path t).take c.last).reverse = c.last

/-- A candidate in a child stands in the node around it. -/
theorem Candidate.StandsAt.child {path : List Nat} {front text : String} {kind : NodeKind}
    {extent : Extent} {role : Role} (before after : List Entry)
    (h : c.StandsAt (p.advance (textOfForm before)) path t front text) :
    c.StandsAt p (before.length :: path) (.node kind (before ++ (role, t) :: after) extent)
      (textOfForm before ++ front) text := by
  obtain ⟨⟨run, back, hrun, htext, hopener, hitem⟩, hspan, hline⟩ := h
  refine ⟨⟨run, _, ⟨kind, extent, before, role, t, after, front, back, rfl, rfl, hrun, rfl, rfl⟩,
    htext, ?_, ?_⟩, ?_, ?_⟩
  · simpa [Position.advance_append] using hopener
  · simpa [Position.advance_append, String.append_assoc] using hitem
  · simpa [Position.advance_append, String.append_assoc] using hspan
  · rw [listAt_child]
    exact hline

/-- The candidate at a place of a list stands there. -/
theorem candidate?_stands {s : Surroundings} {kind : NodeKind} {form : List Entry}
    {extent : Extent} {index : Nat} (h : candidate? config s kind form index = some c)
    (hplaced : (Tree.node kind form extent).NodesPlacedFrom outer p)
    (hnode : ∀ entry ∈ form[index]?, entry.2.nodeKind?.isSome) :
    c.path = s.steps.reverse ∧
      c.span.stop = (p.advance (textOfForm (form.take (index + 1)))).offset ∧
      ∃ front text, c.StandsAt p [] (.node kind form extent) front text := by
  simp only [candidate?, bind, Option.bind_eq_some_iff] at h
  obtain ⟨block, hblock, ⟨role, item⟩, hitem, ⟨openerRole, opener⟩, hopener, level, _, h⟩ := h
  split at h
  · obtain rfl := (Option.some.inj h).symm
    obtain rfl : kind = block.nodeKind := by cases kind <;> cases hblock <;> rfl
    obtain ⟨hindex, _⟩ := List.getElem?_eq_some_iff.1 hitem
    have hline := runLength_le 0 (form.take index).reverse
    rw [List.length_reverse, List.length_take, Nat.min_eq_left (Nat.le_of_lt hindex)] at hline
    have hopenerNode := isSome_nodeKind?_opener hindex hnode _ hopener
    have hitemNode := hnode _ hitem
    generalize hlength : runLength 0 (form.take index).reverse = length at *
    rw [nodesPlacedFrom_node, isFile_nodeKind, Bool.and_false] at hplaced
    have hfirst := hplaced.2.2.extent_eq hopener hopenerNode
    have hlast := hplaced.2.2.extent_eq hitem hitemNode
    have hcount : index + 1 - (index - length) = length + 1 := by omega
    have htake : form.take (index + 1) =
        form.take (index - length) ++ (form.drop (index - length)).take (length + 1) := by
      rw [← List.take_add, show index - length + (length + 1) = index + 1 by omega]
    have hform : form = form.take (index - length)
        ++ (form.drop (index - length)).take (length + 1) ++ form.drop (index + 1) := by
      rw [← htake, List.take_append_drop]
    refine ⟨rfl, congrArg (·.stop.offset) hlast, textOfForm (form.take (index - length)),
      textOfForm ((form.drop (index - length)).take (length + 1)),
      ⟨⟨_, textOfForm (form.drop (index + 1)), ?_, rfl, ?_, ?_⟩, ?_, ?_⟩⟩
    · refine ⟨block, extent, _, _, congrArg (Tree.node block.nodeKind · extent) hform, ?_, ?_, rfl,
        rfl⟩
      · rw [List.length_take, Nat.min_eq_left (by omega)]
      · rw [List.length_take, List.length_drop, hcount, Nat.min_eq_left (by omega)]
    · refine ⟨(openerRole, opener), ?_, congrArg Extent.start hfirst⟩
      rw [List.head?_take, List.head?_drop, hopener]
      rfl
    · refine ⟨(role, item), ?_, ?_⟩
      · rw [List.getLast?_take, if_neg (Nat.succ_ne_zero length), List.getElem?_drop,
          show index - length + (length + 1 - 1) = index by omega, hitem]
        rfl
      · rw [← textOfForm_append, ← htake]
        exact congrArg Extent.stop hlast
    · rw [← textOfForm_append, ← htake]
      simp only [Tree.span, Extent.span, hfirst, hlast]
    · show index - length + runLength 0 (form.take index).reverse = index
      rw [hlength]
      omega
  · cases h

/-- A candidate ends no later than the tree in which it stands. -/
theorem Candidate.StandsAt.stop_le {path : List Nat} {front text : String}
    (h : c.StandsAt p path t front text) : c.span.stop ≤ (p.advance t.text).offset := by
  obtain ⟨⟨run, back, hrun, htext, _⟩, hspan, _⟩ := h
  rw [hspan, hrun.text_eq, htext]
  simp only [Position.offset_advance, String.utf8ByteSize_append]
  omega

/-- A candidate found in a tree at some surroundings: it stands there, and it holds the range. -/
def Candidate.FoundAt (c : Candidate) (start stop : Nat) (p : Position) (s : Surroundings)
    (t : Tree) : Prop :=
  c.covers start stop ∧
    ∃ path front text, c.path = s.steps.reverse ++ path ∧ c.StandsAt p path t front text

mutual

/-- The candidates inside a tree stand there, hold the range, and end one after another. -/
theorem candidatesIn_found (config : Config) (start stop : Nat) (s : Surroundings)
    {outer : Bool} {p : Position} (t : Tree) (h : t.NodesPlacedFrom outer p) :
    (∀ c ∈ candidatesIn config start stop s t, c.FoundAt start stop p s t) ∧
      (candidatesIn config start stop s t).Pairwise fun a b => a.span.stop ≤ b.span.stop := by
  match t with
  | .leaf kind text extent => simp [candidatesIn]
  | .node kind form extent =>
    rw [candidatesIn]
    exact candidatesInForm_found config start stop s [] form h

/-- The candidates inside a node stand there, hold the range, and end one after another. -/
theorem candidatesInForm_found (config : Config) (start stop : Nat) (s : Surroundings)
    {outer : Bool} {p : Position} {kind : NodeKind} {extent : Extent} (before rest : List Entry)
    (h : (Tree.node kind (before ++ rest) extent).NodesPlacedFrom outer p) :
    (∀ c ∈ candidatesInForm config start stop s kind (before ++ rest) before.length rest,
      c.FoundAt start stop p s (.node kind (before ++ rest) extent)) ∧
      (candidatesInForm config start stop s kind (before ++ rest) before.length rest).Pairwise
        fun a b => a.span.stop ≤ b.span.stop := by
  match rest with
  | [] => simp [candidatesInForm]
  | (role, t) :: rest =>
    rw [candidatesInForm]
    split
    · rename_i henclosing
      have hnode : ∀ entry ∈ (before ++ (role, t) :: rest)[before.length]?,
          entry.2.nodeKind?.isSome := by
        simp [(Bool.and_eq_true_iff.1 henclosing).1]
      have hchild := (nodesPlacedFrom_node.1 h).2.2
      rw [formNodesPlacedFrom_append, formNodesPlacedFrom_cons] at hchild
      obtain ⟨hfound, hpairwise⟩ :=
        candidatesIn_found config start stop (s.child kind before.length) t hchild.2.1
      refine ⟨fun c hc => ?_, List.pairwise_append.2 ⟨hpairwise, ?_, fun a ha b hb => ?_⟩⟩
      · rcases List.mem_append.1 hc with hc | hc
        · obtain ⟨hcovers, path, front, text, hpath, hstands⟩ := hfound c hc
          refine ⟨hcovers, before.length :: path, _, text, ?_, hstands.child before rest⟩
          simpa [Surroundings.child] using hpath
        · obtain ⟨hcandidate, hcovers⟩ := Option.filter_eq_some_iff.1 (Option.mem_toList.1 hc)
          obtain ⟨hpath, _, front, text, hstands⟩ := candidate?_stands hcandidate h hnode
          exact ⟨hcovers, [], front, text, by simpa using hpath, hstands⟩
      · cases (candidate? config s kind (before ++ (role, t) :: rest) before.length).filter
          (·.covers start stop) with
        | none => exact List.Pairwise.nil
        | some c => exact List.pairwise_singleton _ c
      · obtain ⟨_, path, front, text, _, hstands⟩ := hfound a ha
        obtain ⟨hcandidate, _⟩ := Option.filter_eq_some_iff.1 (Option.mem_toList.1 hb)
        obtain ⟨_, hstop, _⟩ := candidate?_stands hcandidate h hnode
        have hle := hstands.stop_le
        have htake : (before ++ (role, t) :: rest).take (before.length + 1) =
            before ++ [(role, t)] := by
          rw [List.take_length_add_append]
          rfl
        rw [htake, textOfForm_append, Position.advance_append] at hstop
        simpa [hstop] using hle
    · have hform : before ++ [(role, t)] ++ rest = before ++ (role, t) :: rest := by simp
      have hplaced :
          (Tree.node kind (before ++ [(role, t)] ++ rest) extent).NodesPlacedFrom outer p :=
        hform.symm ▸ h
      have hmore := candidatesInForm_found config start stop s (before ++ [(role, t)]) rest hplaced
      rw [hform, List.length_append] at hmore
      exact hmore

end

/-- A candidate that begins and ends before another one comes before it. -/
theorem Candidate.StandsAt.precedes {c' : Candidate} {path path' : List Nat}
    {front text front' text' : String} (h : c.StandsAt p path t front text)
    (h' : c'.StandsAt p path' t front' text') (hstart : c'.span.start < c.span.start)
    (hstop : c'.span.stop < c.span.stop) :
    Precedes c'.first (c'.last + 1 - c'.first) path' c.first path := by
  obtain ⟨⟨run, back, hrun, rfl, _⟩, hspan, hline⟩ := h
  obtain ⟨⟨run', back', hrun', rfl, _⟩, hspan', hline'⟩ := h'
  simp only [hspan, hspan', Position.offset_advance] at hstart hstop
  refine hrun.precedes hrun' (by omega) (by omega) ?_
  rintro rfl
  have hfirst : c'.first < c.first := Nat.lt_of_not_le fun hle => by
    have hfront := hrun.front_le hrun' hle
    omega
  have hlast : c'.last < c.last := Nat.lt_of_not_le fun hle => by
    have hfront := hrun.at_stop.front_le hrun'.at_stop (by omega)
    omega
  refine Nat.le_of_not_lt fun hlt => ?_
  -- The line of the later item goes on to the earlier item, and from there as far as that one's.
  obtain ⟨before, after, hlist, hbefore⟩ := hrun.listAt_eq
  have hlength : c.last ≤ (listAt path' t).length := by
    have hcount := hrun.length_eq
    rw [hlist, List.length_append, List.length_append]
    omega
  have hdrop : (((listAt path' t).take c.last).reverse).drop (c.last - c'.last) =
      ((listAt path' t).take c'.last).reverse := by
    rw [List.drop_reverse, List.length_take, List.take_take]
    congr 2
    omega
  have hle := runLength_drop_le ((listAt path' t).take c.last).reverse
    (k := c.last - c'.last) (by omega)
  rw [hdrop] at hle
  omega

/-! ### Groups -/

/-- A group that can be taken up by a tree: each of its items stands there and holds all of its
edits. -/
structure Group.Sound (g : Group) (t : Tree) : Prop where
  nonempty : g.edits ≠ []
  found : ∀ c ∈ g.candidates, ∃ config start stop, c ∈ Reparse.candidates config t start stop
  stands : ∀ c ∈ g.candidates, ∃ front text, c.StandsAt .start c.path t front text
  covers : ∀ c ∈ g.candidates, ∀ e ∈ g.edits, c.span.start ≤ e.offset ∧ e.stop ≤ c.span.stop

/-- All edits of groups, given the latest group first. -/
def editsOf (groups : List Group) : List Edit :=
  groups.reverse.flatMap Group.edits

@[simp]
theorem editsOf_nil : editsOf [] = [] := rfl

@[simp]
theorem editsOf_cons (g : Group) (earlier : List Group) :
    editsOf (g :: earlier) = editsOf earlier ++ g.edits := by
  simp [editsOf]

/-- Ascending edits lie between where the first begins and the last ends. -/
theorem between_of_ascending {edits : List Edit} (h : Ascending edits) {first last e : Edit}
    (hfirst : edits.head? = some first) (hlast : edits.getLast? = some last) (he : e ∈ edits) :
    first.offset ≤ e.offset ∧ e.stop ≤ last.stop := by
  constructor
  · obtain ⟨rest, rfl⟩ := List.head?_eq_some_iff.1 hfirst
    rcases List.mem_cons.1 he with rfl | he
    · exact Nat.le_refl _
    · have happart := (List.pairwise_cons.1 h.apart).1 e he
      have hstop := h.forward first List.mem_cons_self
      omega
  · obtain ⟨init, rfl⟩ := List.getLast?_eq_some_iff.1 hlast
    rcases List.mem_append.1 he with he | he
    · have happart := (List.pairwise_append.1 h.apart).2.2 e he last List.mem_cons_self
      have hstop := h.forward last (by simp)
      omega
    · exact Nat.le_of_eq (congrArg Edit.stop (List.mem_singleton.1 he))

/-- A group that is formed is sound, and takes its edits from the first ones on. -/
theorem grow?_sound {own later left : List Edit} {g : Group}
    (hplaced : t.NodesPlacedFrom true .start)
    (horder : Ascending (own ++ later)) (h : grow? config t own later = some (g, left)) :
    g.Sound t ∧ g.edits ++ left = own ++ later := by
  simp only [grow?, bind, Option.bind_eq_some_iff] at h
  obtain ⟨first, hfirst, last, hlast, h⟩ := h
  have hown : own ≠ [] := fun hnil => by simp [hnil] at hfirst
  obtain ⟨hfound, hpairwise⟩ :=
    candidatesIn_found config first.offset last.stop {} t hplaced
  split at h
  · cases h
  · rename_i item outer hcandidates
    simp only [Option.some.injEq, Prod.mk.injEq] at h
    obtain ⟨rfl, rfl⟩ := h
    have hsub : (item :: outer).Sublist (candidatesIn config first.offset last.stop {} t) :=
      hcandidates ▸ List.dropWhile_sublist _
    have hitems := List.pairwise_cons.1 (hpairwise.sublist hsub)
    have hends : endsBetween later item = true := by
      have hhead := List.head?_dropWhile_not (!endsBetween later ·)
        (candidates config t first.offset last.stop)
      rw [hcandidates] at hhead
      simpa using hhead
    refine ⟨⟨?_, fun c hc => ⟨config, _, _, hsub.subset hc⟩, ?_, ?_⟩, ?_⟩
    · simp [hown]
    · intro c hc
      obtain ⟨_, path, front, text, hpath, hstands⟩ := hfound c (hsub.subset hc)
      rw [List.reverse_nil, List.nil_append] at hpath
      exact ⟨front, text, hpath ▸ hstands⟩
    · intro c hc e he
      have hcovers := (hfound c (hsub.subset hc)).1
      simp only [Candidate.covers, Bool.and_eq_true, decide_eq_true_eq] at hcovers
      have hown' := horder.sublist (List.sublist_append_left own later)
      have hitem : item.span.stop ≤ c.span.stop := by
        rcases List.mem_cons.1 hc with rfl | hc
        · exact Nat.le_refl _
        · exact hitems.1 c hc
      rcases List.mem_append.1 he with he | he
      · obtain ⟨hle, hle'⟩ := between_of_ascending hown' hfirst hlast he
        omega
      · have hmem := List.mem_of_head? hfirst
        have hlater : e ∈ later := (List.takeWhile_sublist _).subset he
        have happart := (List.pairwise_append.1 horder.apart).2.2 first hmem e hlater
        have hstop := hown'.forward first hmem
        have hwithin : e.stop ≤ item.span.stop := by
          simpa using List.all_eq_true.1 hends e he
        omega
    · rw [List.append_assoc, List.takeWhile_append_dropWhile]

/-- Groups that join others are sound. -/
theorem join?_sound {own later left : List Edit} {groups result : List Group}
    (hplaced : t.NodesPlacedFrom true .start) (hgroups : ∀ g ∈ groups, g.Sound t)
    (horder : Ascending (editsOf groups ++ (own ++ later)))
    (h : join? config t own later groups = some (result, left)) :
    (∀ g ∈ result, g.Sound t) ∧ editsOf result ++ left = editsOf groups ++ (own ++ later) := by
  induction groups generalizing own later with
  | nil =>
    obtain ⟨⟨g, left'⟩, hgrow, heq⟩ := Option.map_eq_some_iff.1 h
    obtain ⟨rfl, rfl⟩ := Prod.mk.inj heq
    obtain ⟨hsound, hedits⟩ := grow?_sound hplaced (by simpa using horder) hgrow
    exact ⟨by simpa using hsound, by simpa using hedits⟩
  | cons nearest earlier ih =>
    simp only [join?, bind, Option.bind_eq_some_iff] at h
    obtain ⟨⟨g, later'⟩, hgrow, h⟩ := h
    obtain ⟨hsound, hedits⟩ := grow?_sound hplaced
      (horder.sublist (List.sublist_append_right _ _)) hgrow
    dsimp only at h
    split at h
    · have hsame : editsOf earlier ++ (nearest.edits ++ g.edits ++ later') =
          editsOf (nearest :: earlier) ++ (own ++ later) := by
        rw [← hedits]
        simp
      rw [← hsame]
      refine ih (fun g hg => hgroups g (List.mem_cons_of_mem _ hg)) ?_ h
      rw [hsame]
      exact horder
    · simp only [Option.some.injEq, Prod.mk.injEq] at h
      obtain ⟨rfl, rfl⟩ := h
      refine ⟨fun g' hg' => ?_, ?_⟩
      · rcases List.mem_cons.1 hg' with rfl | hg'
        · exact hsound
        · exact hgroups g' hg'
      · rw [editsOf_cons, List.append_assoc, hedits]

/-- Groups that are planned are sound, and hold all edits in order. -/
theorem planFrom?_sound {fuel : Nat} {later : List Edit} {groups result : List Group}
    (hplaced : t.NodesPlacedFrom true .start) (hgroups : ∀ g ∈ groups, g.Sound t)
    (horder : Ascending (editsOf groups ++ later))
    (h : planFrom? config t fuel groups later = some result) :
    (∀ g ∈ result, g.Sound t) ∧ editsOf result = editsOf groups ++ later := by
  induction fuel generalizing groups later with
  | zero =>
    cases later with
    | nil =>
      simp only [planFrom?, Option.some.injEq] at h
      exact h ▸ ⟨hgroups, by simp⟩
    | cons e later => cases h
  | succ fuel ih =>
    cases later with
    | nil =>
      simp only [planFrom?, Option.some.injEq] at h
      exact h ▸ ⟨hgroups, by simp⟩
    | cons e later =>
      simp only [planFrom?, bind, Option.bind_eq_some_iff] at h
      obtain ⟨⟨joined, left⟩, hjoin, h⟩ := h
      obtain ⟨hsound, hedits⟩ := join?_sound hplaced hgroups
        (by simpa using horder) hjoin
      obtain ⟨hresult, hsame⟩ := ih hsound (by rw [hedits]; simpa using horder) h
      exact ⟨hresult, by rw [hsame, hedits]; simp⟩

/-- A plan is made of sound groups, which hold all edits in order. -/
theorem plan?_sound {edits : List Edit} {groups : List Group}
    (hplaced : t.NodesPlacedFrom true .start)
    (horder : Ascending edits) (h : plan? config t edits = some groups) :
    (∀ g ∈ groups, g.Sound t) ∧ editsOf groups = edits := by
  simpa using planFrom?_sound hplaced (by simp) (by simpa using horder) h

end ScriptTree.Reparse
