import ScriptTree.Proofs.Plans
import ScriptTree.Proofs.Structure.Placement

/-!
# Where lines begin

The items that can be read again on their own begin a line: a line break or white space stands
before them, or they come first in an outermost list. Since leaves hold text, an item that is given
text where it had none then displaces no node before it.
-/

namespace ScriptTree

/-- Which children are lists of lines. -/
def Form.lines (form : List Entry) : List Bool :=
  form.map fun entry => entry.2.isLines

/-- Leaves hold text. A whole script stands nowhere but at the root, where `outer` allows it, and
only the first child of it is a list of lines. -/
inductive Tree.Rooted : Bool → Tree → Prop
  | leaf {outer : Bool} (kind : LeafKind) {s : String} (extent : Extent) (text : s ≠ "") :
    Rooted outer (.leaf kind s extent)
  | node {outer : Bool} {kind : NodeKind} {form : List Entry} (extent : Extent)
    (file : kind = .file → outer = true ∧ true ∉ (Form.lines form).tail)
    (children : ∀ entry ∈ form, Rooted false entry.2) : Rooted outer (.node kind form extent)

@[simp]
theorem Form.lines_shiftForm (old new : Position) (form : List Entry) :
    lines (Tree.shiftForm old new form) = lines form := by
  rw [Reparse.shiftForm_eq_map, lines, List.map_map]
  refine List.map_congr_left fun entry _ => ?_
  simp [Tree.isLines]

@[simp]
theorem Form.lines_append (xs ys : List Entry) : lines (xs ++ ys) = lines xs ++ lines ys := by
  simp [lines]

@[simp]
theorem Form.lines_cons (entry : Entry) (rest : List Entry) :
    lines (entry :: rest) = entry.2.isLines :: lines rest := rfl

@[simp]
theorem Form.lines_placeForm (start : Position) (form : List Entry) :
    lines (Tree.placeForm start form).1 = lines form := by
  induction form generalizing start with
  | nil => rfl
  | cons entry rest ih =>
    obtain ⟨role, t⟩ := entry
    simp [Tree.placeForm, ih]

namespace Tree

variable {outer : Bool} {t : Tree} {old new : Position}

/-- A tree inside another one may be the root itself. -/
theorem Rooted.outermost (h : t.Rooted false) : t.Rooted outer := by
  cases h with
  | leaf kind extent text => exact .leaf _ _ text
  | node extent file children => exact .node _ (fun hfile => nomatch (file hfile).1) children

/-- Moving a tree changes nothing about this. -/
theorem Rooted.shift (h : t.Rooted outer) : (t.shift old new).Rooted outer := by
  induction h with
  | leaf kind extent text =>
    rw [Tree.shift]
    exact .leaf _ _ text
  | @node outer kind form extent file children ih =>
    rw [Tree.shift]
    refine .node _ (by simpa using file) ?_
    rw [Reparse.shiftForm_eq_map]
    exact List.forall_mem_map.2 ih

/-- Giving a tree its place changes nothing about this. -/
theorem Rooted.placeFrom (h : t.Rooted outer) (start : Position) :
    (t.placeFrom start).1.Rooted outer := by
  induction h generalizing start with
  | leaf kind extent text => exact .leaf _ _ text
  | @node outer kind form extent file children ih =>
    rw [Tree.placeFrom]
    refine .node _ (by simpa using file) fun entry hentry => ?_
    obtain ⟨old, hold, -, place, hplace⟩ := Form.exists_of_mem_placeForm hentry
    rw [hplace]
    exact ih old hold place

end Tree

namespace Reparse

open ScriptTree.Tree

variable {first count : Nat} {path : List Nat} {t : Tree} {front back : String}
  {run newRun : List Entry} {old new : Position} {outer : Bool} {c : Candidate}

/-- Putting a run in the place of another changes nothing about this. -/
theorem RunAt.rooted_replaceRun (h : RunAt first count path t front run back)
    (hrooted : t.Rooted outer) (hnew : ∀ entry ∈ newRun, entry.2.Rooted false) :
    (Reparse.replaceRun old new first count newRun path t).Rooted outer := by
  have hshift {form : List Entry} (hform : ∀ entry ∈ form, entry.2.Rooted false) :
      ∀ entry ∈ shiftForm old new form, entry.2.Rooted false := by
    rw [shiftForm_eq_map]
    exact List.forall_mem_map.2 fun entry hentry => (hform entry hentry).shift
  induction path generalizing t front back outer with
  | nil =>
    obtain ⟨block, extent, before, after, rfl, hfirst, hcount, -, -⟩ := h
    rw [replaceRun_list hfirst hcount]
    cases hrooted with
    | node _ file children =>
      simp only [List.forall_mem_append] at children
      refine .node _ (fun hfile => by cases block <;> cases hfile) ?_
      simp only [List.forall_mem_append]
      exact ⟨⟨hshift children.1.1, hnew⟩, hshift children.2⟩
  | cons index path ih =>
    obtain ⟨kind, extent, before, role, child, after, _, _, rfl, hindex, hchild, -, -⟩ := h
    rw [replaceRun_child hindex]
    cases hrooted with
    | node _ file children =>
      simp only [List.forall_mem_append, List.forall_mem_cons] at children
      refine .node _ (by simpa [isLines, nodeKind?_replaceRun] using file) ?_
      simp only [List.forall_mem_append, List.forall_mem_cons]
      exact ⟨hshift children.1, ih hchild children.2.1, hshift children.2.2⟩

/-! ### Candidates -/

/-- A leaf with text stands before a candidate. -/
def Candidate.BehindLeaf (c : Candidate) (path : List Nat) (t : Tree) : Prop :=
  0 < c.first ∧ ∃ lead, (listAt path t)[c.first - 1]? = some lead ∧
    lead.2.nodeKind? = none ∧ lead.2.text ≠ ""

/-- A candidate begins a line: it comes first in an outermost list, or behind a leaf with text. -/
def Candidate.BeginsLine (c : Candidate) (t : Tree) : Prop :=
  c.first = 0 ∧ (c.path = [] ∨ c.path = [0] ∧ t.nodeKind? = some .file) ∨ c.BehindLeaf c.path t

/-- What stands before a candidate in a child stands before it in the node around the child. -/
theorem Candidate.BehindLeaf.child {kind : NodeKind} {extent : Extent} {role : Role}
    (before after : List Entry) (h : c.BehindLeaf path t) :
    c.BehindLeaf (before.length :: path) (.node kind (before ++ (role, t) :: after) extent) := by
  rwa [Candidate.BehindLeaf, listAt_child]

/-- What tells the level of a line that does not begin an outermost list is a leaf. -/
theorem nodeKind?_of_lineLevel? {config : Config} {outermost : Bool} {previous : Entry}
    (h : (lineLevel? config outermost (some previous)).isSome) : previous.2.nodeKind? = none := by
  obtain ⟨role, t⟩ := previous
  cases t with
  | leaf kind s extent => rfl
  | node kind form extent =>
    cases outermost <;> simp [lineLevel?, leafKind?, Tree.kind, TokenKind.leaf?] at h

/-- The candidate at a place of a list comes first in an outermost list, or behind a leaf. -/
theorem candidate?_beginsLine {config : Config} {s : Surroundings} {kind : NodeKind}
    {form : List Entry} {extent : Extent} {index : Nat}
    (h : candidate? config s kind form index = some c)
    (hrooted : (Tree.node kind form extent).Rooted outer) :
    c.path = s.steps.reverse ∧ kind.isBlockList = true ∧
      (c.first = 0 ∧ s.isOutermost = true ∨ c.BehindLeaf [] (.node kind form extent)) := by
  simp only [candidate?, bind, Option.bind_eq_some_iff] at h
  obtain ⟨block, hblock, ⟨role, item⟩, hitem, ⟨openerRole, opener⟩, hopener, level, hlevel, h⟩ := h
  split at h
  · obtain rfl := (Option.some.inj h).symm
    obtain rfl : kind = block.nodeKind := by cases kind <;> cases hblock <;> rfl
    refine ⟨rfl, by cases block <;> rfl, ?_⟩
    obtain ⟨hindex, _⟩ := List.getElem?_eq_some_iff.1 hitem
    generalize hfirst : index - runLength 0 (form.take index).reverse = first at *
    have hle : first ≤ index := by omega
    rcases Nat.eq_zero_or_pos first with rfl | hpos
    · refine .inl ⟨rfl, ?_⟩
      rw [if_pos rfl] at hlevel
      by_contra hinner
      simp [lineLevel?, hinner] at hlevel
    · rw [if_neg (by omega)] at hlevel
      have hprevious : first - 1 < form.length := by omega
      rw [List.getElem?_eq_getElem hprevious] at hlevel
      have hleaf : form[first - 1].2.nodeKind? = none :=
        nodeKind?_of_lineLevel? (Option.isSome_iff_exists.2 ⟨level, hlevel⟩)
      have htext : form[first - 1].2.text ≠ "" := by
        cases hrooted with
        | node _ _ children =>
          have hlead := children _ (List.getElem_mem hprevious)
          generalize form[first - 1].2 = lead at hlead hleaf
          cases hlead with
          | leaf lead extent text => simpa using text
          | node extent file children => cases hleaf
      exact .inr ⟨hpos, _, List.getElem?_eq_getElem hprevious, hleaf, htext⟩
  · cases h

mutual

/-- The candidates inside a tree come first in an outermost list, or behind a leaf. -/
theorem candidatesIn_beginLine (config : Config) (start stop : Nat) (s : Surroundings)
    {outer : Bool} (t : Tree) (h : t.Rooted outer) :
    ∀ c ∈ candidatesIn config start stop s t, ∃ path, c.path = s.steps.reverse ++ path ∧
      (c.first = 0 ∧ (path = [] ∧ t.isLines = true ∧ s.isOutermost = true ∨
        path = [0] ∧ t.nodeKind? = some .file) ∨ c.BehindLeaf path t) := by
  match t with
  | .leaf kind text extent => simp [candidatesIn]
  | .node kind form extent =>
    rw [candidatesIn]
    exact candidatesInForm_beginLine config start stop s [] form h

/-- The candidates inside a node come first in an outermost list, or behind a leaf. -/
theorem candidatesInForm_beginLine (config : Config) (start stop : Nat) (s : Surroundings)
    {outer : Bool} {kind : NodeKind} {extent : Extent} (before rest : List Entry)
    (h : (Tree.node kind (before ++ rest) extent).Rooted outer) :
    ∀ c ∈ candidatesInForm config start stop s kind (before ++ rest) before.length rest,
      ∃ path, c.path = s.steps.reverse ++ path ∧
        (c.first = 0 ∧ (path = [] ∧ kind.isBlockList = true ∧ s.isOutermost = true ∨
          path = [0] ∧ (Tree.node kind (before ++ rest) extent).nodeKind? = some .file) ∨
            c.BehindLeaf path (.node kind (before ++ rest) extent)) := by
  match rest with
  | [] => simp [candidatesInForm]
  | (role, t) :: rest =>
    intro c hc
    rw [candidatesInForm] at hc
    split at hc
    · have hwhole := h
      cases h with
      | node _ file children =>
        have hchild : t.Rooted false := children (role, t) (by simp)
        rcases List.mem_append.1 hc with hc | hc
        · obtain ⟨path, hpath, hline⟩ :=
            candidatesIn_beginLine config start stop (s.child kind before.length) t hchild c hc
          refine ⟨before.length :: path, by simpa [Surroundings.child] using hpath, ?_⟩
          rcases hline with ⟨hfirst, ⟨rfl, hlines, houtermost⟩ | ⟨-, hfile⟩⟩ | hbehind
          · have hfile : kind = .file := by simpa [Surroundings.isOutermost, Surroundings.child]
              using houtermost
            refine .inl ⟨hfirst, .inr ⟨?_, congrArg some hfile⟩⟩
            cases before with
            | nil => rfl
            | cons entry before => exact absurd (file hfile).2 (by simp [hlines])
          · cases hchild with
            | leaf => cases hfile
            | node _ inner _ =>
              cases hfile
              cases (inner rfl).1
          · exact .inr (hbehind.child before rest)
        · obtain ⟨hcandidate, -⟩ := Option.filter_eq_some_iff.1 (Option.mem_toList.1 hc)
          obtain ⟨hpath, hlines, hline⟩ := candidate?_beginsLine hcandidate hwhole
          refine ⟨[], by simpa using hpath, ?_⟩
          exact hline.imp (fun hfirst => ⟨hfirst.1, .inl ⟨rfl, hlines, hfirst.2⟩⟩) id
    · have hform : before ++ [(role, t)] ++ rest = before ++ (role, t) :: rest := by simp
      rw [← hform] at h hc ⊢
      refine candidatesInForm_beginLine config start stop s (before ++ [(role, t)]) rest h c ?_
      rw [List.length_append]
      exact hc

end

/-- Every candidate begins a line. -/
theorem beginsLine_of_mem_candidates {config : Config} {start stop : Nat} (h : t.Rooted true)
    (hc : c ∈ candidates config t start stop) : c.BeginsLine t := by
  obtain ⟨path, hpath, hline⟩ := candidatesIn_beginLine config start stop {} t h c hc
  obtain rfl : c.path = path := by simpa using hpath
  exact hline.imp (fun hfirst => ⟨hfirst.1, hfirst.2.imp And.left id⟩) id

/-! ### Runs behind a leaf -/

/-- A run that does not come first is the rest of one that begins with the entry before it. -/
theorem RunAt.extend (h : RunAt (first + 1) count path t front run back) :
    ∃ lead front', (listAt path t)[first]? = some lead ∧ front = front' ++ lead.2.text ∧
      RunAt first (count + 1) path t front' (lead :: run) back ∧
      ∀ old new newRun, Reparse.replaceRun old new (first + 1) count newRun path t =
        Reparse.replaceRun old new first (count + 1)
          ((lead.1, lead.2.shift old new) :: newRun) path t := by
  induction path generalizing t front back with
  | nil =>
    obtain ⟨block, extent, before, after, rfl, hfirst, hcount, rfl, rfl⟩ := h
    obtain ⟨init, lead, rfl⟩ : ∃ init lead, before = init ++ [lead] := by
      rcases List.eq_nil_or_concat before with rfl | ⟨init, lead, hbefore⟩
      · cases hfirst
      · exact ⟨init, lead, by rw [hbefore, List.concat_eq_append]⟩
    obtain ⟨role, leading⟩ := lead
    have hinit : init.length = first := by simpa using hfirst
    have hform : init ++ [(role, leading)] ++ run ++ after =
        init ++ ((role, leading) :: run) ++ after := by
      simp
    refine ⟨(role, leading), textOfForm init, ?_, by simp, ?_, fun old new newRun => ?_⟩
    · simp [listAt, descend?, Tree.form, ← hinit]
    · exact ⟨block, extent, init, after, by rw [hform], hinit, by simp [hcount], rfl, rfl⟩
    · rw [replaceRun_list hfirst hcount, hform, replaceRun_list hinit (by simp [hcount])]
      simp [shiftForm]
  | cons index path ih =>
    obtain ⟨kind, extent, before, role, child, after, innerFront, innerBack, rfl, hindex, hchild,
      rfl, rfl⟩ := h
    obtain ⟨lead, front', hlead, rfl, hrun, hreplaced⟩ := ih hchild
    refine ⟨lead, textOfForm before ++ front', ?_, by rw [String.append_assoc], ?_,
      fun old new newRun => ?_⟩
    · rw [← hindex, listAt_child, hlead]
    · exact ⟨kind, extent, before, role, child, after, front', innerBack, rfl, hindex, hrun, rfl,
        rfl⟩
    · rw [replaceRun_child hindex, replaceRun_child hindex, hreplaced]

/-- A run reaches as far as one that begins with the entry before it. -/
theorem reach_succ (first count : Nat) (path : List Nat) :
    reach first (count + 1) path = reach (first + 1) count path := by
  cases path with
  | nil => exact (Nat.add_right_comm first 1 count).symm
  | cons index path => rfl

/-- The entry before a run comes before what the run comes before. -/
theorem Precedes.extend {first' count' : Nat} {path' : List Nat}
    (h : Precedes (first' + 1) count' path' first path) :
    Precedes first' (count' + 1) path' first path := by
  induction path generalizing path' with
  | nil => rwa [Precedes, reach_succ]
  | cons index path ih =>
    rw [Precedes, reach_succ]
    rcases h with hreach | ⟨rest, heq, hprecedes⟩
    · exact .inl hreach
    · exact .inr ⟨rest, heq, ih hprecedes⟩

/-- A candidate still begins a line when one that it comes before is replaced. -/
theorem Candidate.BeginsLine.frame {c' : Candidate} {front' back' : String} {run' : List Entry}
    (h' : c'.BeginsLine t) (hrun : RunAt first count path t front run back)
    (hrun' : RunAt c'.first (c'.last + 1 - c'.first) c'.path t front' run' back')
    (hprecedes : Precedes c'.first (c'.last + 1 - c'.first) c'.path first path) :
    c'.BeginsLine (Reparse.replaceRun old new first count newRun path t) := by
  rcases h' with ⟨hfirst, hpath⟩ | ⟨hpos, lead, hlead, hleaf, htext⟩
  · exact .inl ⟨hfirst, by rwa [nodeKind?_replaceRun]⟩
  · obtain ⟨place, hplace⟩ : ∃ place, c'.first = place + 1 := ⟨c'.first - 1, by omega⟩
    rw [hplace] at hrun' hprecedes hlead
    obtain ⟨lead', front'', hlead', -, hextended, -⟩ := hrun'.extend
    obtain rfl : lead' = lead := Option.some.inj (hlead'.symm.trans hlead)
    obtain ⟨_, hframe⟩ := hrun.frame old new newRun hextended hprecedes.extend
    obtain ⟨before, after, hlist, hbefore⟩ := hframe.listAt_eq
    refine .inr ⟨hpos, (lead'.1, lead'.2.shift old new), ?_, by rwa [nodeKind?_shift],
      by rwa [text_shift]⟩
    rw [hplace, hlist, ← hbefore]
    simp [shiftForm_eq_map]

/-- When a run that begins a line takes the place of another, every node stands where the text puts
it, whether either of them has text or not. -/
theorem Candidate.BeginsLine.nodesPlacedFrom (h : c.BeginsLine t) {start : Position}
    (hrun : RunAt c.first (c.last + 1 - c.first) c.path t front run back)
    (hplaced : t.NodesPlacedFrom true start)
    (hnew : FormNodesPlacedFrom false (start.advance front) newRun)
    (hlength : newRun.length = c.last + 1 - c.first) :
    (Reparse.replaceRun (start.advance (front ++ textOfForm run))
      (start.advance (front ++ textOfForm newRun)) c.first (c.last + 1 - c.first) newRun c.path
        t).NodesPlacedFrom true start := by
  rcases h with ⟨hfirst, hpath⟩ | ⟨hpos, lead, hlead, hleaf, htext⟩
  · simp only [Position.advance_append]
    rw [hfirst] at hrun hlength ⊢
    exact hrun.nodesPlacedFrom_replaceRun_outermost hpath hplaced rfl hnew hlength
  · -- Together with the leaf before it, the run has text.
    obtain ⟨first, hfirst⟩ : ∃ first, c.first = first + 1 := ⟨c.first - 1, by omega⟩
    rw [hfirst] at hrun hlength hlead ⊢
    obtain ⟨lead', front', hlead', rfl, hextended, hreplaced⟩ := hrun.extend
    obtain rfl : lead' = lead := Option.some.inj (hlead'.symm.trans hlead)
    obtain ⟨role, leading⟩ := lead'
    rw [hreplaced]
    generalize hold : start.advance (front' ++ leading.text ++ textOfForm run) = old
    generalize hmoved : start.advance (front' ++ leading.text ++ textOfForm newRun) = new
    have hleaf' : (leading.shift old new).NodesPlacedFrom false (start.advance front') := by
      cases leading with
      | leaf kind s extent =>
        rw [Tree.shift]
        exact nodesPlacedFrom_leaf
      | node kind form extent => cases hleaf
    have hnew' : FormNodesPlacedFrom false (start.advance front')
        ((role, leading.shift old new) :: newRun) := by
      rw [formNodesPlacedFrom_cons, text_shift, ← Position.advance_append]
      exact ⟨hleaf', hnew⟩
    have hall := hextended.nodesPlacedFrom_replaceRun hplaced rfl hnew'
      (fun hempty => absurd (String.append_eq_empty_iff.1 hempty).1 htext) (by simp; omega)
    simp only [textOfForm_cons, text_shift, ← Position.advance_append, ← String.append_assoc, hold,
      hmoved] at hall
    exact hall

end Reparse

end ScriptTree
