import ScriptTree.Proofs.InArena

/-!
# Whole updates in an arena

Bringing a tree up to date in an arena goes hand in hand with bringing it up to date as a value: the
arena holds the tree that was worked out, is well formed, and the outcome is the same. In
particular no operation on the arena is ever refused on the way.
-/

namespace ScriptTree

namespace Reparse

open ScriptTree.Tree

variable {c : Candidate}

/-- What an item is read as by itself has a place for everything in it. -/
theorem readRun?_suited (config : Config) (c : Candidate) (text : String) :
    Promises (readRun? config c text) fun run? =>
      ∀ run ∈ run?, (Tree.ofForm c.kind.nodeKind run).Suited := by
  refine (readItem_fits config c text).bind fun result hfits => promises_pure.2 ?_
  split
  · intro run hrun
    cases hrun
  · intro run hrun
    obtain ⟨t, ht, rfl⟩ := Option.map_eq_some_iff.1 hrun
    obtain ⟨hregular, form, rfl, -⟩ := hfits.token t ht
    exact Arena.suited_of_lawful (hregular.mono fun h => h.toIsLawful)

/-- A run that may stand in the place of another one has its roles. -/
theorem roles_of_matchesRun {old new : List Entry} (h : matchesRun old new = true) :
    new.map Prod.fst = old.map Prod.fst := by
  simp only [matchesRun, Bool.and_eq_true, beq_iff_eq, List.all_eq_true] at h
  obtain ⟨hlength, hentries⟩ := h
  refine List.ext_getElem (by simp [hlength]) fun i hnew hold => ?_
  rw [List.length_map] at hnew hold
  have hmem : (old[i], new[i]) ∈ old.zip new :=
    List.mem_iff_getElem.2 ⟨i, by rw [List.length_zip]; omega, List.getElem_zip⟩
  have hentry := hentries _ hmem
  simp only [matchesEntry, Bool.and_eq_true, beq_iff_eq] at hentry
  rw [List.getElem_map, List.getElem_map, hentry.1.1]

end Reparse

namespace RootedArena

open Reparse Arena

variable {r : RootedArena} {c : Candidate} {source : Arena} {list : Nat} {raw : List Entry}
  {config : Config}

/-- A tree in a well-formed arena. -/
structure Sound (r : RootedArena) : Prop where
  wellFormed : r.arena.WellFormed
  root_lt : r.root < r.arena.size

/-- The trees of the entries that a candidate stands for are the run that it stands for. -/
theorem Sound.runIn_eq (h : r.Sound) (c : Candidate) :
    c.runIn r.tree = Form.mapChildren r.arena.tree (r.runOf c) := by
  obtain ⟨htree, hbelow⟩ := h.wellFormed.descend?_tree c.path h.root_lt
  rw [Candidate.runIn, listAt, RootedArena.tree, htree, runOf]
  cases hnode : r.arena.descend? c.path r.root with
  | none => simp [Form.mapChildren]
  | some node =>
    simp only [Option.map_some, Option.getD_some]
    rw [h.wellFormed.form_tree (hbelow node hnode).1, Form.mapChildren_take, Form.mapChildren_drop]

/-- A candidate that stands for entries stands for a run of a node to which its way leads. -/
theorem exists_of_runOf_ne_nil (hrun : r.runOf c ≠ []) :
    ∃ node kind, r.arena.descend? c.path r.root = some node ∧ r.arena.nodeKind? node = some kind ∧
      r.arena.form node = (r.arena.form node).take c.first ++ r.runOf c
        ++ (r.arena.form node).drop (c.first + (c.last + 1 - c.first)) := by
  cases hnode : r.arena.descend? c.path r.root with
  | none => simp [runOf, hnode] at hrun
  | some node =>
    have hform : r.runOf c = ((r.arena.form node).drop c.first).take (c.last + 1 - c.first) := by
      simp [runOf, hnode]
    obtain ⟨entry, hentry⟩ := List.exists_mem_of_ne_nil _ hrun
    rw [hform] at hentry
    have hchild : entry.2 ∈ r.arena.children node :=
      List.mem_map_of_mem (List.mem_of_mem_drop (List.mem_of_mem_take hentry))
    obtain ⟨kind, hkind⟩ := exists_nodeKind_of_mem_children hchild
    refine ⟨node, kind, rfl, hkind, ?_⟩
    rw [hform, ← List.drop_drop, List.append_assoc, List.take_append_drop, List.take_append_drop]

/-- Copies take the places of the entries that a candidate stands for, and everything else moves,
as it does in the tree as a value. -/
theorem Sound.substituteAll (h : r.Sound) (hsource : source.WellFormed) (hrun : r.runOf c ≠ [])
    {news : List (Role × Nat)} (hroles : news.map Prod.fst = (r.runOf c).map Prod.fst)
    (hnews : ∀ entry ∈ news, entry.2 < source.size) (start old : Position) {stop : Position}
    {run : List Entry}
    (hplaced : Tree.placeForm start (Form.mapChildren source.tree news) = (run, stop)) :
    ∃ a' copies, r.arena.substituteAll source start
        (((r.runOf c).map Prod.snd).zip (news.map Prod.snd)) = (a', .ok (copies, stop)) ∧
      Sound ⟨a'.shiftWithout copies r.root old stop, r.root⟩ ∧
      (a'.shiftWithout copies r.root old stop).tree r.root =
        replaceRun old stop c.first (c.last + 1 - c.first) run c.path r.tree ∧
      (news.map Prod.fst).zip (copies.map (a'.shiftWithout copies r.root old stop).tree) = run := by
  obtain ⟨node, kind, hnode, hkind, hform⟩ := exists_of_runOf_ne_nil hrun
  obtain ⟨a', copies, hall, hrefilled, hnew, htrees⟩ :=
    h.wellFormed.substituteAll_spec hsource hkind hform hroles hnews start
  have hrolesPlaced := Form.roles_placeForm start (Form.mapChildren source.tree news)
  rw [hplaced] at hall htrees hrolesPlaced
  dsimp only at htrees
  have hreplaced : RunReplaced r.arena node kind _ (r.runOf c) copies _ a' :=
    ⟨h.wellFormed, hkind, hform, hrefilled, hnew⟩
  obtain ⟨hwell, -, -⟩ := hreplaced.moves h.root_lt old stop
  refine ⟨a', copies.map Prod.snd, hall, ⟨hwell, ?_⟩, ?_, ?_⟩
  · rw [size_shiftWithout]
    exact Nat.lt_of_lt_of_le h.root_lt hrefilled.size_le
  · rw [hreplaced.tree_eq_replaceRun rfl rfl h.root_lt old stop h.root_lt hnode .refl, htrees]
    rfl
  · have hcopies := hreplaced.tree_copies h.root_lt old stop
    have hfst : news.map Prod.fst = copies.map Prod.fst := by
      have hsame := congrArg (List.map Prod.fst) htrees
      rw [Form.map_fst_mapChildren] at hsame
      rw [hsame, ← Form.map_fst_mapChildren source.tree news]
      exact hrolesPlaced.symm
    rw [hfst, ← htrees, ← hcopies, List.map_map, List.zip_map']
    rfl

/-- The result of a step in an arena, told by the result of the same step on the tree as a value:
it fails for the same reason, or there is none and the arena stays, or the arena holds the tree
then. -/
inductive Splices (r : RootedArena) : Except ParseError (Option (Tree × Nat)) →
    RootedArena × Except UpdateError (Option Nat) → Prop
  | failed (e : ParseError) : Splices r (.error e) (r, .error (.parse e))
  | refused : Splices r (.ok none) (r, .ok none)
  | done {r' : RootedArena} {t : Tree} (sound : r'.Sound) (tree_eq : r'.tree = t) (count : Nat) :
    Splices r (.ok (some (t, count))) (r', .ok (some count))

/-- An item's run is replaced in the arena as it is in the tree as a value. -/
theorem Sound.replaceItem? (h : r.Sound) (hsource : source.WellFormed) (hlist : list < source.size)
    (hraw : (source.tree list).form = raw) (hmatches : matchesRun (c.runIn r.tree) raw = true) :
    Splices r (.ok (Reparse.replaceItem? r.tree c raw))
      ((r.replaceItem? c source list).map id (Except.mapError .token)) := by
  have hrunIn := h.runIn_eq c
  rw [hsource.form_tree hlist] at hraw
  have hroles : (source.form list).map Prod.fst = (r.runOf c).map Prod.fst := by
    have hsame := roles_of_matchesRun hmatches
    rwa [hrunIn, ← hraw, Form.map_fst_mapChildren, Form.map_fst_mapChildren] at hsame
  rw [Reparse.replaceItem?, RootedArena.replaceItem?, hrunIn, Form.mapChildren, List.head?_map,
    List.getLast?_map]
  cases hopener : (r.runOf c).head? with
  | none => exact .refused
  | some opener =>
    cases hitem : (r.runOf c).getLast? with
    | none => exact .refused
    | some item =>
      have hopenerMem : opener ∈ r.runOf c := List.mem_of_head? hopener
      have hextent (entry : Role × Nat) (hentry : entry ∈ r.runOf c) :
          (r.arena.tree entry.2).extent = r.arena.extent entry.2 := by
        obtain ⟨node, kind, -, -, hform⟩ :=
          exists_of_runOf_ne_nil (List.ne_nil_of_mem hopenerMem)
        have hchild : entry.2 ∈ r.arena.children node := by
          rw [children, hform]
          exact List.mem_map_of_mem (List.mem_append_left _ (List.mem_append_right _ hentry))
        exact h.wellFormed.extent_tree (h.wellFormed.linked.child_lt hchild)
      obtain ⟨a', copies, hall, hsound, htree, hcopies⟩ :=
        h.substituteAll hsource (List.ne_nil_of_mem hopenerMem) hroles
          (fun entry hentry => hsource.linked.child_lt (List.mem_map_of_mem hentry))
          (r.arena.extent opener.2).start (r.arena.extent item.2).stop rfl
      rw [hraw] at hall hsound htree hcopies
      simp only [Option.map_some, hextent opener hopenerMem,
        hextent item (List.mem_of_getLast? hitem), children, hall]
      rw [← hcopies] at htree ⊢
      exact .done hsound htree _

/-- A suited tree in an arena of its own. -/
theorem sound_ofTree {t : Tree} (ht : t.Suited) : (ofTree t).Sound ∧ (ofTree t).tree = t := by
  have htop := (grown_insertTree {} none t).top_lt _ (List.mem_singleton_self _)
  rw [snd_insertTree] at htop
  exact ⟨⟨wellFormed_empty.insertTree ht, htop.2⟩, tree_ofTree t⟩

/-- An item takes up edits in the arena as it does in the tree as a value. -/
theorem Sound.spliceItem (h : r.Sound) (config : Config) (c : Candidate) (edits : List Edit) :
    Splices r (Reparse.spliceItem config r.tree c edits) (r.spliceItem config c edits) := by
  rw [Reparse.spliceItem, RootedArena.spliceItem]
  cases hreread : reread? config r.tree c edits with
  | error e => exact .failed e
  | ok raw? =>
    cases raw? with
    | none => exact .refused
    | some raw =>
      obtain ⟨_, newText, -, -, hread, hmatches⟩ := reread?_eq_some hreread
      obtain ⟨hsource, htree⟩ := sound_ofTree (readRun?_suited config c newText _ hread raw rfl)
      exact h.replaceItem? hsource.wellFormed hsource.root_lt (congrArg Tree.form htree) hmatches

/-- The first of the candidates takes up the edits in the arena that does so in the tree as a
value. -/
theorem Sound.spliceFirst (h : r.Sound) (config : Config) (own foreign : List Edit)
    (candidates : List Candidate) :
    Splices r (Reparse.spliceFirst config r.tree own foreign candidates)
      (r.spliceFirst config own foreign candidates) := by
  induction candidates with
  | nil => exact .refused
  | cons c outer ih =>
    rw [Reparse.spliceFirst, RootedArena.spliceFirst]
    split
    · exact .refused
    · have hitem := h.spliceItem config c own
      generalize Reparse.spliceItem config r.tree c own = value at hitem
      generalize r.spliceItem config c own = result at hitem
      cases hitem with
      | failed e => exact .failed e
      | refused => exact ih
      | done sound tree_eq count => exact .done sound tree_eq count

/-- An arena that was brought up to date holds the tree that was worked out as a value, and the
outcome is the same. -/
structure Agrees (value : Reparsed) (result : RootedArena × Except UpdateError ReparseStats) :
    Prop where
  sound : result.1.Sound
  tree_eq : result.1.tree = value.tree
  outcome_eq : result.2 = value.outcome.mapError .parse

/-- The whole text is read again in the same way. -/
theorem Sound.full (h : r.Sound) (config : Config) (text : String) :
    Agrees (Reparse.full config r.tree text) (r.full config text) := by
  rw [Reparse.full, RootedArena.full]
  cases hparse : parse (.ofTree r.tree) config text with
  | error e => exact ⟨h, rfl, rfl⟩
  | ok new =>
    obtain ⟨hsound, htree⟩ := sound_ofTree (suited_of_parse hparse)
    exact ⟨hsound, htree, rfl⟩

/-- Groups of edits are taken up in the arena as they are in the tree as a value. -/
theorem Sound.spliceGroups (h : r.Sound) (config : Config) (text : String) (done : List Edit)
    (count : Nat) (groups : List Group) :
    Agrees (Reparse.spliceGroups config text r.tree done count groups)
      (r.spliceGroups config text done count groups) := by
  induction groups generalizing r done count with
  | nil => exact ⟨h, rfl, rfl⟩
  | cons group earlier ih =>
    rw [Reparse.spliceGroups, RootedArena.spliceGroups]
    have hfirst := h.spliceFirst config group.edits (earlier.flatMap Group.edits ++ done)
      group.candidates
    generalize Reparse.spliceFirst config r.tree group.edits _ group.candidates = value at hfirst
    generalize r.spliceFirst config group.edits _ group.candidates = result at hfirst
    cases hfirst with
    | failed e => exact ⟨h, rfl, rfl⟩
    | refused => exact h.full config text
    | done sound tree_eq more =>
      rw [← tree_eq]
      exact ih sound (group.edits ++ done) (count + more)

/-- Bringing a tree up to date in an arena is bringing it up to date as a value: the arena stays
well formed, and no operation on it is refused. -/
theorem Sound.reparse (h : r.Sound) (config : Config) (text : String) (edits : List Edit) :
    Agrees (ScriptTree.reparse config r.tree text edits) (r.reparse config text edits) := by
  rw [ScriptTree.reparse, RootedArena.reparse]
  split
  · exact ⟨h, rfl, rfl⟩
  · cases EditBatch.ofEdits edits with
    | error e => exact h.full config text
    | ok batch =>
      dsimp only
      cases batch.apply r.tree.text with
      | error e => exact h.full config text
      | ok applied =>
        cases plan? config r.tree batch.edits with
        | none => exact h.full config text
        | some groups =>
          cases groups with
          | nil => exact h.full config text
          | cons group earlier =>
            dsimp only
            split
            · exact h.spliceGroups config text [] 0 _
            · exact h.full config text

/-! ### Runs of edits -/

/-- What is left of an arena after the edits of some steps. -/
def afterSteps (r : RootedArena) (steps : List EditStep) : RootedArena :=
  steps.foldl (fun r step => (r.reparse step.config step.text step.edits).1) r

/-- An arena holds the last tree of a run of edits after its steps, and is well formed. -/
theorem Sound.afterSteps {t : Tree} {steps : List EditStep} (h : r.Sound) (htree : r.tree = t)
    (hrun : EditRun t steps) :
    (r.afterSteps steps).Sound ∧ (r.afterSteps steps).tree = lastTree t steps := by
  induction hrun generalizing r with
  | nil t => exact ⟨h, htree⟩
  | @cons config t t' edits text stats rest hstep _ ih =>
    have hagrees := h.reparse config text edits
    rw [htree, hstep] at hagrees
    exact ih hagrees.sound hagrees.tree_eq

/-- A parsed tree that is edited again and again in the arena that holds it stays in a well-formed
arena, and is the tree that reading and editing values gives. -/
theorem afterSteps_of_parse {entrance : Entrance} {text : String} {t : Tree}
    {steps : List EditStep} (hparse : parse entrance config text = .ok t)
    (hrun : EditRun t steps) :
    ((ofTree t).afterSteps steps).Sound ∧
      ((ofTree t).afterSteps steps).tree = lastTree t steps := by
  obtain ⟨hsound, htree⟩ := sound_ofTree (suited_of_parse hparse)
  exact hsound.afterSteps htree hrun

end RootedArena

end ScriptTree
