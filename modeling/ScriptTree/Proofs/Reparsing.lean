import ScriptTree.Proofs.Parsing
import ScriptTree.Proofs.Plans
import ScriptTree.Reparse.Apply

/-!
# Edited trees stay exact

When a tree that knows its place is brought up to date with an edited text, the new tree has the
new text. It knows its place as well, unless a run without text was given some; then it never
does.
-/

namespace ScriptTree

namespace Reparse

open ScriptTree.Tree

variable {config : Config} {c : Candidate} {t t' : Tree} {front text : String}

/-! ### One item -/

/-- What an item is read as by itself has the text of the item. -/
theorem readRun?_meets {limited : Prop} (hstack : config.maxReadingStack.isSome → limited)
    (hfolding : config.maxTraceFrames.isSome → limited) (c : Candidate) (text : String) :
    Meets limited (readRun? config c text) fun run? =>
      ∀ run, run? = some run → textOfForm run = text := by
  have hrests := BlockReader.rests_start c.kind .single (some c.level) .itemStart
  have hempty := BlockReader.text_start c.kind .single (some c.level) .itemStart
  have hrun := @Automaton.run_meets config limited hstack hfolding
    (.block (.ofSingleItem c.kind c.level)) hrests trivial hempty text
  refine hrun.bind fun result hresult => meets_pure.2 ?_
  obtain ⟨⟨kind, form, htoken⟩, htext⟩ := hresult
  split
  · exact nofun
  · rename_i hleaks
    simp only [Bool.or_eq_true, not_or, Bool.not_eq_true', Bool.not_eq_false,
      List.isEmpty_iff] at hleaks
    obtain ⟨⟨⟨⟨_, hleading⟩, htrailing⟩, _⟩, _⟩ := hleaks
    rw [htoken]
    rintro run h
    obtain rfl : form = run := Option.some.inj h
    rw [← htext, htoken, hleading, htrailing]
    simp

/-- The edited text of a run is what the edits make of its text. -/
theorem apply_of_editedText? {base : Nat} {run : List Entry} {own : List Edit}
    (h : editedText? base run own = some text) :
    ∃ batch, EditBatch.ofEdits (own.map (Edit.within base)) = .ok batch ∧
      batch.apply (textOfForm run) = .ok text := by
  have hbatch : (EditBatch.ofEdits (own.map (Edit.within base))).bind
      (fun batch => batch.apply (textOfForm run)) = .ok text := by
    unfold editedText? at h
    dsimp only at h
    split at h
    · rename_i new hnew
      split at h
      · cases h
      · rwa [Option.some.inj h] at hnew
    · cases h
  exact bind_eq_ok_iff.1 hbatch

/-- What may stand in the place of an item's run is what the edited text is read as, and matches the
run. -/
theorem reread?_eq_some {own : List Edit} {raw : List Entry}
    (h : reread? config t c own = .ok (some raw)) :
    ∃ opener newText, (c.runIn t).head? = some opener ∧
      editedText? opener.2.extent.start.offset (c.runIn t) own = some newText ∧
      readRun? config c newText = .ok (some raw) ∧ matchesRun (c.runIn t) raw = true := by
  unfold reread? at h
  dsimp only at h
  split at h
  · cases h
  rename_i role opener hopener
  split at h
  · cases h
  split at h
  · cases h
  rename_i newText hedited
  obtain ⟨raw?, hread, h⟩ := bind_eq_ok_iff.1 h
  cases raw? with
  | none => cases h
  | some newRun =>
    have hmatches := Except.ok.inj h
    split at hmatches
    · rename_i hmatch
      obtain rfl := Option.some.inj hmatches
      exact ⟨(role, opener), newText, hopener, hedited, hread, hmatch⟩
    · cases hmatches

/-- An item takes up edits if the run that their text is read as matches its own. -/
theorem spliceItem_eq_some {own : List Edit} {n : Nat}
    (h : spliceItem config t c own = .ok (some (t', n))) :
    ∃ opener item newText raw, (c.runIn t).head? = some opener ∧
      (c.runIn t).getLast? = some item ∧
      editedText? opener.2.extent.start.offset (c.runIn t) own = some newText ∧
      readRun? config c newText = .ok (some raw) ∧ matchesRun (c.runIn t) raw = true ∧
      t' = replaceRun item.2.extent.stop (placeForm opener.2.extent.start raw).2 c.first
        (c.last + 1 - c.first) (placeForm opener.2.extent.start raw).1 c.path t ∧
      n = blockItemsOfForm true (placeForm opener.2.extent.start raw).1 := by
  obtain ⟨raw?, hraw, h⟩ := bind_eq_ok_iff.1 h
  cases raw? with
  | none => cases h
  | some raw =>
    obtain ⟨opener, newText, hopener, hedited, hread, hmatches⟩ := reread?_eq_some hraw
    have hreplaced : replaceItem? t c raw = some (t', n) := Except.ok.inj h
    unfold replaceItem? at hreplaced
    split at hreplaced
    · rename_i role first role' item hfirst hitem
      obtain rfl := Option.some.inj (hopener.symm.trans hfirst)
      obtain ⟨rfl, rfl⟩ := Prod.mk.inj (Option.some.inj hreplaced)
      exact ⟨_, _, newText, raw, hopener, hitem, hedited, hread, hmatches, rfl, rfl⟩
    · cases hreplaced

/-- An item that takes up edits is replaced by one that is read from the edited text; its items are
counted. -/
theorem spliceItem_spec {own : List Edit} {n : Nat} (hfits : c.FitsAt .start c.path t front text)
    (h : spliceItem config t c own = .ok (some (t', n))) :
    ∃ raw newRun newText, readRun? config c newText = .ok (some raw) ∧
      newRun = (placeForm (Position.start.advance front) raw).1 ∧
      newRun.length = c.last + 1 - c.first ∧ textOfForm newRun = newText ∧
      t' = replaceRun (Position.start.advance (front ++ text))
        (Position.start.advance (front ++ newText)) c.first (c.last + 1 - c.first) newRun c.path t ∧
      n = blockItemsOfForm true newRun ∧
      ∃ batch, EditBatch.ofEdits (own.map (Edit.within front.utf8ByteSize)) = .ok batch ∧
        batch.apply text = .ok newText := by
  obtain ⟨run, back, hrun, rfl, ⟨opener, hopener, hstart⟩, item, hitem, hstop⟩ := hfits
  obtain ⟨opener', item', newText, raw, hopener', hitem', hedited, hread, hmatches, rfl, rfl⟩ :=
    spliceItem_eq_some h
  rw [hrun.runIn_eq] at hopener' hitem' hedited hmatches
  obtain rfl : opener = opener' := Option.some.inj (hopener.symm.trans hopener')
  obtain rfl : item = item' := Option.some.inj (hitem.symm.trans hitem')
  have hmeets : Meets True (readRun? config c newText) fun run? =>
      ∀ run, run? = some run → textOfForm run = newText :=
    readRun?_meets (fun _ => trivial) (fun _ => trivial) c newText
  have htext := hmeets.of_ok hread raw rfl
  obtain ⟨hplaced, hend⟩ := text_placeForm (Position.start.advance front) raw
  rw [htext, ← Position.advance_append] at hend
  rw [hstart, Position.offset_advance] at hedited
  refine ⟨raw, _, newText, hread, rfl, ?_, by rw [hplaced, htext], ?_, by rw [hstart], ?_⟩
  · simp only [matchesRun, Bool.and_eq_true, beq_iff_eq] at hmatches
    rw [length_placeForm, ← hmatches.1, hrun.length_eq]
  · rw [hstart, hstop, hend]
  · have happly := apply_of_editedText? hedited
    rwa [show Position.start.offset + front.utf8ByteSize = front.utf8ByteSize from
      Nat.zero_add _] at happly

/-- A candidate that comes before another one, and ends before its end, still fits when that one
is replaced. -/
theorem Candidate.FitsAt.frame {c' : Candidate} {path path' : List Nat} {front' text' : String}
    {newRun : List Entry} {new : Position} (h : c.FitsAt .start path t front text)
    (h' : c'.FitsAt .start path' t front' text')
    (hprecedes : Precedes c'.first (c'.last + 1 - c'.first) path' c.first path)
    (hstop : (front' ++ text').utf8ByteSize < (front ++ text).utf8ByteSize) :
    c'.FitsAt .start path' (replaceRun (Position.start.advance (front ++ text)) new c.first
      (c.last + 1 - c.first) newRun path t) front' text' := by
  obtain ⟨run, back, hrun, _⟩ := h
  obtain ⟨run', back', hrun', rfl, ⟨opener, hopener, hstart⟩, item, hitem, hend⟩ := h'
  obtain ⟨back'', hframe⟩ := hrun.frame (Position.start.advance (front ++ text)) new newRun hrun'
    hprecedes
  have hlt {s : String} (hle : s.utf8ByteSize ≤ (front' ++ textOfForm run').utf8ByteSize) :
      (Position.start.advance s).shift (Position.start.advance (front ++ text)) new =
        Position.start.advance s := by
    refine Position.shift_of_lt _ ?_
    simp only [Position.offset_advance]
    omega
  refine ⟨_, back'', hframe, textOfForm_shiftForm _ _ _, ?_, ?_⟩
  · rw [shiftForm_eq_map, List.head?_map, Option.mem_def.1 hopener]
    refine ⟨_, rfl, ?_⟩
    rw [extent_shift, Extent.shift, hstart, hlt]
    rw [String.utf8ByteSize_append]
    omega
  · rw [shiftForm_eq_map, List.getLast?_map, Option.mem_def.1 hitem]
    refine ⟨_, rfl, ?_⟩
    rw [extent_shift, Extent.shift, hend, hlt (Nat.le_refl _)]

/-! ### Many items -/

/-- Some groups were taken up, the last ones first: the text is what their edits make of the text
before, and items that none of these edits touches still fit. -/
structure Underway (old t : Tree) (done : List Edit) (groups : List Group) : Prop where
  order : InOrder (editsOf groups ++ done)
  sound : ∀ g ∈ groups, g.Sound old
  applied : EditBatch.apply ⟨done⟩ old.text = .ok t.text
  fits : ∀ g ∈ groups, ∀ c ∈ g.candidates, (∀ e ∈ done, c.touches e = false) →
    ∀ front text, c.StandsAt .start c.path old front text → c.FitsAt .start c.path t front text

/-- An item that is neither touched by an edit behind its own edits nor by one before them lies
between both. -/
theorem Underway.between {old : Tree} {done : List Edit} {g : Group} {earlier : List Group}
    (h : Underway old t done (g :: earlier)) (hc : c ∈ g.candidates)
    (hforeign : ∀ e ∈ earlier.flatMap Group.edits ++ done, c.touches e = false) :
    (∀ e ∈ done, c.span.stop < e.offset) ∧
      ∀ e ∈ earlier.flatMap Group.edits, e.stop < c.span.start := by
  have hsound := h.sound g List.mem_cons_self
  obtain ⟨own, hown⟩ := List.exists_mem_of_ne_nil g.edits hsound.nonempty
  have hcovers := hsound.covers c hc own hown
  have horder := h.order
  rw [editsOf_cons, List.append_assoc] at horder
  have hstop (e : Edit) (he : e ∈ editsOf earlier ++ (g.edits ++ done)) : e.offset ≤ e.stop := by
    have heq := Edit.stop_eq (horder.fits e he)
    omega
  have hownStop := hstop own (by simp [hown])
  constructor
  · intro e he
    have hlater := (List.pairwise_append.1 (List.pairwise_append.1 horder.apart).2.1).2.2 own hown
      e he
    have htouch := hforeign e (List.mem_append_right _ he)
    have heStop := hstop e (by simp [he])
    simp only [Candidate.touches, Bool.and_eq_false_iff, decide_eq_false_iff_not] at htouch
    omega
  · intro e he
    have hmem : e ∈ editsOf earlier := by simpa [editsOf] using he
    have hearlier := (List.pairwise_append.1 horder.apart).2.2 e hmem own (by simp [hown])
    have htouch := hforeign e (List.mem_append_left _ he)
    have heStop := hstop e (by simp [hmem])
    simp only [Candidate.touches, Bool.and_eq_false_iff, decide_eq_false_iff_not] at htouch
    omega

/-- Items that may take up earlier groups of edits begin and end before an item that takes up the
edits of the last group. -/
theorem Underway.less {old : Tree} {done : List Edit} {g g' : Group} {earlier : List Group}
    {c' : Candidate} (h : Underway old t done (g :: earlier)) (hc : c ∈ g.candidates)
    (hforeign : ∀ e ∈ earlier.flatMap Group.edits ++ done, c.touches e = false)
    (hg' : g' ∈ earlier) (hc' : c' ∈ g'.candidates)
    (huntouched : ∀ e ∈ g.edits ++ done, c'.touches e = false) :
    c'.span.start < c.span.start ∧ c'.span.stop < c.span.stop := by
  have horder := h.order
  have hsound := h.sound g List.mem_cons_self
  have hsound' := h.sound g' (List.mem_cons_of_mem _ hg')
  obtain ⟨e, he⟩ := List.exists_mem_of_ne_nil g.edits hsound.nonempty
  obtain ⟨e', he'⟩ := List.exists_mem_of_ne_nil g'.edits hsound'.nonempty
  have hmem' : e' ∈ earlier.flatMap Group.edits := List.mem_flatMap.2 ⟨g', hg', he'⟩
  have hcovers := hsound.covers c hc e he
  have hcovers' := hsound'.covers c' hc' e' he'
  have hlt := (h.between hc hforeign).2 e' hmem'
  have hstop := Edit.stop_eq (horder.fits e (by simp [he]))
  have hstop' := Edit.stop_eq (horder.fits e' (by simp [editsOf]; exact .inl ⟨g', hg', he'⟩))
  have htouch := huntouched e (List.mem_append_left _ he)
  simp only [Candidate.touches, Bool.and_eq_false_iff, decide_eq_false_iff_not] at htouch
  omega

/-- Items that may take up earlier groups of edits come before an item that takes up the edits of
the last group. -/
theorem Underway.precedes {old : Tree} {done : List Edit} {g g' : Group} {earlier : List Group}
    {c' : Candidate} (h : Underway old t done (g :: earlier)) (hc : c ∈ g.candidates)
    (hforeign : ∀ e ∈ earlier.flatMap Group.edits ++ done, c.touches e = false)
    (hg' : g' ∈ earlier) (hc' : c' ∈ g'.candidates)
    (huntouched : ∀ e ∈ g.edits ++ done, c'.touches e = false) :
    Precedes c'.first (c'.last + 1 - c'.first) c'.path c.first c.path := by
  obtain ⟨hstart, hstop⟩ := h.less hc hforeign hg' hc' huntouched
  obtain ⟨_, _, hstands⟩ := (h.sound g List.mem_cons_self).stands c hc
  obtain ⟨_, _, hstands'⟩ := (h.sound g' (List.mem_cons_of_mem _ hg')).stands c' hc'
  exact hstands.precedes hstands' hstart hstop

/-- What is known of an item that takes up the edits of the last group. -/
structure Taken (old t t' : Tree) (c : Candidate) (front text newText : String) : Prop where
  stands : c.StandsAt .start c.path old front text
  fits : c.FitsAt .start c.path t front text
  replaced : ∃ newRun, newRun.length = c.last + 1 - c.first ∧
    FormPlacedFrom (Position.start.advance front) newRun ∧ textOfForm newRun = newText ∧
    t' = replaceRun (Position.start.advance (front ++ text))
      (Position.start.advance (front ++ newText)) c.first (c.last + 1 - c.first) newRun c.path t
  read : ∃ config raw, readRun? config c newText = .ok (some raw) ∧
    c.runIn t' = (placeForm (Position.start.advance front) raw).1

/-- The text with an item read again is what the edits up to then make of the text before. -/
theorem Underway.applied_replaceRun {old : Tree} {done : List Edit} {g : Group}
    {earlier : List Group} {newRun : List Entry} {batch : EditBatch} {stop stop' : Position}
    (h : Underway old t done (g :: earlier)) (hc : c ∈ g.candidates)
    (hforeign : ∀ e ∈ earlier.flatMap Group.edits ++ done, c.touches e = false)
    (hstands : c.StandsAt .start c.path old front text)
    (hfits : c.FitsAt .start c.path t front text)
    (hlength : newRun.length = c.last + 1 - c.first)
    (hbatch : EditBatch.ofEdits (g.edits.map (Edit.within front.utf8ByteSize)) = .ok batch)
    (happly : batch.apply text = .ok (textOfForm newRun)) :
    EditBatch.apply ⟨g.edits ++ done⟩ old.text =
      .ok (replaceRun stop stop' c.first (c.last + 1 - c.first) newRun c.path t).text := by
  have horder := h.order
  have hsound := h.sound g List.mem_cons_self
  obtain ⟨hafter, -⟩ := h.between hc hforeign
  obtain ⟨_, back, hrun, hrunText, _⟩ := hfits
  obtain ⟨_, back', hrun', hrunText', _⟩ := hstands.fits
  have hspan := congrArg Span.start hstands.span_eq
  have hspan' := congrArg Span.stop hstands.span_eq
  simp only [Position.offset_advance, Position.start, Nat.zero_add] at hspan hspan'
  have hown : InOrder g.edits := horder.sublist (by simp)
  have hstart : ∀ e ∈ g.edits, front.utf8ByteSize ≤ e.offset := fun e he => by
    have hle := (hsound.covers c hc e he).1
    omega
  -- The edits are in order, so that sorting them leaves them as they are.
  have hsorted := (EditBatch.inOrder_of_ofEdits hbatch).1
  rw [EditBatch.sort_eq_of_inOrder (hown.within hstart)] at hsorted
  obtain rfl : batch = ⟨g.edits.map (Edit.within front.utf8ByteSize)⟩ :=
    congrArg EditBatch.mk hsorted
  have happlied := h.applied
  rw [hrun.text_eq, hrun'.text_eq, hrunText, hrunText'] at happlied
  rw [(hrun.replaceRun _ _ hlength).text_eq, hrun'.text_eq, hrunText']
  refine EditBatch.apply_append hown hstart (fun e he => ?_) happly happlied
  have hlt := hafter e he
  omega

/-- Items that may take up earlier groups of edits end where an item that takes up the edits of
the last group begins, or before. -/
theorem Underway.stop_le {old : Tree} {done : List Edit} {g g' : Group} {earlier : List Group}
    {c' : Candidate} (h : Underway old t done (g :: earlier)) (hc : c ∈ g.candidates)
    (hforeign : ∀ e ∈ earlier.flatMap Group.edits ++ done, c.touches e = false)
    (hg' : g' ∈ earlier) (hc' : c' ∈ g'.candidates)
    (huntouched : ∀ e ∈ g.edits ++ done, c'.touches e = false) :
    c'.span.stop ≤ c.span.start := by
  obtain ⟨_, _, hstands⟩ := (h.sound g List.mem_cons_self).stands c hc
  obtain ⟨_, _, hstands'⟩ := (h.sound g' (List.mem_cons_of_mem _ hg')).stands c' hc'
  obtain ⟨_, _, hrun, _⟩ := hstands.fits
  obtain ⟨_, _, hrun', rfl, _⟩ := hstands'.fits
  have hle := hrun.stop_le hrun' (h.precedes hc hforeign hg' hc' huntouched)
  simp only [hstands.span_eq, hstands'.span_eq, Position.offset_advance]
  omega

/-- An item that takes up the edits of the last group leaves the groups before it to be taken up. -/
theorem Underway.splice {old : Tree} {done : List Edit} {g : Group} {earlier : List Group} {n : Nat}
    (h : Underway old t done (g :: earlier)) (hc : c ∈ g.candidates)
    (hforeign : ∀ e ∈ earlier.flatMap Group.edits ++ done, c.touches e = false)
    (hsplice : spliceItem config t c g.edits = .ok (some (t', n))) :
    Underway old t' (g.edits ++ done) earlier ∧
      ∃ front text newText, Taken old t t' c front text newText ∧
        n = blockItemsOfForm true (c.runIn t') ∧
        ∀ g' ∈ earlier, ∀ c' ∈ g'.candidates, (∀ e ∈ g.edits ++ done, c'.touches e = false) →
          c'.span.stop ≤ c.span.start ∧ c'.span.stop < c.span.stop := by
  obtain ⟨front, text, hstands⟩ := (h.sound g List.mem_cons_self).stands c hc
  have hfits := h.fits g List.mem_cons_self c hc
    (fun e he => hforeign e (List.mem_append_right _ he)) front text hstands
  obtain ⟨raw, newRun, newText, hread, hraw, hlength, rfl, rfl, rfl, batch, hbatch, happly⟩ :=
    spliceItem_spec hfits hsplice
  have hrunIn : c.runIn (replaceRun (Position.start.advance (front ++ text))
      (Position.start.advance (front ++ textOfForm newRun)) c.first (c.last + 1 - c.first) newRun
      c.path t) = newRun := by
    obtain ⟨_, _, hrun, _⟩ := hfits
    exact (hrun.replaceRun _ _ hlength).runIn_eq
  have hplaced : FormPlacedFrom (Position.start.advance front) newRun :=
    hraw ▸ formPlacedFrom_placeForm _ raw
  have hunderway : Underway old (replaceRun (Position.start.advance (front ++ text))
      (Position.start.advance (front ++ textOfForm newRun)) c.first (c.last + 1 - c.first) newRun
      c.path t) (g.edits ++ done) earlier :=
    { order := by simpa using h.order
      sound := fun g' hg' => h.sound g' (List.mem_cons_of_mem _ hg')
      applied := h.applied_replaceRun hc hforeign hstands hfits hlength hbatch happly
      fits := fun g' hg' c' hc' htouches front' text' hstands' => by
        have hfits' := h.fits g' (List.mem_cons_of_mem _ hg') c' hc'
          (fun e he => htouches e (List.mem_append_right _ he)) front' text' hstands'
        have hprecedes := h.precedes hc hforeign hg' hc' htouches
        obtain ⟨-, hstop⟩ := h.less hc hforeign hg' hc' htouches
        refine hfits.frame hfits' hprecedes ?_
        simp only [hstands.span_eq, hstands'.span_eq, Position.offset_advance] at hstop
        omega }
  have htaken : Taken old t _ c front text (textOfForm newRun) :=
    { stands := hstands
      fits := hfits
      replaced := ⟨newRun, hlength, hplaced, rfl, rfl⟩
      read := ⟨config, raw, hread, hrunIn.trans hraw⟩ }
  exact ⟨hunderway, front, text, _, htaken, congrArg _ hrunIn.symm,
    fun g' hg' c' hc' htouches => ⟨h.stop_le hc hforeign hg' hc' htouches,
      (h.less hc hforeign hg' hc' htouches).2⟩⟩

/-! ### Runs without text -/

/-- A run that was read again, as it was and as it became. -/
structure Splice where
  old : List Entry
  new : List Entry

/-- Whether the run had no text and was given some. -/
def Splice.Fills (s : Splice) : Prop :=
  textOfForm s.old = "" ∧ textOfForm s.new ≠ ""

/-- The first of the candidates that takes up the edits of its group, with the tree that it
makes. -/
def taker? (config : Config) (tree : Tree) (own foreign : List Edit) :
    List Candidate → Option (Candidate × Tree)
  | [] => none
  | c :: outer =>
    if foreign.any c.touches then none
    else
      match spliceItem config tree c own with
      | .ok (some (next, _)) => some (c, next)
      | .ok none => taker? config tree own foreign outer
      | .error _ => none

/-- The runs that are read again when groups of edits are taken up, the last one first. -/
def splicesOf (config : Config) (tree : Tree) (done : List Edit) : List Group → List Splice
  | [] => []
  | group :: earlier =>
    let foreign := earlier.flatMap Group.edits ++ done
    match taker? config tree group.edits foreign group.candidates with
    | some (c, next) =>
      ⟨c.runIn tree, c.runIn next⟩ :: splicesOf config next (group.edits ++ done) earlier
    | none => []

/-- The runs that are read again when edits are taken up, unless the whole text is. -/
def splices (config : Config) (tree : Tree) (text : String) (edits : List Edit) : List Splice :=
  match (reparse config tree text edits).outcome, EditBatch.ofEdits edits with
  | .ok stats, .ok batch =>
    if stats.full then []
    else
      match plan? config tree batch.edits with
      | some groups => splicesOf config tree [] groups
      | none => []
  | _, _ => []

/-- An item that takes up the edits of a group is one that no other edit touches. -/
theorem spliceFirst_spec {own foreign : List Edit} {candidates : List Candidate} {n : Nat}
    (h : spliceFirst config t own foreign candidates = .ok (some (t', n))) :
    ∃ c ∈ candidates, (∀ e ∈ foreign, c.touches e = false) ∧
      spliceItem config t c own = .ok (some (t', n)) ∧
      taker? config t own foreign candidates = some (c, t') := by
  induction candidates with
  | nil => cases h
  | cons c outer ih =>
    rw [spliceFirst] at h
    split at h
    · cases h
    · rename_i hforeign
      have huntouched : ∀ e ∈ foreign, c.touches e = false := by
        simpa using hforeign
      obtain ⟨result?, hsplice, h⟩ := bind_eq_ok_iff.1 h
      cases result? with
      | some result =>
        obtain rfl := Option.some.inj (Except.ok.inj h)
        exact ⟨c, List.mem_cons_self, huntouched, hsplice,
          by rw [taker?, if_neg hforeign, hsplice]⟩
      | none =>
        obtain ⟨c', hc', huntouched', hsplice', htaker⟩ := ih h
        refine ⟨c', List.mem_cons_of_mem _ hc', huntouched', hsplice', ?_⟩
        rw [taker?, if_neg hforeign, hsplice]
        exact htaker

/-- What an item replaces, and by what. -/
theorem Taken.splice_eq {old : Tree} {newText : String} (h : Taken old t t' c front text newText) :
    textOfForm (c.runIn t) = text ∧ textOfForm (c.runIn t') = newText := by
  obtain ⟨run, back, hrun, htext, _⟩ := h.fits
  obtain ⟨newRun, hlength, _, hnewText, rfl⟩ := h.replaced
  exact ⟨by rw [hrun.runIn_eq, htext], by rw [(hrun.replaceRun _ _ hlength).runIn_eq, hnewText]⟩

/-- A tree that knows its place still does after an item is read again, if the item's run had
text or has none. -/
theorem Taken.placedFrom {old : Tree} {newText : String} (h : Taken old t t' c front text newText)
    (hplaced : t.PlacedFrom .start) (hfill : ¬ Splice.Fills ⟨c.runIn t, c.runIn t'⟩) :
    t'.PlacedFrom .start := by
  simp only [Splice.Fills, h.splice_eq, not_and, ne_eq, Decidable.not_not] at hfill
  obtain ⟨run, back, hrun, rfl, _⟩ := h.fits
  obtain ⟨newRun, hlength, hnew, rfl, rfl⟩ := h.replaced
  simp only [Position.advance_append]
  exact hrun.placedFrom_replaceRun hplaced rfl hnew hfill hlength

/-- A run without text that is given some leaves a token that is late. -/
theorem Taken.isLate_of_fills {old : Tree} {newText : String}
    (h : Taken old t t' c front text newText) (hplaced : t.PlacedFrom .start)
    (hfill : Splice.Fills ⟨c.runIn t, c.runIn t'⟩) : t'.IsLate c.span.stop 0 := by
  simp only [Splice.Fills, h.splice_eq] at hfill
  obtain ⟨rfl, hne⟩ := hfill
  have hspan := congrArg Span.stop h.stands.span_eq
  obtain ⟨run, back, hrun, htext, _⟩ := h.fits
  obtain ⟨newRun, hlength, hnew, rfl, rfl⟩ := h.replaced
  have hsize : (textOfForm newRun).utf8ByteSize ≠ 0 := fun h =>
    hne (String.utf8ByteSize_eq_zero_iff.1 h)
  rw [String.append_empty] at hspan ⊢
  rw [hspan]
  refine hrun.isLate_replaceRun hplaced rfl ?_
  rw [Position.offset_advance, Position.offset_advance, String.utf8ByteSize_append]
  omega

/-- A token that is late behind an item stays late when the item is read again. -/
theorem Taken.isLate {old : Tree} {newText : String} {bound : Nat}
    (h : Taken old t t' c front text newText) (hlate : t.IsLate bound 0)
    (hlt : c.span.stop < bound) : ∃ bound', t'.IsLate bound' 0 ∧ c.span.start < bound' := by
  have hspan := h.stands.span_eq
  obtain ⟨run, back, hrun, rfl, _⟩ := h.fits
  obtain ⟨newRun, hlength, hnew, rfl, rfl⟩ := h.replaced
  have hoffset (s : String) : (Position.start.advance s).offset = s.utf8ByteSize := by
    rw [Position.offset_advance]
    exact Nat.zero_add _
  simp only [hspan, hoffset] at hlt ⊢
  refine ⟨bound - (front ++ textOfForm run).utf8ByteSize +
      (front ++ textOfForm newRun).utf8ByteSize,
    hrun.isLate_replaceRun_of_isLate hlate (by omega) (by rw [hoffset]; omega)
      (by rw [hoffset]; omega) (by rw [hoffset, hoffset]; omega) hlength, ?_⟩
  have hsum : (front ++ textOfForm newRun).utf8ByteSize = _ := String.utf8ByteSize_append
  omega

/-- Whether a token is late behind all items that may still take up edits. -/
def Late (t : Tree) (done : List Edit) (groups : List Group) : Prop :=
  ∃ bound, t.IsLate bound 0 ∧
    ∀ g ∈ groups, ∀ c ∈ g.candidates, (∀ e ∈ done, c.touches e = false) → c.span.stop < bound

/-- What becomes of a tree when the rest of the groups is taken up: it keeps knowing its place
unless a run is filled, and then it no longer does. -/
structure Settles (t t' : Tree) (done : List Edit) (groups : List Group)
    (splices : List Splice) : Prop where
  placed : t.PlacedFrom .start → (∀ s ∈ splices, ¬ s.Fills) → t'.PlacedFrom .start
  filled : t.PlacedFrom .start → (∃ s ∈ splices, s.Fills) → ∃ bound, t'.IsLate bound 0
  late : Late t done groups → ∃ bound, t'.IsLate bound 0

/-- A tree of which no group is taken up stays as it is. -/
theorem settles_nil (t : Tree) (done : List Edit) (groups : List Group) :
    Settles t t done groups [] where
  placed hplaced _ := hplaced
  filled := by
    rintro _ ⟨s, hs, _⟩
    cases hs
  late := fun ⟨bound, hlate, _⟩ => ⟨bound, hlate⟩

/-- One more group that is taken up before the rest. -/
theorem Settles.cons {old next : Tree} {done : List Edit} {g : Group} {earlier : List Group}
    {rest : List Splice} {newText : String} (hc : c ∈ g.candidates)
    (huntouched : ∀ e ∈ done, c.touches e = false)
    (htaken : Taken old t next c front text newText)
    (hless : ∀ g' ∈ earlier, ∀ c' ∈ g'.candidates,
      (∀ e ∈ g.edits ++ done, c'.touches e = false) →
        c'.span.stop ≤ c.span.start ∧ c'.span.stop < c.span.stop)
    (h : Settles next t' (g.edits ++ done) earlier rest) :
    Settles t t' done (g :: earlier) (⟨c.runIn t, c.runIn next⟩ :: rest) where
  placed := by
    intro hplaced hfills
    refine h.placed (htaken.placedFrom hplaced (hfills _ List.mem_cons_self)) fun s hs => ?_
    exact hfills s (List.mem_cons_of_mem _ hs)
  filled := by
    rintro hplaced ⟨s, hs, hfills⟩
    by_cases hfill : Splice.Fills ⟨c.runIn t, c.runIn next⟩
    · exact h.late ⟨c.span.stop, htaken.isLate_of_fills hplaced hfill,
        fun g' hg' c' hc' huntouched' => (hless g' hg' c' hc' huntouched').2⟩
    · refine h.filled (htaken.placedFrom hplaced hfill) ⟨s, ?_, hfills⟩
      rcases List.mem_cons.1 hs with rfl | hs
      · exact absurd hfills hfill
      · exact hs
  late := by
    rintro ⟨bound, hlate, hbound⟩
    obtain ⟨bound', hlate', hlt⟩ :=
      htaken.isLate hlate (hbound g List.mem_cons_self c hc huntouched)
    refine h.late ⟨bound', hlate', fun g' hg' c' hc' huntouched' => ?_⟩
    have hle := (hless g' hg' c' hc' huntouched').1
    omega

/-- A parsed tree knows its place. -/
theorem placedFrom_of_parse {entrance : Entrance} (h : parse entrance config text = .ok t) :
    t.PlacedFrom .start := by
  have hpromises : Promises (parse entrance config text) fun t => t.PlacedFrom .start :=
    (promises_true _).bind fun result _ => (promises_true _).bind fun root _ =>
      promises_pure.2 (placedFrom_placeFrom .start root)
  exact hpromises t h

/-- Reading the whole text again gives what it is parsed to, and counts all items. -/
theorem parse_of_full {stats : ReparseStats} (h : full config t text = ⟨t', .ok stats⟩) :
    parse (.ofTree t) config text = .ok t' ∧ stats = ⟨0, t'.blockItems, true⟩ := by
  unfold full at h
  split at h
  · rename_i new hparse
    simp only [Reparsed.mk.injEq, Except.ok.injEq] at h
    obtain ⟨rfl, rfl⟩ := h
    exact ⟨hparse, rfl⟩
  · cases (Reparsed.mk.inj h).2

/-- Reading the whole text again gives a tree of it that knows its place. -/
theorem full_spec {stats : ReparseStats} (h : full config t text = ⟨t', .ok stats⟩) :
    t'.text = text ∧ t'.PlacedFrom .start ∧ stats.full = true := by
  obtain ⟨hparse, rfl⟩ := parse_of_full h
  exact ⟨text_of_parse hparse, placedFrom_of_parse hparse, rfl⟩

/-- Taking up groups of edits, the last one first, gives a tree of the edited text. -/
theorem spliceGroups_spec {old : Tree} {done : List Edit} {count : Nat} {groups : List Group}
    {stats : ReparseStats} (h : Underway old t done groups)
    (happly : EditBatch.apply ⟨editsOf groups ++ done⟩ old.text = .ok text)
    (hresult : spliceGroups config text t done count groups = ⟨t', .ok stats⟩) :
    t'.text = text ∧ (stats.full = true → t'.PlacedFrom .start) ∧
      (stats.full = false → Settles t t' done groups (splicesOf config t done groups)) := by
  induction groups generalizing t done count with
  | nil =>
    simp only [spliceGroups, Reparsed.mk.injEq, Except.ok.injEq] at hresult
    obtain ⟨rfl, rfl⟩ := hresult
    have happlied := h.applied
    rw [editsOf_nil, List.nil_append, happlied] at happly
    exact ⟨Except.ok.inj happly, nofun, fun _ => settles_nil t done []⟩
  | cons g earlier ih =>
    rw [spliceGroups] at hresult
    split at hresult
    · simp at hresult
    · obtain ⟨htext, hplaced, hfull⟩ := full_spec hresult
      exact ⟨htext, fun _ => hplaced, fun hnot => by rw [hfull] at hnot; cases hnot⟩
    · rename_i next more hfirst
      obtain ⟨c, hc, hforeign, hsplice, htaker⟩ := spliceFirst_spec hfirst
      obtain ⟨hnext, front, text, newText, htaken, -, hless⟩ := h.splice hc hforeign hsplice
      obtain ⟨htext, hfull, hsettles⟩ := ih hnext (by simpa using happly) hresult
      refine ⟨htext, hfull, fun hnot => ?_⟩
      rw [splicesOf, htaker]
      exact (hsettles hnot).cons hc (fun e he => hforeign e (List.mem_append_right _ he)) htaken
        hless

/-- Planned groups of edits can be taken up. -/
theorem underway_of_plan? {edits : List Edit} {batch : EditBatch} {groups : List Group}
    (hplaced : t.NodesPlacedFrom true .start) (hbatch : EditBatch.ofEdits edits = .ok batch)
    (hplan : plan? config t batch.edits = some groups) :
    Underway t t [] groups ∧ editsOf groups = batch.edits := by
  obtain ⟨_, horder⟩ := EditBatch.inOrder_of_ofEdits hbatch
  obtain ⟨hsound, hedits⟩ := plan?_sound hplaced horder.ascending hplan
  exact ⟨{ order := by rwa [List.append_nil, hedits]
           sound := hsound
           applied := EditBatch.apply_eq_ok_iff.2 rfl
           fits := fun _ _ _ _ _ _ _ hstands => hstands.fits }, hedits⟩

theorem ofEdits_nil : EditBatch.ofEdits [] = .ok ⟨[]⟩ := by
  simp [EditBatch.ofEdits, EditBatch.sort, EditBatch.overlap?]

/-- How edits are taken up: nothing changes, the whole text is read again, or all of them are in
planned groups. -/
theorem reparse_cases {edits : List Edit} {stats : ReparseStats}
    (h : reparse config t text edits = ⟨t', .ok stats⟩) :
    (edits = [] ∧ t' = t ∧ t.text = text ∧ stats = ⟨t.blockItems, 0, false⟩) ∨
      full config t text = ⟨t', .ok stats⟩ ∨
        ∃ batch groups, EditBatch.ofEdits edits = .ok batch ∧ batch.apply t.text = .ok text ∧
          plan? config t batch.edits = some groups ∧
          spliceGroups config text t [] 0 groups = ⟨t', .ok stats⟩ := by
  unfold reparse at h
  split at h
  · rename_i hsame
    simp only [Reparsed.mk.injEq, Except.ok.injEq] at h
    exact .inl ⟨List.isEmpty_iff.1 hsame.1, h.1.symm, hsame.2, h.2.symm⟩
  · split at h
    · exact .inr (.inl h)
    · rename_i batch hbatch
      split at h
      · rename_i applied g earlier happlied hplan
        split at h
        · rename_i heq
          exact .inr (.inr ⟨batch, g :: earlier, hbatch, heq ▸ happlied, hplan, h⟩)
        · exact .inr (.inl h)
      · exact .inr (.inl h)

end Reparse

open Reparse

/-- Bringing a tree that knows its place up to date with an edited text gives a tree of that text.
It knows its place exactly if no run without text was given some. -/
theorem reparse_spec {config : Config} {t t' : Tree} {text : String} {edits : List Edit}
    {stats : ReparseStats} (hplaced : t.PlacedFrom .start)
    (h : reparse config t text edits = ⟨t', .ok stats⟩) :
    t'.text = text ∧
      (t'.PlacedFrom .start ↔ ∀ s ∈ splices config t text edits, ¬ s.Fills) := by
  have hnone (hsplices : splices config t text edits = []) (hplaced : t'.PlacedFrom .start) :
      t'.PlacedFrom .start ↔ ∀ s ∈ splices config t text edits, ¬ s.Fills := by
    simp [hsplices, hplaced]
  rcases reparse_cases h with ⟨rfl, rfl, htext, rfl⟩ | hfull |
    ⟨batch, groups, hbatch, happly, hplan, hresult⟩
  · refine ⟨htext, hnone ?_ hplaced⟩
    unfold splices
    rw [h, ofEdits_nil]
    rfl
  · obtain ⟨htext, hplaced', hstats⟩ := full_spec hfull
    refine ⟨htext, hnone ?_ hplaced'⟩
    unfold splices
    rw [h]
    cases EditBatch.ofEdits edits <;> simp [hstats]
  · obtain ⟨hstart, hedits⟩ := underway_of_plan? (hplaced.nodesPlacedFrom true) hbatch hplan
    obtain ⟨htext, hread, hsettles⟩ :=
      spliceGroups_spec hstart (by rwa [List.append_nil, hedits]) hresult
    refine ⟨htext, ?_⟩
    cases hstats : stats.full with
    | true =>
      refine hnone ?_ (hread hstats)
      unfold splices
      rw [h, hbatch]
      simp [hstats]
    | false =>
      have hsplices : splices config t text edits = splicesOf config t [] groups := by
        unfold splices
        rw [h, hbatch]
        simp [hstats, hplan]
      rw [hsplices]
      have hsettled := hsettles hstats
      refine ⟨fun hplaced' s hs hfills => ?_, hsettled.placed hplaced⟩
      obtain ⟨bound, hlate⟩ := hsettled.filled hplaced ⟨s, hs, hfills⟩
      exact Tree.PlacedFrom.not_isLate t' hplaced' bound hlate

end ScriptTree
