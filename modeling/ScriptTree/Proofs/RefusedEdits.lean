import ScriptTree.Proofs.Editable

/-!
# Edits that are refused half way

Bringing a tree up to date fails when an edited item, or the whole text, is nested too deeply. The
groups of edits behind that item have been taken up by then, and no others: the tree has the text
that these make of its old one. A tree that knew its place still does, unless a run without text was
given some.
-/

namespace ScriptTree

namespace Reparse

open ScriptTree.Tree

variable {config : Config} {t t' : Tree} {text : String} {e : ParseError}

/-- The groups of edits that are to be taken up, the last one first. There are none when the whole
text is read again without a plan. -/
def planned (config : Config) (tree : Tree) (text : String) (edits : List Edit) : List Group :=
  match EditBatch.ofEdits edits with
  | .error _ => []
  | .ok batch =>
    match batch.apply tree.text with
    | .error _ => []
    | .ok applied => if applied = text then (plan? config tree batch.edits).getD [] else []

/-- Where no item takes up the edits of a group, no run is read again for it. -/
theorem taker?_eq_none {own foreign : List Edit} {candidates : List Candidate}
    (h : ∀ result, spliceFirst config t own foreign candidates ≠ .ok (some result)) :
    taker? config t own foreign candidates = none := by
  induction candidates with
  | nil => rfl
  | cons c outer ih =>
    rw [taker?]
    by_cases hforeign : foreign.any c.touches = true
    · rw [if_pos hforeign]
    · rw [if_neg hforeign]
      rw [spliceFirst, if_neg hforeign] at h
      cases hsplice : spliceItem config t c own with
      | error e => rfl
      | ok result? =>
        simp only [hsplice, bind, Except.bind] at h
        cases result? with
        | some result => exact absurd rfl (h result)
        | none => exact ih h

/-- Where no item takes up the edits of the first group, no run is read again. -/
theorem splicesOf_eq_nil {done : List Edit} {g : Group} {earlier : List Group}
    (h : ∀ result, spliceFirst config t g.edits (earlier.flatMap Group.edits ++ done) g.candidates ≠
      .ok (some result)) :
    splicesOf config t done (g :: earlier) = [] := by
  rw [splicesOf, taker?_eq_none h]

/-- A text that cannot be read leaves the tree as it is. -/
theorem full_refused (h : full config t text = ⟨t', .error e⟩) : t' = t := by
  unfold full at h
  split at h
  · cases (Reparsed.mk.inj h).2
  · exact (Reparsed.mk.inj h).1.symm

/-- What taking up groups of edits leaves when it stops before the last of them: the runs that were
read again belong to the first groups of the list, and the tree has the text that these make. -/
structure Stops (old t t' : Tree) (done : List Edit) (groups : List Group) (made : List Splice) :
    Prop where
  fewer : made.length < groups.length
  applied : EditBatch.apply ⟨editsOf (groups.take made.length) ++ done⟩ old.text = .ok t'.text
  unchanged : made = [] → t' = t
  settles : Settles t t' done groups made

/-- Stopping at the first group. -/
theorem Underway.stops {old : Tree} {done : List Edit} {g : Group} {earlier : List Group}
    (h : Underway old t done (g :: earlier)) : Stops old t t done (g :: earlier) [] where
  fewer := Nat.succ_pos _
  applied := by simpa using h.applied
  unchanged _ := rfl
  settles := settles_nil t done _

/-- Stopping at a later group, when an item took up the edits of the first one. -/
theorem Stops.cons {old next : Tree} {done : List Edit} {c : Candidate} {g : Group}
    {earlier : List Group} {made : List Splice} {front item newText : String}
    (h : Stops old next t' (g.edits ++ done) earlier made) (hc : c ∈ g.candidates)
    (huntouched : ∀ e ∈ done, c.touches e = false)
    (htaken : Taken old t next c front item newText)
    (hless : ∀ g' ∈ earlier, ∀ c' ∈ g'.candidates,
      (∀ e ∈ g.edits ++ done, c'.touches e = false) →
        c'.span.stop ≤ c.span.start ∧ c'.span.stop < c.span.stop) :
    Stops old t t' done (g :: earlier) (⟨c.runIn t, c.runIn next⟩ :: made) where
  fewer := Nat.succ_lt_succ h.fewer
  applied := by simpa using h.applied
  unchanged := nofun
  settles := h.settles.cons hc huntouched htaken hless

/-- When taking up groups of edits fails, it stops where no item takes up the edits of a group. -/
theorem spliceGroups_refused {old : Tree} {done : List Edit} {count : Nat} {groups : List Group}
    (h : Underway old t done groups)
    (hresult : spliceGroups config text t done count groups = ⟨t', .error e⟩) :
    Stops old t t' done groups (splicesOf config t done groups) := by
  induction groups generalizing t done count with
  | nil =>
    rw [spliceGroups] at hresult
    cases (Reparsed.mk.inj hresult).2
  | cons g earlier ih =>
    rw [spliceGroups] at hresult
    split at hresult
    · rename_i hfirst
      obtain rfl : t = t' := (Reparsed.mk.inj hresult).1
      rw [splicesOf_eq_nil (by simp [hfirst])]
      exact h.stops
    · rename_i hfirst
      obtain rfl := full_refused hresult
      rw [splicesOf_eq_nil (by simp [hfirst])]
      exact h.stops
    · rename_i next more hfirst
      obtain ⟨c, hc, hforeign, hsplice, htaker⟩ := spliceFirst_spec hfirst
      obtain ⟨hnext, front, item, newText, htaken, -, hless⟩ := h.splice hc hforeign hsplice
      rw [splicesOf, htaker]
      exact (ih hnext hresult).cons hc (fun e he => hforeign e (List.mem_append_right _ he)) htaken
        hless

/-- Edits are refused either when the whole text is read again without a plan, which leaves the tree
as it is, or when the planned groups are taken up. -/
theorem refused_cases {edits : List Edit} (h : reparse config t text edits = ⟨t', .error e⟩) :
    (planned config t text edits = [] ∧ t' = t) ∨
      ∃ batch, EditBatch.ofEdits edits = .ok batch ∧
        plan? config t batch.edits = some (planned config t text edits) ∧
        spliceGroups config text t [] 0 (planned config t text edits) = ⟨t', .error e⟩ := by
  unfold reparse at h
  split at h
  · cases (Reparsed.mk.inj h).2
  cases hbatch : EditBatch.ofEdits edits with
  | error e =>
    simp only [hbatch] at h
    exact .inl ⟨by simp [planned, hbatch], full_refused h⟩
  | ok batch =>
    simp only [hbatch] at h
    split at h
    · rename_i applied g earlier happlied hplan
      split at h
      · rename_i heq
        have hplanned : planned config t text edits = g :: earlier := by
          simp [planned, hbatch, happlied, heq, hplan]
        exact .inr ⟨batch, rfl, by rw [hplanned, hplan], by rw [hplanned, h]⟩
      · rename_i hne
        exact .inl ⟨by simp [planned, hbatch, happlied, hne], full_refused h⟩
    · rename_i hnot
      refine .inl ⟨?_, full_refused h⟩
      cases happlied : batch.apply t.text with
      | error e => simp [planned, hbatch, happlied]
      | ok applied =>
        cases hplan : plan? config t batch.edits with
        | none => simp [planned, hbatch, happlied, hplan]
        | some groups =>
          cases groups with
          | nil => simp [planned, hbatch, happlied, hplan]
          | cons g earlier => exact absurd hplan (hnot applied g earlier happlied)

/-- Edits that are refused leave a tree of the text that those of the last planned groups make, as
many as there were runs read again. A tree that knew its place still does exactly if none of these
runs was without text and was given some. -/
theorem reparse_refused {edits : List Edit} (ht : t.Editable)
    (h : reparse config t text edits = ⟨t', .error e⟩) :
    let groups := planned config t text edits
    let made := splicesOf config t [] groups
    (groups ≠ [] → EditBatch.ofEdits edits = .ok ⟨editsOf groups⟩ ∧ made.length < groups.length) ∧
      EditBatch.apply ⟨editsOf (groups.take made.length)⟩ t.text = .ok t'.text ∧
      (made = [] → t' = t) ∧
      (t.PlacedFrom .start → (t'.PlacedFrom .start ↔ ∀ s ∈ made, ¬ s.Fills)) := by
  dsimp only
  rcases refused_cases h with ⟨hnone, rfl⟩ | ⟨batch, hbatch, hplan, hresult⟩
  · rw [hnone]
    refine ⟨fun hsome => absurd rfl hsome, EditBatch.apply_eq_ok_iff.2 rfl, fun _ => rfl, ?_⟩
    exact fun hplaced => ⟨fun _ => nofun, fun _ => hplaced⟩
  · obtain ⟨hstart, hedits⟩ := underway_of_plan? ht.placed hbatch hplan
    have hstops := spliceGroups_refused hstart hresult
    refine ⟨fun _ => ⟨by rw [hedits, hbatch], hstops.fewer⟩, ?_, hstops.unchanged, ?_⟩
    · simpa using hstops.applied
    · intro hplaced
      refine ⟨fun hplaced' s hs hfills => ?_, hstops.settles.placed hplaced⟩
      obtain ⟨bound, hlate⟩ := hstops.settles.filled hplaced ⟨s, hs, hfills⟩
      exact PlacedFrom.not_isLate t' hplaced' bound hlate

end Reparse

open Reparse

/-- After a run in which no step gives text to a run that had none, the tree is exact. -/
theorem EditRun.exact_lastTree {t : Tree} {before : String} {steps : List EditStep}
    (hrun : EditRun t steps) (hexact : t.Exact before) (hfills : ∀ step ∈ steps, ¬ step.Fills) :
    (lastTree t steps).Exact (lastTree t steps).text := by
  induction hrun generalizing before with
  | nil t => exact ⟨rfl, hexact.placed, hexact.linked⟩
  | cons hstep _ ih =>
    have hafter := (exact_reparse_iff hexact hstep).2 (hfills _ List.mem_cons_self)
    exact ih hafter fun step hmem => hfills step (List.mem_cons_of_mem _ hmem)

/-- From a parsed text on, whatever was edited, edits that are refused leave a tree of the text that
those of the last planned groups make, of as many as there were runs read again; if there were none,
the tree is left as it was. Where no run without text was given some before, it is exact exactly if
none of these runs was without text and was given some. -/
theorem refused_edits {entrance : Entrance} {config config' : Config} {text text' : String}
    {t t' : Tree} {steps : List EditStep} {edits : List Edit} {e : ParseError}
    (hparse : parse entrance config text = .ok t) (hrun : EditRun t steps)
    (hrefused : reparse config' (lastTree t steps) text' edits = ⟨t', .error e⟩) :
    let groups := planned config' (lastTree t steps) text' edits
    let made := splicesOf config' (lastTree t steps) [] groups
    (groups ≠ [] → EditBatch.ofEdits edits = .ok ⟨editsOf groups⟩ ∧ made.length < groups.length) ∧
      EditBatch.apply ⟨editsOf (groups.take made.length)⟩ (lastTree t steps).text = .ok t'.text ∧
      (made = [] → t' = lastTree t steps) ∧
      ((∀ step ∈ steps, ¬ step.Fills) → (t'.Exact t'.text ↔ ∀ s ∈ made, ¬ s.Fills)) := by
  have heditable := hrun.editable (editable_of_parse hparse)
  obtain ⟨hplanned, happlied, hsame, hplaced⟩ := reparse_refused heditable hrefused
  refine ⟨hplanned, happlied, hsame, fun hfills => ?_⟩
  have hexact := hrun.exact_lastTree (exact_of_parse hparse) hfills
  rw [← hplaced hexact.placed]
  exact ⟨Tree.Exact.placed, fun h => ⟨rfl, h, Arena.linked_ofTree t'⟩⟩

/-- Bringing a tree up to date is refused when its outcome is an error. -/
theorem reparse_eq_of_not_isOk {config : Config} {t : Tree} {text : String} {edits : List Edit}
    (h : (reparse config t text edits).outcome.isOk = false) :
    ∃ e, reparse config t text edits = ⟨(reparse config t text edits).tree, .error e⟩ := by
  cases hstep : reparse config t text edits with
  | mk t' outcome =>
    rw [hstep] at h
    cases outcome with
    | error e => exact ⟨e, rfl⟩
    | ok stats => cases h

/-- A second statement is edited in place before the first one turns out to be nested too deeply. -/
theorem refused_edits_nested_statement :
    ∃ t e t', parse .statements {} "a\nb" = .ok t ∧
      reparse { maxReadingStack := some 3 } t "(((a)))\nc" [⟨0, 1, "(((a)))"⟩, ⟨2, 1, "c"⟩] =
        ⟨t', .error e⟩ ∧
      t'.text = "a\nc" ∧ t'.Exact t'.text := by
  have hbatch : EditBatch.ofEdits [⟨0, 1, "(((a)))"⟩, ⟨2, 1, "c"⟩] =
      .ok ⟨[⟨0, 1, "(((a)))"⟩, ⟨2, 1, "c"⟩]⟩ := by
    cbv
  have hcheck : (parse .statements {} "a\nb").toOption.any (fun t =>
      let config : Config := { maxReadingStack := some 3 }
      let edits : List Edit := [⟨0, 1, "(((a)))"⟩, ⟨2, 1, "c"⟩]
      let r := reparse config t "(((a)))\nc" edits
      !r.outcome.isOk && r.tree.text == "a\nc" &&
        (splicesOf config t [] (planned config t "(((a)))\nc" edits)).all fun s =>
          Tree.textOfForm s.old != "") := by
    simp only [reparse, planned, hbatch]
    decide +kernel
  obtain ⟨t, ht, hcheck⟩ := exists_of_any_toOption hcheck
  simp only [Bool.and_eq_true, Bool.not_eq_true', beq_iff_eq, List.all_eq_true] at hcheck
  obtain ⟨⟨houtcome, htext⟩, hfilled⟩ := hcheck
  obtain ⟨e, hrefused⟩ := reparse_eq_of_not_isOk houtcome
  obtain ⟨-, -, -, hexact⟩ := refused_edits ht (.nil t) hrefused
  refine ⟨t, e, _, ht, hrefused, htext, (hexact (by simp)).2 ?_⟩
  intro s hs hfills
  exact bne_iff_ne.1 (hfilled s hs) hfills.1

/-- A statement without text is given some before an earlier statement turns out to be nested too
deeply, which draws the indentation before it along. -/
theorem not_exact_of_refused_edits :
    ∃ t e t', parse .statements {} "a\nif b:\n\t!" = .ok t ∧
      reparse { maxReadingStack := some 3 } t "(((a)))\nif b:\n\tx!"
        [⟨0, 1, "(((a)))"⟩, ⟨9, 0, "x"⟩] = ⟨t', .error e⟩ ∧
      t'.text = "a\nif b:\n\tx!" ∧ ¬ t'.Exact t'.text := by
  have hbatch : EditBatch.ofEdits [⟨0, 1, "(((a)))"⟩, ⟨9, 0, "x"⟩] =
      .ok ⟨[⟨0, 1, "(((a)))"⟩, ⟨9, 0, "x"⟩]⟩ := by
    cbv
  have hcheck : (parse .statements {} "a\nif b:\n\t!").toOption.any (fun t =>
      let r := reparse { maxReadingStack := some 3 } t "(((a)))\nif b:\n\tx!"
        [⟨0, 1, "(((a)))"⟩, ⟨9, 0, "x"⟩]
      !r.outcome.isOk && r.tree.text == "a\nif b:\n\tx!" &&
        r.tree.placed.leaves != r.tree.leaves) := by
    simp only [reparse, hbatch]
    decide +kernel
  obtain ⟨t, ht, hcheck⟩ := exists_of_any_toOption hcheck
  simp only [Bool.and_eq_true, Bool.not_eq_true', beq_iff_eq, bne_iff_ne] at hcheck
  obtain ⟨⟨houtcome, htext⟩, hleaves⟩ := hcheck
  obtain ⟨e, hrefused⟩ := reparse_eq_of_not_isOk houtcome
  exact ⟨t, e, _, ht, hrefused, htext, fun hexact => hleaves (congrArg Tree.leaves hexact.placed)⟩

end ScriptTree
