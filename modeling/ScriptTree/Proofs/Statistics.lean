import ScriptTree.Proofs.Editable
import ScriptTree.Proofs.ItemWays

/-!
# What is counted when a tree is brought up to date

Groups of edits are taken up by runs of which each comes before the one taken up just before it. So
no run is changed any more once it was read again, and no item lies in two of them: the items that
were counted run by run are those of the final tree that lie in the runs, and the others were kept.
-/

namespace ScriptTree

namespace Reparse

open ScriptTree.Tree

variable {config : Config} {c : Candidate} {old t next t' : Tree} {front text newText : String}
  {done : List Edit} {g : Group} {earlier groups : List Group} {count : Nat}
  {stats : ReparseStats}

/-- The items that take up groups of edits, the last group first. -/
def takersOf (config : Config) (tree : Tree) (done : List Edit) : List Group → List Candidate
  | [] => []
  | group :: earlier =>
    let foreign := earlier.flatMap Group.edits ++ done
    match taker? config tree group.edits foreign group.candidates with
    | some (c, next) => c :: takersOf config next (group.edits ++ done) earlier
    | none => []

/-- The items that are read again when edits are taken up, unless the whole text is. -/
def takers (config : Config) (tree : Tree) (text : String) (edits : List Edit) : List Candidate :=
  match (reparse config tree text edits).outcome, EditBatch.ofEdits edits with
  | .ok stats, .ok batch =>
    if stats.full then []
    else
      match plan? config tree batch.edits with
      | some groups => takersOf config tree [] groups
      | none => []
  | _, _ => []

/-- The number of items in the run of a candidate. -/
def Candidate.itemsIn (c : Candidate) (t : Tree) : Nat :=
  blockItemsOfForm true (c.runIn t)

/-- Whether a candidate comes before a run. -/
def Candidate.ComesBefore (c : Candidate) (first : Nat) (path : List Nat) : Prop :=
  Precedes c.first (c.last + 1 - c.first) c.path first path

/-- What becomes of a tree when the rest of the groups is taken up by some items, after `count`
items were read: their runs stand in the final tree and are counted as they do, each of them comes
before the ones ahead of it, and runs behind all of them keep their items. -/
structure Accounts (t t' : Tree) (done : List Edit) (count : Nat) (groups : List Group)
    (held : List Candidate) (stats : ReparseStats) : Prop where
  reused : stats.reused = t'.blockItems - stats.reparsed
  reparsed : stats.reparsed = count + (held.map fun c => c.itemsIn t').sum
  stands : ∀ c ∈ held, ∃ front back,
    RunAt c.first (c.last + 1 - c.first) c.path t' front (c.runIn t') back
  apart : held.Pairwise fun c c' => c'.ComesBefore c.first c.path
  taken : ∀ c ∈ held, ∃ g ∈ groups, c ∈ g.candidates ∧ ∀ e ∈ done, c.touches e = false
  keeps : ∀ {first count : Nat} {path : List Nat} {front back : String} {run : List Entry},
    RunAt first count path t front run back →
    (∀ g ∈ groups, ∀ c ∈ g.candidates, (∀ e ∈ done, c.touches e = false) →
      c.ComesBefore first path) →
    ∃ front' run', RunAt first count path t' front' run' back ∧
      blockItemsOfForm true run' = blockItemsOfForm true run

/-- One more group that is taken up before the rest. -/
theorem Accounts.cons {held : List Candidate} {n : Nat} (hc : c ∈ g.candidates)
    (huntouched : ∀ e ∈ done, c.touches e = false)
    (htaken : Taken old t next c front text newText) (hitems : n = c.itemsIn next)
    (hbefore : ∀ g' ∈ earlier, ∀ c' ∈ g'.candidates,
      (∀ e ∈ g.edits ++ done, c'.touches e = false) → c'.ComesBefore c.first c.path)
    (h : Accounts next t' (g.edits ++ done) (count + n) earlier held stats) :
    Accounts t t' done count (g :: earlier) (c :: held) stats := by
  obtain ⟨run, back, hrun, _⟩ := htaken.fits
  obtain ⟨newRun, hlength, _, _, hnext⟩ := htaken.replaced
  -- The run of the item is behind all that is taken up later, so it is counted as it stays.
  have hmade : RunAt c.first (c.last + 1 - c.first) c.path next front newRun back :=
    hnext ▸ hrun.replaceRun _ _ hlength
  obtain ⟨front', run', hstays, hsame⟩ := h.keeps hmade hbefore
  have hcount : n = c.itemsIn t' := by
    rw [hitems, Candidate.itemsIn, Candidate.itemsIn, hmade.runIn_eq, hstays.runIn_eq, hsame]
  constructor
  case reused => exact h.reused
  case reparsed => rw [h.reparsed, hcount, List.map_cons, List.sum_cons, Nat.add_assoc]
  case stands =>
    exact List.forall_mem_cons.2 ⟨⟨front', back, hstays.runIn_eq ▸ hstays⟩, h.stands⟩
  case apart =>
    refine List.pairwise_cons.2 ⟨fun c' hc' => ?_, h.apart⟩
    obtain ⟨g', hg', hmem, hforeign⟩ := h.taken c' hc'
    exact hbefore g' hg' c' hmem hforeign
  case taken =>
    refine List.forall_mem_cons.2 ⟨⟨g, List.mem_cons_self, hc, huntouched⟩, fun c' hc' => ?_⟩
    obtain ⟨g', hg', hmem, hforeign⟩ := h.taken c' hc'
    exact ⟨g', List.mem_cons_of_mem _ hg', hmem,
      fun e he => hforeign e (List.mem_append_right _ he)⟩
  case keeps =>
    intro first count path front back run hbehind hafter
    obtain ⟨_, hmoved⟩ := hbehind.moved _ _ hrun (hafter g List.mem_cons_self c hc huntouched)
      hlength
    obtain ⟨front'', run'', hkept, hitems'⟩ := h.keeps (hnext ▸ hmoved)
      fun g' hg' c' hc' hforeign => hafter g' (List.mem_cons_of_mem _ hg') c' hc' fun e he =>
        hforeign e (List.mem_append_right _ he)
    exact ⟨front'', run'', hkept, hitems'.trans (blockItemsOfForm_shiftForm _ _ _ _)⟩

/-- Taking up groups of edits counts the items of their runs, unless the whole text is read
again. -/
theorem spliceGroups_accounts (h : Underway old t done groups)
    (hresult : spliceGroups config text t done count groups = ⟨t', .ok stats⟩) :
    stats = ⟨0, t'.blockItems, true⟩ ∨ stats.full = false ∧
      Accounts t t' done count groups (takersOf config t done groups) stats := by
  induction groups generalizing t done count with
  | nil =>
    simp only [spliceGroups, Reparsed.mk.injEq, Except.ok.injEq] at hresult
    obtain ⟨rfl, rfl⟩ := hresult
    exact .inr ⟨rfl, {
      reused := rfl
      reparsed := by simp [takersOf]
      stands := by simp [takersOf]
      apart := by simp [takersOf]
      taken := by simp [takersOf]
      keeps := fun hrun _ => ⟨_, _, hrun, rfl⟩ }⟩
  | cons g earlier ih =>
    rw [spliceGroups] at hresult
    split at hresult
    · cases (Reparsed.mk.inj hresult).2
    · exact .inl ((parse_of_full hresult).2)
    · rename_i next more hfirst
      obtain ⟨c, hc, hforeign, hsplice, htaker⟩ := spliceFirst_spec hfirst
      obtain ⟨hnext, _, _, _, htaken, hitems, -⟩ := h.splice hc hforeign hsplice
      rcases ih hnext hresult with hstats | ⟨hfull, hrest⟩
      · exact .inl hstats
      · rw [takersOf, htaker]
        exact .inr ⟨hfull, hrest.cons hc (fun e he => hforeign e (List.mem_append_right _ he))
          htaken hitems fun g' hg' c' hc' huntouched =>
            h.precedes hc hforeign hg' hc' huntouched⟩

/-- The ways to items outside of all runs that were read again. -/
def keptWays (held : List Candidate) (t : Tree) : List (List Nat) :=
  t.itemWays.filter fun way => held.all fun c => !c.holds way

/-- The items outside of the runs that were read again and those that were counted make up all. -/
theorem Accounts.length_keptWays {held : List Candidate}
    (h : Accounts t t' done 0 groups held stats) :
    (keptWays held t').length + stats.reparsed = t'.blockItems := by
  have hitems (c : Candidate) (hc : c ∈ held) :
      (t'.itemWays.filter c.holds).length = c.itemsIn t' := by
    obtain ⟨_, _, hrun⟩ := h.stands c hc
    exact hrun.length_filter_itemWays
  have hapart : held.Pairwise fun c c' =>
      ∀ way ∈ t'.itemWays, c.holds way = true → c'.holds way = false :=
    h.apart.imp fun hbefore way _ hway => Precedes.apart hbefore hway
  rw [← length_itemWays, ← length_filter_of_pairwise hapart, keptWays, h.reparsed, Nat.zero_add,
    List.map_congr_left hitems]

/-- Every item of the final tree is counted once, as kept or as read again. Unless the whole text
was read again, the kept ones are those outside of the runs that were. -/
theorem accounts_of_editable {edits : List Edit} (h : t.Editable)
    (hstep : reparse config t text edits = ⟨t', .ok stats⟩) :
    stats.reused + stats.reparsed = t'.blockItems ∧ (stats.full = false →
      stats.reused = (keptWays (takers config t text edits) t').length) := by
  have hfullStats (hstats : stats = ⟨0, t'.blockItems, true⟩) :
      stats.reused + stats.reparsed = t'.blockItems ∧ (stats.full = false →
        stats.reused = (keptWays (takers config t text edits) t').length) := by
    subst hstats
    exact ⟨Nat.zero_add _, nofun⟩
  rcases reparse_cases hstep with ⟨rfl, rfl, -, rfl⟩ | hfull |
    ⟨batch, groups, hbatch, -, hplan, hsplice⟩
  · have hnone : takers config t' text [] = [] := by
      unfold takers
      rw [hstep, ofEdits_nil]
      rfl
    exact ⟨rfl, fun _ => by simp [hnone, keptWays, length_itemWays]⟩
  · exact hfullStats (parse_of_full hfull).2
  · obtain ⟨hunderway, -⟩ := h.underway hbatch hplan
    rcases spliceGroups_accounts hunderway hsplice with hstats | ⟨hfull, haccounts⟩
    · exact hfullStats hstats
    · have htakers : takers config t text edits = takersOf config t [] groups := by
        unfold takers
        rw [hstep, hbatch]
        simp [hfull, hplan]
      have hkept := haccounts.length_keptWays
      have hreused := haccounts.reused
      rw [htakers]
      exact ⟨by omega, fun _ => by omega⟩

end Reparse

open Reparse

/-- From a parsed text on, however it was edited with success: bringing the tree up to date counts
every item of a line-oriented list once, as kept or as read again. No more items are read again than
there are, and unless the whole text is read again, the kept ones are those of the new tree that lie
in none of the runs that were. -/
theorem reparse_accounts {entrance : Entrance} {config config' : Config} {text text' : String}
    {t t' : Tree} {steps : List EditStep} {edits : List Edit} {stats : ReparseStats}
    (hparse : parse entrance config text = .ok t) (hrun : EditRun t steps)
    (hstep : reparse config' (lastTree t steps) text' edits = ⟨t', .ok stats⟩) :
    stats.reused + stats.reparsed = t'.blockItems ∧ stats.reparsed ≤ t'.blockItems ∧
      (stats.full = false → stats.reused =
        (keptWays (takers config' (lastTree t steps) text' edits) t').length) := by
  obtain ⟨hsum, hkept⟩ :=
    accounts_of_editable (hrun.editable (editable_of_parse hparse)) hstep
  exact ⟨hsum, by omega, hkept⟩

/-- A statement nested in the first of two statements is edited, and so is the second one: the first
one is kept. -/
theorem reparse_accounts_nested_statement :
    ∃ t stats t', parse .statements {} "if a:\n\tb\nc" = .ok t ∧
      reparse {} t "if a:\n\tx\ny" [⟨7, 1, "x"⟩, ⟨9, 1, "y"⟩] = ⟨t', .ok stats⟩ ∧
      stats = ⟨1, 2, false⟩ ∧ t'.blockItems = 3 ∧
      (keptWays (takers {} t "if a:\n\tx\ny" [⟨7, 1, "x"⟩, ⟨9, 1, "y"⟩]) t').length = 1 := by
  have hbatch : EditBatch.ofEdits [⟨7, 1, "x"⟩, ⟨9, 1, "y"⟩] =
      .ok ⟨[⟨7, 1, "x"⟩, ⟨9, 1, "y"⟩]⟩ := by
    cbv
  have hcheck : (parse .statements {} "if a:\n\tb\nc").toOption.any (fun t =>
      (reparse {} t "if a:\n\tx\ny" [⟨7, 1, "x"⟩, ⟨9, 1, "y"⟩]).outcome.toOption ==
        some ⟨1, 2, false⟩) := by
    simp only [reparse, hbatch]
    decide +kernel
  obtain ⟨t, ht, hcheck⟩ := exists_of_any_toOption hcheck
  rw [beq_iff_eq] at hcheck
  cases hstep : reparse {} t "if a:\n\tx\ny" [⟨7, 1, "x"⟩, ⟨9, 1, "y"⟩] with
  | mk t' outcome =>
    rw [hstep] at hcheck
    cases outcome with
    | error e => cases hcheck
    | ok stats =>
      obtain rfl : stats = ⟨1, 2, false⟩ := Option.some.inj hcheck
      obtain ⟨hsum, -, hkept⟩ := reparse_accounts ht (.nil t) hstep
      exact ⟨t, _, t', ht, hstep, rfl, hsum.symm, (hkept rfl).symm⟩

end ScriptTree
