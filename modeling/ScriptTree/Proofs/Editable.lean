import ScriptTree.Proofs.EditRuns
import ScriptTree.Proofs.Endings.Parsing
import ScriptTree.Proofs.LineStarts

/-!
# Trees that can be edited again

Once a run without text was given some, tokens no longer know their places. Nodes still do, as far
as the groups of later edits depend on it: the lines that can be read again begin behind text, or at
the beginning of an outermost list. This holds of parsed trees and is kept by edits.
-/

namespace ScriptTree

namespace Tree

variable {t : Tree} {outer : Bool}

/-- A tree whose nodes know their places and whose lines begin as they should. -/
structure Editable (t : Tree) : Prop where
  placed : t.NodesPlacedFrom true .start
  rooted : t.Rooted true

/-- A trimmed tree without a whole script in it may stand inside another one. -/
theorem Trimmed.rooted (h : t.Trimmed) (hinner : t.EveryNode fun kind _ => kind ≠ .file) :
    t.Rooted outer := by
  induction h generalizing outer with
  | leaf kind extent text => exact .leaf _ _ text
  | node extent own children ih =>
    cases hinner with
    | node _ hkind hchildren =>
      exact .node _ (fun hfile => absurd hfile hkind) fun entry hentry =>
        ih entry hentry (hchildren entry hentry)

end Tree

/-- A parsed tree can be edited. -/
theorem editable_of_parse {entrance : Entrance} {config : Config} {text : String} {t : Tree}
    (h : parse entrance config text = .ok t) : t.Editable := by
  refine ⟨(Reparse.placedFrom_of_parse h).nodesPlacedFrom true, ?_⟩
  have hreads := reads_of_parse h
  have hneat := neat_of_parse h
  obtain ⟨kind, hkind, -⟩ := hreads.roots
  cases t with
  | leaf kind s extent => cases hkind
  | node kind form extent =>
    refine .node _ (fun hfile => ⟨rfl, fun hlines => ?_⟩) fun entry hentry =>
      (hneat.trimmed entry hentry).rooted (hreads.inner entry hentry)
    rw [Form.lines, ← List.map_tail] at hlines
    obtain ⟨entry, hentry, hline⟩ := List.mem_map.1 hlines
    have hnone := hreads.list (congrArg some hfile) entry hentry
    rw [hline] at hnone
    cases hnone

namespace Reparse

open ScriptTree.Tree

variable {config : Config} {c : Candidate} {old t t' : Tree} {front text newText : String}
  {done : List Edit}

/-- An item that is read by itself gives a list of its kind. -/
theorem readItem_fits (config : Config) (c : Candidate) (text : String) :
    Promises (Automaton.run config (.block (.ofSingleItem c.kind c.level)) text)
      fun result => result.1.FitsFrom (.block c.kind) := by
  have horder : Reader.Orderly (.block (.ofSingleItem c.kind c.level)) :=
    BlockReader.orderly_start c.kind .single (some c.level) .itemStart
  exact Automaton.run_promises horder rfl
    (BlockReader.rests_start c.kind .single (some c.level) .itemStart)
    (BlockReader.text_start c.kind .single (some c.level) .itemStart) text

/-- What an item is read as by itself may stand inside a tree. -/
theorem readRun?_rooted (config : Config) (c : Candidate) (text : String) :
    Promises (readRun? config c text) fun run? =>
      ∀ run ∈ run?, ∀ entry ∈ run, entry.2.Rooted false := by
  have hrests := BlockReader.rests_start c.kind .single (some c.level) .itemStart
  have hempty := BlockReader.text_start c.kind .single (some c.level) .itemStart
  have horder : Reader.Orderly (.block (.ofSingleItem c.kind c.level)) :=
    BlockReader.orderly_start c.kind .single (some c.level) .itemStart
  have hstart : Reader.Neat (.block (.ofSingleItem c.kind c.level)) :=
    BlockReader.neat_start c.kind .single (some c.level) .itemStart
  have hneat : Promises (Automaton.run config (.block (.ofSingleItem c.kind c.level)) text)
      fun result => result.1.NeatFrom (.block c.kind) :=
    Automaton.run_neat horder hstart (by simp) hrests hempty text
  refine ((readItem_fits config c text).and hneat).bind fun result hresult => promises_pure.2 ?_
  obtain ⟨hfits, hneat⟩ := hresult
  split
  · exact nofun
  · rintro run hrun entry hentry
    obtain ⟨t, ht, rfl⟩ := Option.map_eq_some_iff.1 hrun
    obtain ⟨hregular, form, rfl, -⟩ := hfits.token t ht
    have htrimmed := (hneat.token _ form ht).trimmed entry hentry
    cases hregular with
    | node _ _ children =>
      exact htrimmed.rooted ((children entry hentry).mono Form.IsRegular.inner)

/-- A tree that can be edited still can after an item is read again that begins a line. -/
theorem Taken.editable (h : Taken old t t' c front text newText) (hbegins : c.BeginsLine t)
    (ht : t.Editable) : t'.Editable := by
  obtain ⟨config, raw, hread, hraw⟩ := h.read
  have hrooted := readRun?_rooted config c newText _ hread raw rfl
  obtain ⟨run, back, hrun, rfl, _⟩ := h.fits
  obtain ⟨newRun, hlength, hplaced, rfl, rfl⟩ := h.replaced
  refine ⟨hbegins.nodesPlacedFrom hrun ht.placed (hplaced.formNodesPlacedFrom false) hlength,
    hrun.rooted_replaceRun ht.rooted fun entry hentry => ?_⟩
  rw [(hrun.replaceRun _ _ hlength).runIn_eq] at hraw
  rw [hraw] at hentry
  obtain ⟨raw', hraw', -, place, hplace⟩ := Form.exists_of_mem_placeForm hentry
  rw [hplace]
  exact (hrooted raw' hraw').placeFrom place

/-- The items that may still take up edits begin lines. -/
def Begins (t : Tree) (done : List Edit) (groups : List Group) : Prop :=
  ∀ g ∈ groups, ∀ c ∈ g.candidates, (∀ e ∈ done, c.touches e = false) → c.BeginsLine t

/-- Items that may take up earlier groups of edits still begin lines after an item took up those of
the last group. -/
theorem Begins.splice {g : Group} {earlier : List Group} (h : Begins t done (g :: earlier))
    (hunderway : Underway old t done (g :: earlier)) (hc : c ∈ g.candidates)
    (hforeign : ∀ e ∈ earlier.flatMap Group.edits ++ done, c.touches e = false)
    (htaken : Taken old t t' c front text newText) : Begins t' (g.edits ++ done) earlier := by
  intro g' hg' c' hc' huntouched
  have hmem' : g' ∈ g :: earlier := List.mem_cons_of_mem _ hg'
  have hdone (e : Edit) (he : e ∈ done) := huntouched e (List.mem_append_right _ he)
  obtain ⟨front', text', hstands'⟩ := (hunderway.sound g' hmem').stands c' hc'
  obtain ⟨_, _, hrun', _⟩ := hunderway.fits g' hmem' c' hc' hdone front' text' hstands'
  obtain ⟨_, _, hrun, _⟩ := htaken.fits
  obtain ⟨_, _, _, _, rfl⟩ := htaken.replaced
  exact (h g' hmem' c' hc' hdone).frame hrun hrun'
    (hunderway.precedes hc hforeign hg' hc' huntouched)

/-- Taking up groups of edits gives a tree that can be edited. -/
theorem spliceGroups_editable {count : Nat} {groups : List Group} {stats : ReparseStats}
    (h : Underway old t done groups) (hbegins : Begins t done groups) (ht : t.Editable)
    (hresult : spliceGroups config text t done count groups = ⟨t', .ok stats⟩) : t'.Editable := by
  induction groups generalizing t done count with
  | nil =>
    rw [spliceGroups] at hresult
    obtain rfl : t = t' := (Reparsed.mk.inj hresult).1
    exact ht
  | cons g earlier ih =>
    rw [spliceGroups] at hresult
    split at hresult
    · cases (Reparsed.mk.inj hresult).2
    · exact editable_of_parse (parse_of_full hresult).1
    · rename_i next more hfirst
      obtain ⟨c, hc, hforeign, hsplice, -⟩ := spliceFirst_spec hfirst
      obtain ⟨hnext, _, _, _, htaken, -, -⟩ := h.splice hc hforeign hsplice
      have hline := hbegins g List.mem_cons_self c hc fun e he =>
        hforeign e (List.mem_append_right _ he)
      exact ih hnext (hbegins.splice h hc hforeign htaken) (htaken.editable hline ht) hresult

end Reparse

open Reparse

/-- Planned groups of edits can be taken up. -/
theorem Tree.Editable.underway {config : Config} {t : Tree} {edits : List Edit}
    {batch : EditBatch} {groups : List Group} (h : t.Editable)
    (hbatch : EditBatch.ofEdits edits = .ok batch)
    (hplan : plan? config t batch.edits = some groups) :
    Underway t t [] groups ∧ Begins t [] groups := by
  obtain ⟨hunderway, -⟩ := underway_of_plan? h.placed hbatch hplan
  refine ⟨hunderway, fun g hg c hc _ => ?_⟩
  obtain ⟨_, _, _, hfound⟩ := (hunderway.sound g hg).found c hc
  exact beginsLine_of_mem_candidates h.rooted hfound

/-- Bringing a tree that can be edited up to date gives one that can be edited. -/
theorem Tree.Editable.reparse {config : Config} {t t' : Tree} {text : String} {edits : List Edit}
    {stats : ReparseStats} (h : t.Editable)
    (hstep : ScriptTree.reparse config t text edits = ⟨t', .ok stats⟩) : t'.Editable := by
  rcases reparse_cases hstep with ⟨-, rfl, -⟩ | hfull | ⟨batch, groups, hbatch, -, hplan, hsplice⟩
  · exact h
  · exact editable_of_parse (parse_of_full hfull).1
  · obtain ⟨hunderway, hbegins⟩ := h.underway hbatch hplan
    exact spliceGroups_editable hunderway hbegins h hsplice

/-- So does any run of edits. -/
theorem EditRun.editable {t : Tree} {steps : List EditStep} (hrun : EditRun t steps)
    (h : t.Editable) : (lastTree t steps).Editable := by
  induction hrun with
  | nil t => exact h
  | cons hstep _ ih => exact ih (h.reparse hstep)

end ScriptTree
