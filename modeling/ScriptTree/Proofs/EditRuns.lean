import ScriptTree.Proofs.Links
import ScriptTree.Proofs.Reparsing

/-!
# Runs of edits

A tree that is read from a text and then brought up to date again and again stays exact until a
run without text is given some. From there on its tokens no longer know their places.
-/

namespace ScriptTree

/-- Bringing a tree up to date once. -/
structure EditStep where
  config : Config
  before : Tree
  edits : List Edit
  text : String
  after : Tree

/-- A tree brought up to date step by step, every time with success. -/
inductive EditRun : Tree → List EditStep → Prop
  | nil (t : Tree) : EditRun t []
  | cons {config : Config} {t t' : Tree} {edits : List Edit} {text : String}
      {stats : ReparseStats} {rest : List EditStep}
      (step : reparse config t text edits = ⟨t', .ok stats⟩) (more : EditRun t' rest) :
      EditRun t (⟨config, t, edits, text, t'⟩ :: rest)

/-- The tree that is left after some steps. -/
def lastTree (t : Tree) : List EditStep → Tree
  | [] => t
  | step :: rest => lastTree step.after rest

/-- A tree is exact for a text: it has that text, every token knows where it stands in it, and in
an arena parents and forms agree. -/
structure Tree.Exact (t : Tree) (text : String) : Prop where
  text_eq : t.text = text
  placed : t.PlacedFrom .start
  linked : (Arena.ofTree t).Linked

/-- Whether a step gives text to a run that had none. -/
def EditStep.Fills (step : EditStep) : Prop :=
  ∃ s ∈ Reparse.splices step.config step.before step.text step.edits, s.Fills

/-- A step from an exact tree leads to an exact tree unless a run without text is given some. -/
theorem exact_reparse_iff {config : Config} {t t' : Tree} {edits : List Edit} {text before : String}
    {stats : ReparseStats} (hexact : t.Exact before)
    (hstep : reparse config t text edits = ⟨t', .ok stats⟩) :
    t'.Exact text ↔ ¬ EditStep.Fills ⟨config, t, edits, text, t'⟩ := by
  obtain ⟨htext, hplaced⟩ := reparse_spec hexact.placed hstep
  have hfills : (∀ s ∈ Reparse.splices config t text edits, ¬ s.Fills) ↔
      ¬ EditStep.Fills ⟨config, t, edits, text, t'⟩ := by
    simp [EditStep.Fills]
  rw [← hfills, ← hplaced]
  exact ⟨Tree.Exact.placed, fun h => ⟨htext, h, Arena.linked_ofTree t'⟩⟩

/-- All trees of a run are exact exactly if no step gives text to a run that had none. -/
theorem EditRun.exact_iff {t : Tree} {before : String} {steps : List EditStep}
    (hrun : EditRun t steps) (hexact : t.Exact before) :
    (∀ step ∈ steps, step.after.Exact step.text) ↔ ∀ step ∈ steps, ¬ step.Fills := by
  induction hrun generalizing before with
  | nil t => simp
  | cons hstep _ ih =>
    simp only [List.forall_mem_cons]
    have hiff := exact_reparse_iff hexact hstep
    constructor
    · rintro ⟨hafter, hrest⟩
      exact ⟨hiff.1 hafter, (ih hafter).1 hrest⟩
    · rintro ⟨hfills, hrest⟩
      have hafter := hiff.2 hfills
      exact ⟨hafter, (ih hafter).2 hrest⟩

/-- A parsed tree is exact for its text. -/
theorem exact_of_parse {entrance : Entrance} {config : Config} {text : String} {t : Tree}
    (h : parse entrance config text = .ok t) : t.Exact text :=
  ⟨text_of_parse h, Reparse.placedFrom_of_parse h, Arena.linked_ofTree t⟩

/-- From a parsed text on, whatever is edited and however it is read, all trees are exact exactly
if no step gives text to a run that had none. -/
theorem exact_of_edits {entrance : Entrance} {config : Config} {text : String} {t : Tree}
    {steps : List EditStep} (hparse : parse entrance config text = .ok t)
    (hrun : EditRun t steps) :
    t.Exact text ∧
      ((∀ step ∈ steps, step.after.Exact step.text) ↔ ∀ step ∈ steps, ¬ step.Fills) :=
  ⟨exact_of_parse hparse, hrun.exact_iff (exact_of_parse hparse)⟩

/-- Bringing a tree up to date ends well when its outcome is a value. -/
theorem reparse_eq_of_isOk {config : Config} {t : Tree} {text : String} {edits : List Edit}
    (h : (reparse config t text edits).outcome.isOk = true) :
    ∃ stats, reparse config t text edits = ⟨(reparse config t text edits).tree, .ok stats⟩ := by
  cases hstep : reparse config t text edits with
  | mk t' outcome =>
    rw [hstep] at h
    cases outcome with
    | error e => cases h
    | ok stats => exact ⟨stats, rfl⟩

/-- A name that is written on in place keeps the tree exact. -/
theorem exact_of_longer_name : ∃ t stats t', parse .statements {} "x" = .ok t ∧
    reparse {} t "xy" [⟨1, 0, "y"⟩] = ⟨t', .ok stats⟩ ∧ t.Exact "x" ∧ t'.Exact "xy" := by
  have hcheck : (parse .statements {} "x").toOption.any (fun t =>
      (reparse {} t "xy" [⟨1, 0, "y"⟩]).outcome.isOk &&
        (Reparse.splices {} t "xy" [⟨1, 0, "y"⟩]).all fun s => Tree.textOfForm s.old != "") := by
    decide +kernel
  obtain ⟨t, ht, hcheck⟩ := exists_of_any_toOption hcheck
  rw [Bool.and_eq_true, List.all_eq_true] at hcheck
  obtain ⟨stats, hstep⟩ := reparse_eq_of_isOk hcheck.1
  obtain ⟨hexact, hrun⟩ := exact_of_edits ht (.cons hstep (.nil _))
  refine ⟨t, stats, _, ht, hstep, hexact, ?_⟩
  refine hrun.2 (List.forall_mem_singleton.2 ?_) _ (List.mem_singleton_self _)
  rintro ⟨s, hs, hfills⟩
  exact bne_iff_ne.1 (hcheck.2 s hs) hfills.1

/-- A statement without text that is given some draws the indentation before it along. -/
theorem not_exact_of_filled_statement :
    ∃ t stats t', parse .statements {} "if a:\n\t!" = .ok t ∧
      reparse {} t "if a:\n\tx!" [⟨7, 0, "x"⟩] = ⟨t', .ok stats⟩ ∧ ¬ t'.Exact "if a:\n\tx!" := by
  have hcheck : (parse .statements {} "if a:\n\t!").toOption.any (fun t =>
      let r := reparse {} t "if a:\n\tx!" [⟨7, 0, "x"⟩]
      r.outcome.isOk && r.tree.placed.leaves != r.tree.leaves) := by
    decide +kernel
  obtain ⟨t, ht, hcheck⟩ := exists_of_any_toOption hcheck
  rw [Bool.and_eq_true, bne_iff_ne] at hcheck
  obtain ⟨stats, hstep⟩ := reparse_eq_of_isOk hcheck.1
  exact ⟨t, stats, _, ht, hstep, fun hexact => hcheck.2 (congrArg Tree.leaves hexact.placed)⟩

end ScriptTree
