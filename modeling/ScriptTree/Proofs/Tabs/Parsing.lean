import ScriptTree.Proofs.Parsing
import ScriptTree.Proofs.Spellings.Parsing
import ScriptTree.Proofs.Tabs.Runs

/-!
# Tabs and groups of blanks are interchangeable

Where blanks count as indentation, spelling tabs as groups of as many blanks as a unit of
indentation has changes no kind and no role in the tree.
-/

namespace ScriptTree

namespace Tree

mutual

/-- The kinds and roles of a tree, without its texts and places. -/
def skeleton : Tree → Tree
  | .leaf kind _ _ => .ofText kind ""
  | .node kind form _ => .ofForm kind (formSkeleton form)

/-- The kinds and roles of children. -/
def formSkeleton : List Entry → List Entry
  | [] => []
  | (role, t) :: rest => (role, t.skeleton) :: formSkeleton rest

end

mutual

/-- Places make no difference to kinds and roles. -/
theorem skeleton_placeFrom (start : Position) (t : Tree) :
    (t.placeFrom start).1.skeleton = t.skeleton := by
  match t with
  | .leaf kind text extent => rfl
  | .node kind form extent =>
    have hform := formSkeleton_placeForm start form
    simp [placeFrom, skeleton, hform]

theorem formSkeleton_placeForm (start : Position) (form : List Entry) :
    formSkeleton (placeForm start form).1 = formSkeleton form := by
  match form with
  | [] => rfl
  | (role, t) :: rest =>
    simp only [placeForm, formSkeleton, skeleton_placeFrom, formSkeleton_placeForm]

end

section

variable [TabWidth]

attribute [local instance] Spelling.tabs

mutual

/-- Tabs and blanks make no difference to kinds and roles. -/
theorem Twin.skeleton_eq {t t' : Tree} (h : t.Twin t') : t'.skeleton = t.skeleton := by
  match h with
  | .leaf kind extent extent' h => rfl
  | .node kind extent extent' h => rw [skeleton, skeleton, h.formSkeleton_eq]

theorem FormTwin.formSkeleton_eq {form form' : List Entry} (h : FormTwin form form') :
    formSkeleton form' = formSkeleton form := by
  match h with
  | .nil => rfl
  | .cons (x := (_, _)) (y := (_, _)) hrole ht hrest =>
    obtain rfl := hrole
    rw [formSkeleton, formSkeleton, ht.skeleton_eq, hrest.formSkeleton_eq]
  | .twice hbreak hrest => exact False.elim hbreak.twice

end

end

end Tree

section

variable [TabWidth]

attribute [local instance] ReaderSpelling.tabs

/-- A text is read in the same way in the two spellings. -/
theorem Automaton.run_retabbed {config : Config} (hsuits : ReaderSpelling.Suits config)
    {root : Reader} (hroot : root.Twin root) (hrests : root.Rests) (hempty : root.text = "")
    (hleaf : ∀ leaf, root ≠ .leaf leaf) {text text' : String}
    (htext : Text.Retabbed TabWidth.blanks text text') :
    Agree (fun x y => x.1.Twin y.1) (run config root text) (run config root text') := by
  refine ((start_twin hroot).and (promises_start hrests hempty)).bind fun a b hboth => ?_
  obtain ⟨⟨htwin, hstack⟩, -, hreads⟩ := hboth
  have hholds : a.HoldsText := by
    intro r below heq
    rw [hstack] at heq
    exact absurd (List.cons.inj heq).1 (hleaf r)
  refine ((htwin.feed_tabs hsuits hreads hholds htext).and (hreads.promises_feed _)).bind
    fun a' b' hboth => ?_
  exact hboth.1.finish hsuits hboth.2

end

/-- Where groups of blanks count as indentation, spelling any tabs of a text as such groups leads to
a tree of the same kinds and roles, or to the same error. -/
theorem parse_retabbed {entrance : Entrance} {config : Config} {text text' : String}
    (hspaces : config.spacesAsIndentation = true) (hpos : 0 < config.indentationSize)
    (htext : Text.Retabbed config.indentationSize text text') :
    (parse entrance config text').map Tree.skeleton =
      (parse entrance config text).map Tree.skeleton := by
  let _ : TabWidth := ⟨config.indentationSize, hpos⟩
  let _ : ReaderSpelling := ReaderSpelling.tabs
  obtain ⟨hrests, _, hempty⟩ := entrance.reader_rests
  have hleaf (leaf : LeafReader) : entrance.reader ≠ .leaf leaf := by
    cases entrance <;> exact fun heq => by cases heq
  have hrun := Automaton.run_retabbed ⟨hspaces, rfl⟩ entrance.reader_twin hrests hempty hleaf htext
  have hparse : Agree (fun t t' : Tree => t'.skeleton = t.skeleton) (parse entrance config text)
      (parse entrance config text') := by
    refine hrun.bind fun x y hxy => (entrance.rootOf_twin hxy).mapError.bind fun s s' hs => ?_
    calc (s'.placeFrom .start).1.skeleton
        = s'.skeleton := Tree.skeleton_placeFrom _ s'
      _ = s.skeleton := hs.skeleton_eq
      _ = (s.placeFrom .start).1.skeleton := (Tree.skeleton_placeFrom _ s).symm
  exact hparse.map_eq

/-- One tab of a line that is indented twice is spelled with blanks, and the other tabs are kept. -/
theorem parse_retabbed_inner_body :
    Config.unlimited.spacesAsIndentation = true ∧ 0 < Config.unlimited.indentationSize ∧
    Text.Retabbed Config.unlimited.indentationSize "func f():\n\tif a:\n\t\tpass"
      "func f():\n\tif a:\n    \tpass" ∧
    (parse .file .unlimited "func f():\n\tif a:\n    \tpass").map Tree.skeleton =
      (parse .file .unlimited "func f():\n\tif a:\n\t\tpass").map Tree.skeleton := by
  have htext : Text.Retabbed Config.unlimited.indentationSize "func f():\n\tif a:\n\t\tpass"
      "func f():\n\tif a:\n    \tpass" :=
    (Text.Retabbed.refl "func f():\n\tif a:\n").push_tab.append (.refl "\tpass")
  exact ⟨rfl, by decide, htext, parse_retabbed rfl (by decide) htext⟩

end ScriptTree
