import ScriptTree.Command.Options
import ScriptTree.Parse.Entry

/-!
What the commands show of a script: its outline, its text, and the text in it for which the
grammar has no place.
-/

namespace ScriptTree.Command

/-- A run of text without a place. -/
structure Problem where
  start : Position
  text : String
  deriving DecidableEq, Repr

/-- The problem in one line. -/
def Problem.display (p : Problem) : String :=
  p.start.display ++ ": unexpected " ++ Text.quoted p.text

/-- The problems of a tree, in text order. -/
def Problem.ofTree (t : Tree) : List Problem :=
  t.invalidLeaves.map fun (extent, text) => ⟨extent.start, text⟩

/-- The problems of a script. -/
def problems (options : Options) (source : String) : Except ParseError (List Problem) :=
  (parse .file options.config source).map Problem.ofTree

/-- The outline of a script. -/
def outline (options : Options) (source : String) : Except ParseError String :=
  (parse .file options.config source).map Tree.outline

/-- The text of a script as its tree gives it back. -/
def render (options : Options) (source : String) : Except ParseError String :=
  (parse .file options.config source).map (Tree.render options.renderMode)

/-- A tree has no problems exactly when it is well formed. -/
theorem Problem.ofTree_eq_nil_iff (t : Tree) : Problem.ofTree t = [] ↔ t.isWellFormed := by
  simp [Problem.ofTree, Tree.isWellFormed_iff]

end ScriptTree.Command
