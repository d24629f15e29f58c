import ScriptTree.Reparse.Apply
import ScriptTree.Source.Difference
import ScriptTree.Tree.Outline

/-!
Bringing the tree of one version of a script up to date with the next version, and comparing the
result with the tree that the next version gives when it is read afresh.
-/

namespace ScriptTree.Command

/-- What bringing a tree up to date gave. -/
structure Comparison where
  /-- The edit between the versions, if they differ. -/
  edit : Option Edit
  stats : ReparseStats
  /-- Whether the tree is the one that the new version gives on its own. -/
  consistent : Bool
  deriving DecidableEq, Repr

namespace Comparison

/-- The line about the edit. -/
def editLine : Option Edit → String
  | some e =>
    "edit: replace " ++ toString e.removed ++ " byte(s) at " ++ toString e.offset ++ " with "
      ++ Text.quoted e.inserted
  | none => "edit: none"

/-- The report on the comparison, one line for each finding. -/
def display (c : Comparison) : String :=
  "\n".intercalate
    [editLine c.edit,
     "reused: " ++ toString c.stats.reused,
     "reparsed: " ++ toString c.stats.reparsed,
     "full reparse: " ++ (if c.stats.full then "true" else "false"),
     "reuse rate: " ++ c.stats.rateText ++ "%",
     "consistent: " ++ (if c.consistent then "yes" else "NO")]

/-- Why two versions of a script cannot be compared. -/
inductive Error where
  | difference (e : DifferenceError)
  | parse (e : ParseError)
  deriving DecidableEq, Repr

/-- The text of the error. -/
def Error.message : Error → String
  | difference e => e.message
  | parse e => e.message

/-- Compare two versions of a script. -/
def ofVersions (config : Config) (old new : String) : Except Error Comparison := do
  let edit ← (Edit.recover old new).mapError .difference
  let tree ← (parse .file config old).mapError .parse
  let reparsed := reparse config tree new edit.toList
  let stats ← reparsed.outcome.mapError .parse
  let fresh ← (parse .file config new).mapError .parse
  return {
    edit, stats
    consistent := reparsed.tree.text == new && reparsed.tree.outline == fresh.outline }

end Comparison

end ScriptTree.Command
