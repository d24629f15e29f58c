import ScriptTree.Depth
import ScriptTree.Form

/-!
Why reading a text gives no tree. Malformed text is never the reason: it stands in leaves without
a place.
-/

namespace ScriptTree

/-- Why reading a text gave no tree. -/
inductive ParseError where
  | depth (e : DepthOverflow)
  /-- A node was given a child for which its kind has no place. -/
  | tree (e : Misfit)
  deriving DecidableEq, Repr

namespace ParseError

/-- The text of the error. -/
def message : ParseError → String
  | depth e => e.message
  | tree e => "internal tree construction error: " ++ e.message

/-- The same outcome, with nesting beyond a limit as a reason. -/
def ofDepth {α : Type} (result : Except DepthOverflow α) : Except ParseError α :=
  result.mapError .depth

/-- The same outcome, with a misplaced child as a reason. -/
def ofTree {α : Type} (result : Except Misfit α) : Except ParseError α :=
  result.mapError .tree

@[simp]
theorem ofDepth_ok {α : Type} (a : α) : ofDepth (.ok a) = .ok a := rfl

@[simp]
theorem ofTree_ok {α : Type} (a : α) : ofTree (.ok a) = .ok a := rfl

end ParseError

end ScriptTree
