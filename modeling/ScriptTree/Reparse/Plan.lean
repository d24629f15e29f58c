import ScriptTree.Reparse.Candidate

/-!
Which items have to be read again for which edits. Edits that share an item, or whose items meet,
form a group.
-/

namespace ScriptTree.Reparse

/-- Neighbouring edits, and the items that may take all of them up. -/
structure Group where
  edits : List Edit
  /-- The innermost item. -/
  item : Candidate
  /-- The items around it, the innermost first. -/
  outer : List Candidate

namespace Group

/-- The items that may take the edits up, the innermost first. -/
def candidates (g : Group) : List Candidate :=
  g.item :: g.outer

end Group

/-- Whether an item ends between edits: none of the following edits begins in it and reaches
beyond it. -/
def endsBetween (later : List Edit) (c : Candidate) : Bool :=
  (later.takeWhile fun e => e.offset ≤ c.span.stop).all fun e => e.stop ≤ c.span.stop

/-- Form a group from neighbouring edits, of which those come later that are not part of it yet.
The later edits that begin in its item join it; returns the group and the edits that are left. -/
def grow? (config : Config) (tree : Tree) (own later : List Edit) :
    Option (Group × List Edit) := do
  let first ← own.head?
  let last ← own.getLast?
  match (candidates config tree first.offset last.stop).dropWhile (!endsBetween later ·) with
  | [] => none
  | item :: outer =>
    let inItem (e : Edit) : Bool := e.offset ≤ item.span.stop
    some (⟨own ++ later.takeWhile inItem, item, outer⟩, later.dropWhile inItem)

/-- Form a group that joins the earlier groups whose items meet its item, the nearest first.
Returns all groups so far, the latest first, and the edits that are left. -/
def join? (config : Config) (tree : Tree) (own later : List Edit) :
    List Group → Option (List Group × List Edit)
  | [] => (grow? config tree own later).map fun (group, later) => ([group], later)
  | nearest :: earlier => do
    let (group, later) ← grow? config tree own later
    if group.item.span.start ≤ nearest.item.span.stop then
      join? config tree (nearest.edits ++ group.edits) later earlier
    else some (group :: nearest :: earlier, later)

/-- Group edits, given the groups so far, the latest first. -/
def planFrom? (config : Config) (tree : Tree) :
    Nat → List Group → List Edit → Option (List Group)
  | _, groups, [] => some groups
  | 0, _, _ :: _ => none
  | fuel + 1, groups, e :: later => do
    let (groups, later) ← join? config tree [e] later groups
    planFrom? config tree fuel groups later

/-- Group sorted edits, none of which overlaps another, the last group first; `none` if some edit
lies in no item that can be read again on its own. -/
def plan? (config : Config) (tree : Tree) (edits : List Edit) : Option (List Group) :=
  planFrom? config tree edits.length [] edits

end ScriptTree.Reparse
