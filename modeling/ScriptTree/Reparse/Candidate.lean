import ScriptTree.Config
import ScriptTree.Grammar.Block
import ScriptTree.Source.Edit

/-!
The parts of a tree that can be read again on their own: items of line-oriented lists that begin
their line. An item that shares its line with annotations or a class name before it is read again
together with them.
-/

namespace ScriptTree.Reparse

/-- An item that can be read again on its own. -/
structure Candidate where
  /-- The way from the root to the list, by the place of each child. -/
  path : List Nat
  /-- The place in the list of the first entry of the line. -/
  first : Nat
  /-- The place in the list of the item. -/
  last : Nat
  kind : BlockKind
  level : Nat
  /-- Where the line stands in the text before the edits. -/
  span : Span
  deriving DecidableEq, Repr

namespace Candidate

/-- Whether an edit touches the item; the end of the item counts as inside. -/
def touches (c : Candidate) (e : Edit) : Bool :=
  e.offset ≤ c.span.stop && c.span.start ≤ e.stop

/-- Whether the range lies within the item. -/
def covers (c : Candidate) (start stop : Nat) : Bool :=
  c.span.start ≤ start && stop ≤ c.span.stop

end Candidate

/-- Where a node stands among its ancestors. -/
structure Surroundings where
  /-- The way from the root to the node, the last step first. -/
  steps : List Nat := []
  /-- The kind of the parent, unless the node is the root. -/
  parent : Option NodeKind := none
  /-- Whether an ancestor is a lambda, whose lines are read inside an expression. -/
  inLambda : Bool := false

/-- Where a child stands. -/
def Surroundings.child (s : Surroundings) (kind : NodeKind) (index : Nat) : Surroundings :=
  { steps := index :: s.steps, parent := some kind, inLambda := s.inLambda || kind == .lambda }

/-- Whether a list is the outermost one, whose items stand at level zero. -/
def Surroundings.isOutermost (s : Surroundings) : Bool :=
  match s.parent with
  | none => true
  | some kind => kind == .file

/-- Items after which their line goes on. -/
def leavesLineOpen (entry : Entry) : Bool :=
  entry.1 == .item
    && (entry.2.nodeKind? == some .annotationUse || entry.2.nodeKind? == some .classNameClause)

/-- How many of the preceding entries, the nearest first, stand on the same line as an item:
items that leave the line open, and the blanks after them. -/
def runLength (blanks : Nat) : List Entry → Nat
  | [] => 0
  | entry :: rest =>
    if entry.2.leafKind? = some .space then runLength (blanks + 1) rest
    else if leavesLineOpen entry then blanks + 1 + runLength 0 rest
    else 0

/-- The level of a line, by the entry before it; `none` if the line's beginning is not plain. -/
def lineLevel? (config : Config) (outermost : Bool) : Option Entry → Option Nat
  | none => if outermost then some 0 else none
  | some (_, previous) =>
    if outermost then if previous.leafKind? = some .newLine then some 0 else none
    else if previous.leafKind? = some .indentation then
      let level := BlockReader.measure config (some previous)
      if level.exact then some level.units else none
    else none

/-- The item at a place of a node's form, if it can be read again on its own. -/
def candidate? (config : Config) (s : Surroundings) (kind : NodeKind) (form : List Entry)
    (index : Nat) : Option Candidate := do
  let block ← BlockKind.ofNodeKind? kind
  let (role, item) ← form[index]?
  let first := index - runLength 0 (form.take index).reverse
  let (_, opener) ← form[first]?
  let previous := if first = 0 then none else form[first - 1]?
  let level ← lineLevel? config s.isOutermost previous
  if role = .item ∧ s.inLambda = false then
    some {
      path := s.steps.reverse, first, last := index, kind := block, level
      span := ⟨opener.span.start, item.span.stop⟩ }
  else none

mutual

/-- The candidates inside a tree that enclose a range, the innermost first. -/
def candidatesIn (config : Config) (start stop : Nat) (s : Surroundings) :
    Tree → List Candidate
  | .leaf _ _ _ => []
  | .node kind form _ => candidatesInForm config start stop s kind form 0 form

/-- The candidates inside the first of a node's children, from a place on, that encloses a
range. -/
def candidatesInForm (config : Config) (start stop : Nat) (s : Surroundings) (kind : NodeKind)
    (whole : List Entry) (index : Nat) : List Entry → List Candidate
  | [] => []
  | (_, t) :: rest =>
    if t.nodeKind?.isSome && t.span.covers ⟨start, stop⟩ then
      candidatesIn config start stop (s.child kind index) t
        ++ ((candidate? config s kind whole index).filter (·.covers start stop)).toList
    else candidatesInForm config start stop s kind whole (index + 1) rest

end

/-- The items that enclose a range and can be read again on their own, the innermost first. -/
def candidates (config : Config) (tree : Tree) (start stop : Nat) : List Candidate :=
  candidatesIn config start stop {} tree

end ScriptTree.Reparse
