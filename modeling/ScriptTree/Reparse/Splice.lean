import ScriptTree.Parse.Entry
import ScriptTree.Reparse.Candidate

/-!
Reading an item again on its own and putting the result in its place. Where the result might differ
from what reading the whole text gives, the item is refused: when it does not keep its shape, does
not end where its text ends, or is followed in its list by text without a place, which might now
belong to it.
-/

namespace ScriptTree

/-- Where a position moves when the text before it grows so that `old` becomes `new`. Positions
before `old` stay, and so do all of them if `old` itself does. -/
def Position.shift (p old new : Position) : Position :=
  if old = new ∨ p.offset < old.offset then p
  else {
    offset := p.offset - old.offset + new.offset
    line := p.line - old.line + new.line
    column := if p.line = old.line then p.column - old.column + new.column else p.column }

/-- Where an extent moves. -/
def Extent.shift (e : Extent) (old new : Position) : Extent :=
  ⟨e.start.shift old new, e.stop.shift old new⟩

namespace Tree

mutual

/-- Move a tree. -/
def shift (old new : Position) : Tree → Tree
  | .leaf kind text extent => .leaf kind text (extent.shift old new)
  | .node kind form extent => .node kind (shiftForm old new form) (extent.shift old new)

/-- Move children. -/
def shiftForm (old new : Position) : List Entry → List Entry
  | [] => []
  | (role, t) :: rest => (role, t.shift old new) :: shiftForm old new rest

end

mutual

/-- The number of items of line-oriented lists inside a tree. -/
def blockItems : Tree → Nat
  | .leaf _ _ _ => 0
  | .node kind form _ => blockItemsOfForm kind.isBlockList form

/-- The number of items of line-oriented lists among and inside children. -/
def blockItemsOfForm (inBlock : Bool) : List Entry → Nat
  | [] => 0
  | (role, t) :: rest =>
    (if inBlock && role == .item then 1 else 0) + t.blockItems + blockItemsOfForm inBlock rest

end

/-- The token at the end of a way from the root. -/
def descend? : List Nat → Tree → Option Tree
  | [], t => some t
  | index :: path, t => (t.form[index]?).bind fun entry => descend? path entry.2

mutual

/-- Moving a tree keeps its text. -/
theorem text_shift (old new : Position) (t : Tree) : (t.shift old new).text = t.text := by
  match t with
  | .leaf kind text extent => simp [shift]
  | .node kind form extent => simp [shift, textOfForm_shiftForm old new form]

/-- Moving children keeps their text. -/
theorem textOfForm_shiftForm (old new : Position) (form : List Entry) :
    textOfForm (shiftForm old new form) = textOfForm form := by
  match form with
  | [] => simp [shiftForm]
  | (role, t) :: rest =>
    simp [shiftForm, text_shift old new t, textOfForm_shiftForm old new rest]

end

end Tree

namespace Reparse

/-- Put a run of entries in the place of `count` entries from `first` on, in the list at the end
of a way from the root, and move everything else. -/
def replaceRun (old new : Position) (first count : Nat) (run : List Entry) :
    List Nat → Tree → Tree
  | _, .leaf kind text extent => .leaf kind text (extent.shift old new)
  | [], .node kind form extent =>
    .node kind
      (Tree.shiftForm old new (form.take first) ++ run
        ++ Tree.shiftForm old new (form.drop (first + count)))
      (extent.shift old new)
  | index :: path, .node kind form extent =>
    let form := form.mapIdx fun i entry =>
      if i = index then (entry.1, replaceRun old new first count run path entry.2)
      else (entry.1, entry.2.shift old new)
    .node kind form (extent.shift old new)

/-- Whether text without a place stands between an item and the next one. -/
def isFollowedByInvalid (after : List Entry) : Bool :=
  (after.takeWhile fun entry => entry.1 != .item).any fun entry => entry.2.isInvalid

/-- Whether a new entry may stand in the place of an old one. -/
def matchesEntry (old new : Entry) : Bool :=
  old.1 == new.1 && !new.2.isInvalid
    && (old.1 != .item || old.2.nodeKind? == new.2.nodeKind?)

/-- Whether a new run may stand in the place of an old one. -/
def matchesRun (old new : List Entry) : Bool :=
  old.length == new.length && (old.zip new).all fun pair => matchesEntry pair.1 pair.2

/-- The text of a run after edits, unless they do not fit it or reach into its indentation. -/
def editedText? (base : Nat) (run : List Entry) (edits : List Edit) : Option String :=
  let own := edits.map fun e => { e with offset := e.offset - base }
  match (EditBatch.ofEdits own).bind fun batch => batch.apply (Tree.textOfForm run) with
  | .ok text => if text.toList.head?.any Text.isInlineSpace then none else some text
  | .error _ => none

/-- The entries that a text of a single line's items gives, unless something of it is left over
or it might have gone on. -/
def readRun? (config : Config) (c : Candidate) (text : String) :
    Except ParseError (Option (List Entry)) := do
  let (d, notices) ← Automaton.run config (.block (.ofSingleItem c.kind c.level)) text
  let leaks := notices.truncated || notices.escaped || !d.leading.isEmpty
    || !d.trailing.isEmpty || d.handback.isSome || d.line.isSome
  return if leaks then none else d.token.map Tree.form

/-- The entries of the list at the end of a way into a tree. -/
def listAt (path : List Nat) (t : Tree) : List Entry :=
  ((t.descend? path).map Tree.form).getD []

/-- The run that a candidate stands for. -/
def Candidate.runIn (c : Candidate) (t : Tree) : List Entry :=
  ((listAt c.path t).drop c.first).take (c.last + 1 - c.first)

/-- The entries that may stand in the place of an item's run, read again with the edits that the
item takes up; `none` if the item cannot be read again on its own. -/
def reread? (config : Config) (tree : Tree) (c : Candidate) (edits : List Edit) :
    Except ParseError (Option (List Entry)) := do
  let oldRun := c.runIn tree
  match oldRun.head? with
  | none => return none
  | some (_, opener) =>
    if isFollowedByInvalid ((listAt c.path tree).drop (c.last + 1)) then return none
    match editedText? opener.extent.start.offset oldRun edits with
    | none => return none
    | some text =>
      match ← readRun? config c text with
      | none => return none
      | some newRun => return if matchesRun oldRun newRun then some newRun else none

/-- Put entries in the place of an item's run, placed where it begins, and move everything else.
Also returns how many items they hold. -/
def replaceItem? (tree : Tree) (c : Candidate) (newRun : List Entry) : Option (Tree × Nat) :=
  match (c.runIn tree).head?, (c.runIn tree).getLast? with
  | some (_, opener), some (_, item) =>
    let (newRun, stop) := Tree.placeForm opener.extent.start newRun
    let tree := replaceRun item.extent.stop stop c.first (c.last + 1 - c.first) newRun c.path tree
    some (tree, Tree.blockItemsOfForm true newRun)
  | _, _ => none

/-- Read an item again with the edits it takes up, and put the result in its place. Also returns
how many items were read; `none` if the item cannot be read again on its own. -/
def spliceItem (config : Config) (tree : Tree) (c : Candidate) (edits : List Edit) :
    Except ParseError (Option (Tree × Nat)) := do
  match ← reread? config tree c edits with
  | none => return none
  | some newRun => return replaceItem? tree c newRun

end Reparse

end ScriptTree
