import ScriptTree.Arena.Rooted
import ScriptTree.Reparse.Apply

/-!
Bringing a tree up to date in the arena that holds it. What an item is read as stands in an arena of
its own; its entries are copied from there one after another, each copy is placed behind the one
before it and put into the place of an old entry. At last everything else in the tree that lies
behind moves.
-/

namespace ScriptTree

/-- Why a tree in an arena is not brought up to date. -/
inductive UpdateError where
  | parse (e : ParseError)
  /-- An operation on the arena was refused. -/
  | token (e : TokenError)

namespace Arena

/-- The token at the end of a way down from another one. -/
def descend? (a : Arena) : List Nat → Nat → Option Nat
  | [], id => some id
  | index :: path, id => ((a.children id)[index]?).bind (descend? a path)

/-- Copy a token of another arena, place the copy, and put it into the place of an old token.
Returns the name of the copy and where its text ends. -/
def substitute (a source : Arena) (start : Position) (old new : Nat) :
    Arena × Except TokenError (Nat × Position) :=
  let (a, copy) := a.importTree source new
  let (a, stop) := a.place copy start
  let (a, outcome) := a.replace old copy
  (a, outcome.map fun _ => (copy, stop))

/-- Put copies of tokens of another arena into the places of old tokens, one behind another.
Returns the names of the copies and where the text of the last one ends. -/
def substituteAll (a source : Arena) (start : Position) :
    List (Nat × Nat) → Arena × Except TokenError (List Nat × Position)
  | [] => (a, .ok ([], start))
  | (old, new) :: rest =>
    match a.substitute source start old new with
    | (a, .error e) => (a, .error e)
    | (a, .ok (copy, next)) =>
      match substituteAll a source next rest with
      | (a, .error e) => (a, .error e)
      | (a, .ok (copies, stop)) => (a, .ok (copy :: copies, stop))

/-- The tokens below a token, without those to be left out and what stands below them. -/
def preorderWithout (a : Arena) (skip : List Nat) (top : Nat) : List Nat :=
  stackWalk (fun id => (a.children id).filter fun child => !skip.contains child) a.size [top]

/-- Move everything below a token, but for tokens that are in their places, when the text before
it grows so that `old` becomes `new`. -/
def shiftWithout (a : Arena) (skip : List Nat) (top : Nat) (old new : Position) : Arena :=
  if old = new then a
  else
    (a.preorderWithout skip top).foldl (fun a id => a.setExtent id ((a.extent id).shift old new)) a

end Arena

namespace RootedArena

open Reparse

/-- The entries that a candidate stands for. -/
def runOf (r : RootedArena) (c : Candidate) : List (Role × Nat) :=
  let form := ((r.arena.descend? c.path r.root).map r.arena.form).getD []
  (form.drop c.first).take (c.last + 1 - c.first)

/-- Put copies of the children of a list in another arena into the place of an item's run, placed
where it begins, and move everything else. Also returns how many items they hold. -/
def replaceItem? (r : RootedArena) (c : Candidate) (source : Arena) (list : Nat) :
    RootedArena × Except TokenError (Option Nat) :=
  match (r.runOf c).head?, (r.runOf c).getLast? with
  | some opener, some item =>
    let pairs := ((r.runOf c).map Prod.snd).zip (source.children list)
    let old := (r.arena.extent item.2).stop
    match r.arena.substituteAll source (r.arena.extent opener.2).start pairs with
    | (arena, .error e) => ({ r with arena }, .error e)
    | (arena, .ok (copies, new)) =>
      let r : RootedArena := { r with arena := arena.shiftWithout copies r.root old new }
      let run := ((source.form list).map Prod.fst).zip (copies.map r.arena.tree)
      (r, .ok (some (Tree.blockItemsOfForm true run)))
  | _, _ => (r, .ok none)

/-- Read an item again with the edits it takes up, and put the result in its place. Also returns
how many items were read; `none` if the item cannot be read again on its own. -/
def spliceItem (config : Config) (r : RootedArena) (c : Candidate) (edits : List Edit) :
    RootedArena × Except UpdateError (Option Nat) :=
  match reread? config r.tree c edits with
  | .error e => (r, .error (.parse e))
  | .ok none => (r, .ok none)
  | .ok (some run) =>
    (r.replaceItem? c (.ofTree (.ofForm c.kind.nodeKind run)) 0).map id (Except.mapError .token)

/-- The first of the candidates that can take up the edits of its group. No candidate is tried
after one that an edit of another group touches. -/
def spliceFirst (config : Config) (r : RootedArena) (own foreign : List Edit) :
    List Candidate → RootedArena × Except UpdateError (Option Nat)
  | [] => (r, .ok none)
  | c :: outer =>
    if foreign.any c.touches then (r, .ok none)
    else
      match r.spliceItem config c own with
      | (r, .ok none) => spliceFirst config r own foreign outer
      | result => result

/-- Read the whole text again into an arena of its own; the arena stays as it is if that fails. -/
def full (config : Config) (r : RootedArena) (text : String) :
    RootedArena × Except UpdateError ReparseStats :=
  match parse (.ofTree r.tree) config text with
  | .ok new => (.ofTree new, .ok ⟨0, new.blockItems, true⟩)
  | .error e => (r, .error (.parse e))

/-- Take up groups of edits, the last one first. The edits of the groups already taken up are
`done`, and they gave `count` items. -/
def spliceGroups (config : Config) (text : String) (r : RootedArena) (done : List Edit)
    (count : Nat) : List Group → RootedArena × Except UpdateError ReparseStats
  | [] => (r, .ok ⟨r.tree.blockItems - count, count, false⟩)
  | group :: earlier =>
    let foreign := earlier.flatMap Group.edits ++ done
    match r.spliceFirst config group.edits foreign group.candidates with
    | (r, .error e) => (r, .error e)
    | (r, .ok none) => r.full config text
    | (r, .ok (some more)) =>
      spliceGroups config text r (group.edits ++ done) (count + more) earlier

/-- Bring the tree up to date with a text that the edits make of its own. Edits that do not make
that text, or of which some lies in no item, have the whole text read again. -/
def reparse (config : Config) (r : RootedArena) (text : String) (edits : List Edit) :
    RootedArena × Except UpdateError ReparseStats :=
  if edits.isEmpty ∧ r.tree.text = text then (r, .ok ⟨r.tree.blockItems, 0, false⟩)
  else
    match EditBatch.ofEdits edits with
    | .error _ => r.full config text
    | .ok batch =>
      match batch.apply r.tree.text, plan? config r.tree batch.edits with
      | .ok applied, some (group :: earlier) =>
        if applied = text then r.spliceGroups config text [] 0 (group :: earlier)
        else r.full config text
      | _, _ => r.full config text

end RootedArena

end ScriptTree
