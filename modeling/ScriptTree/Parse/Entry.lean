import ScriptTree.Parse.Automaton
import ScriptTree.Tree.Placement

/-!
Parsing a text from one of four entry points: a whole script, a run of statements, one statement
or one expression. Malformed text is no error; it stands in leaves without a place.
-/

namespace ScriptTree

/-- What a text is taken to be. -/
inductive Entrance where
  | file
  | statements
  | statement
  | expression
  deriving DecidableEq, Repr

namespace Entrance

/-- The outermost reading state. -/
def reader : Entrance → Reader
  | .file => .block (.atRoot .members)
  | .statements | .statement => .block (.atRoot .statements)
  | .expression => .root {}

/-- Read a tree's text again as what it was taken to be. -/
def ofTree (t : Tree) : Entrance :=
  match t.nodeKind? with
  | some .file => .file
  | some .statementsList => .statements
  | some .expressionStatement => .expression
  | _ => .statement

/-- The only item of a list, with everything around it moved into it as extras; any other list
stays as it is. -/
def hoistItem (list : Tree) : Tree :=
  match Form.items list.form, list.form.span (fun entry => entry.1 != .item) with
  | [.node kind form extent], (before, _ :: after) =>
    .node kind
      (Form.extras (before.map Prod.snd) ++ form ++ Form.extras (after.map Prod.snd)) extent
  | _, _ => list

/-- Put tokens around a node's children, as extras. A leaf has no place for any. -/
def surround (leading trailing : List Tree) : Tree → Except Misfit Tree
  | .node kind form extent =>
    .ok (.node kind (Form.extras leading ++ form ++ Form.extras trailing) extent)
  | .leaf kind text extent =>
    if leading.isEmpty && trailing.isEmpty then .ok (.leaf kind text extent)
    else .error (.notANode kind)

/-- The root of what the outermost state delivered. -/
def rootOf (entrance : Entrance) (d : Delivery) : Except Misfit Tree :=
  match d.token with
  | none => .ok (.ofForm .statementsList (Form.extras (d.leading ++ d.trailing)))
  | some top =>
    match entrance with
    | .file => do
      let members ← surround d.leading [] top
      Tree.assemble .file ((.slot .members, members) :: Form.extras d.trailing)
    | .statements | .expression => surround d.leading d.trailing top
    | .statement => (surround d.leading d.trailing top).map hoistItem

end Entrance

/-- Parse a text: a tree of which every token knows its place. -/
def parse (entrance : Entrance) (config : Config) (text : String) :
    Except ParseError Tree := do
  let (d, _) ← Automaton.run config entrance.reader text
  return (← ParseError.ofTree (entrance.rootOf d)).placed

end ScriptTree
