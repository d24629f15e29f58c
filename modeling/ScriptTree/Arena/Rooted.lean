import ScriptTree.Arena.Copy
import ScriptTree.Tree.Outline

/-!
An arena with a token that is the root of a tree: changing a parsed tree in place, finding tokens
by their offset, and dropping what was taken out.
-/

namespace ScriptTree

/-- An arena and the root of a tree in it. -/
structure RootedArena where
  arena : Arena
  root : Nat

namespace RootedArena

/-- A tree that can be changed in place. -/
def ofTree (t : Tree) : RootedArena := ⟨.ofTree t, 0⟩

/-- The tree as a value. -/
def tree (r : RootedArena) : Tree :=
  r.arena.tree r.root

/-- The tokens of the tree, parents before their children. -/
def preorder (r : RootedArena) : List Nat :=
  r.arena.preorder r.root

/-- The innermost token below a token, down to a given depth, whose bytes hold an offset. -/
def innermostFrom (a : Arena) (offset : Nat) : Nat → Nat → Nat
  | 0, id => id
  | fuel + 1, id =>
    match (a.children id).find? fun child => (a.extent child).span.contains offset with
    | some child => innermostFrom a offset fuel child
    | none => id

/-- The innermost token whose bytes hold an offset. -/
def tokenAt? (r : RootedArena) (offset : Nat) : Option Nat :=
  if (r.arena.extent r.root).span.contains offset then
    some (innermostFrom r.arena offset r.arena.size r.root)
  else none

/-- Place all tokens of the tree; also returns where the text ends. -/
def place (r : RootedArena) (start : Position) : RootedArena × Position :=
  let (arena, stop) := r.arena.place r.root start
  ({ r with arena }, stop)

/-- The tree below a token, in an arena of its own. -/
def copy (r : RootedArena) (id : Nat) : RootedArena :=
  let (arena, root) := Arena.importTree {} r.arena id
  ⟨arena, root⟩

/-- The same tree in an arena without other tokens. -/
def compact (r : RootedArena) : RootedArena :=
  r.copy r.root

/-- A token that waits for its line in an outline. -/
structure OutlineFrame where
  token : Nat
  depth : Nat := 0
  role? : Option Role := none

namespace OutlineFrame

/-- The children of the token, one level deeper. -/
def children (a : Arena) (frame : OutlineFrame) : List OutlineFrame :=
  (a.form frame.token).map fun entry => ⟨entry.2, frame.depth + 1, some entry.1⟩

/-- The line of the token. -/
def line (a : Arena) (frame : OutlineFrame) : Tree.OutlineLine where
  depth := frame.depth
  role? := frame.role?
  kind := (a.kind? frame.token).getD (.leaf .invalid)
  span := (a.extent frame.token).span
  text? := a.text? frame.token

end OutlineFrame

/-- The outline of the tree. -/
def outline (r : RootedArena) : String :=
  let frames := stackWalk (OutlineFrame.children r.arena) r.arena.size [{ token := r.root }]
  String.join (frames.map fun frame => (frame.line r.arena).render)

end RootedArena

end ScriptTree
