import ScriptTree.Arena.Edit
import ScriptTree.Tree.Placement

/-!
The trees that an arena holds: taking one out as a value, putting one in, copying, and placing
tokens. A walk down meets no more tokens than the arena has, and a way from a token down to one
inside it has fewer steps, which bounds every recursion here.
-/

namespace ScriptTree

/-- What a walk with a stack meets: each thing it meets puts what follows it on the stack, the first
on top. -/
def stackWalk {α : Type} (next : α → List α) : Nat → List α → List α
  | 0, _ => []
  | _ + 1, [] => []
  | steps + 1, x :: stack => x :: stackWalk next steps (next x ++ stack)

namespace Arena

/-- The tree below a token, down to a given depth. -/
def treeFrom (a : Arena) : Nat → Nat → Tree
  | 0, _ => .ofText .invalid ""
  | fuel + 1, id =>
    match a.get? id with
    | none => .ofText .invalid ""
    | some token =>
      match token.body with
      | .leaf kind text => .leaf kind text token.extent
      | .node kind form =>
        .node kind (form.map fun entry => (entry.1, treeFrom a fuel entry.2)) token.extent

/-- The tree below a token. -/
def tree (a : Arena) (id : Nat) : Tree :=
  a.treeFrom a.size id

/-- The tokens below a token, parents before their children, down to a given depth. -/
def preorderFrom (a : Arena) : Nat → Nat → List Nat
  | 0, _ => []
  | fuel + 1, id => id :: (a.children id).flatMap (preorderFrom a fuel)

/-- A token and the tokens below it, parents before their children. -/
def preorder (a : Arena) (id : Nat) : List Nat :=
  a.preorderFrom a.size id

mutual

/-- Allocate all tokens of a tree, parents before their children; returns the name of the
topmost. -/
def insertTree (a : Arena) (parent : Option Nat) : Tree → Arena × Nat
  | .leaf kind text extent =>
    (⟨a.tokens.push { body := .leaf kind text, parent, extent }⟩, a.size)
  | .node kind form extent =>
    let id := a.size
    let a : Arena := ⟨a.tokens.push { body := .node kind [], parent, extent }⟩
    let (a, form) := insertForm a id form
    (a.updateForm id fun _ => form, id)

/-- Allocate all tokens of children one after another; returns the form that they make. -/
def insertForm (a : Arena) (parent : Nat) : List Entry → Arena × List (Role × Nat)
  | [] => (a, [])
  | (role, t) :: rest =>
    let (a, id) := insertTree a (some parent) t
    let (a, rest) := insertForm a parent rest
    (a, (role, id) :: rest)

end

/-- An arena that holds one tree, whose topmost token has the first name. -/
def ofTree (t : Tree) : Arena :=
  (insertTree {} none t).1

/-- Allocate a token for each token of a source in a list, at the same place but in no form and
without children; also returns the new names by the old ones. -/
def allocCopies (source : Arena) : Arena → List Nat → Arena × List (Nat × Nat)
  | a, [] => (a, [])
  | a, old :: rest =>
    let body := match source.get? old with
      | none => .leaf .invalid ""
      | some t => (t.mapForm fun _ => []).body
    let (a, new) := a.alloc body
    let (a, names) := allocCopies source (a.setExtent new (source.extent old)) rest
    (a, (old, new) :: names)

/-- The new name of a token. -/
def newName (names : List (Nat × Nat)) (old : Nat) : Nat :=
  (names.lookup old).getD 0

/-- Give the copies of nodes their forms under the new names, and the children in them their
parents. -/
def linkCopies (source : Arena) (names : List (Nat × Nat)) : Arena → List Nat → Arena
  | a, [] => a
  | a, old :: rest =>
    let node := newName names old
    let form := (source.form old).map fun entry => (entry.1, newName names entry.2)
    let a := form.foldl (fun a entry => a.setParent entry.2 (some node)) a
    linkCopies source names (a.updateForm node fun _ => form) rest

/-- Copy the tree below a token of another arena: all tokens first, parents before their children,
and then their forms. The copy keeps the places of the source and stands in no form. -/
def importTree (a source : Arena) (top : Nat) : Arena × Nat :=
  let order := stackWalk source.children source.size [top]
  let (a, names) := allocCopies source a order
  (linkCopies source names a order, newName names top)

/-- A node whose children are being placed. -/
structure PlaceFrame where
  node : Nat
  /-- The number of children that have a place already. -/
  placed : Nat := 0
  /-- Where the node begins. -/
  start : Position

/-- Place what is left of nodes one inside another, the innermost first, the text of what is left
beginning at `pos`: a leaf ends after its text, and a node where its last child ends. -/
def placeFrames : Nat → Arena → Position → List PlaceFrame → Arena × Position
  | 0, a, pos, _ => (a, pos)
  | _ + 1, a, pos, [] => (a, pos)
  | fuel + 1, a, pos, frame :: around =>
    match (a.form frame.node)[frame.placed]? with
    | none => placeFrames fuel (a.setExtent frame.node ⟨frame.start, pos⟩) pos around
    | some (_, child) =>
      let around := { frame with placed := frame.placed + 1 } :: around
      match a.text? child with
      | some text =>
        let stop := pos.advance text
        placeFrames fuel (a.setExtent child ⟨pos, stop⟩) stop around
      | none => placeFrames fuel a pos ({ node := child, start := pos } :: around)

/-- Place a token and the tokens below it; also returns where the text ends. Every token takes two
steps at most, one as a child and one to end a node. -/
def place (a : Arena) (top : Nat) (start : Position) : Arena × Position :=
  match a.text? top with
  | some text => (a.setExtent top ⟨start, start.advance text⟩, start.advance text)
  | none => placeFrames (2 * a.size) a start [{ node := top, start }]

end Arena

end ScriptTree
