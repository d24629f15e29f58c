import ScriptTree.Tree.Basic

/-!
Arenas: storage in which tokens are named by the order of their allocation, so that trees can be
changed in place. A token stands in the form of at most one node, and knows that node as its
parent.
-/

namespace ScriptTree

/-- The content of a token: the text of a leaf, or the form of a node. -/
inductive TokenBody where
  | leaf (kind : LeafKind) (text : String)
  | node (kind : NodeKind) (form : List (Role × Nat))
  deriving DecidableEq, Repr

/-- A token of an arena. -/
structure Token where
  body : TokenBody
  parent : Option Nat := none
  extent : Extent := .unplaced
  deriving DecidableEq, Repr

namespace Token

/-- The kind of the token. -/
def kind (t : Token) : TokenKind :=
  match t.body with
  | .leaf kind _ => .leaf kind
  | .node kind _ => .node kind

/-- The form of a node; a leaf has an empty one. -/
def form (t : Token) : List (Role × Nat) :=
  match t.body with
  | .leaf _ _ => []
  | .node _ form => form

/-- The text of a leaf. -/
def text? (t : Token) : Option String :=
  match t.body with
  | .leaf _ text => some text
  | .node _ _ => none

/-- The token with its form changed, if it is a node. -/
def mapForm (change : List (Role × Nat) → List (Role × Nat)) (t : Token) : Token :=
  match t.body with
  | .leaf _ _ => t
  | .node kind form => { t with body := .node kind (change form) }

end Token

/-- Tokens named by the order of their allocation. -/
structure Arena where
  tokens : Array Token := #[]
  deriving DecidableEq, Repr

namespace Arena

/-- The number of tokens, detached ones included. -/
def size (a : Arena) : Nat :=
  a.tokens.size

/-- The token of a name. -/
def get? (a : Arena) (id : Nat) : Option Token :=
  a.tokens[id]?

/-- Change a token. -/
def update (a : Arena) (id : Nat) (change : Token → Token) : Arena :=
  ⟨a.tokens.modify id change⟩

/-- The kind of a token. -/
def kind? (a : Arena) (id : Nat) : Option TokenKind :=
  (a.get? id).map Token.kind

/-- The kind of a node. -/
def nodeKind? (a : Arena) (id : Nat) : Option NodeKind :=
  (a.kind? id).bind TokenKind.node?

/-- The kind of a leaf. -/
def leafKind? (a : Arena) (id : Nat) : Option LeafKind :=
  (a.kind? id).bind TokenKind.leaf?

/-- The text of a leaf; a node has none of its own. -/
def text? (a : Arena) (id : Nat) : Option String :=
  (a.get? id).bind Token.text?

/-- The form of a node; a leaf has an empty one. -/
def form (a : Arena) (id : Nat) : List (Role × Nat) :=
  ((a.get? id).map Token.form).getD []

/-- The children of a node in text order. -/
def children (a : Arena) (id : Nat) : List Nat :=
  (a.form id).map Prod.snd

/-- The node in whose form a token stands. -/
def parent? (a : Arena) (id : Nat) : Option Nat :=
  (a.get? id).bind Token.parent

/-- The occupant of a slot. -/
def occupant? (a : Arena) (node : Nat) (slot : Slot) : Option Nat :=
  Form.occupant? slot (a.form node)

/-- The role of a token in its parent's form. -/
def role? (a : Arena) (id : Nat) : Option Role := do
  let parent ← a.parent? id
  let entry ← (a.form parent).find? fun entry => entry.2 == id
  return entry.1

/-- The place of a token. -/
def extent (a : Arena) (id : Nat) : Extent :=
  ((a.get? id).map Token.extent).getD .unplaced

/-- The proper ancestors of a token, the nearest first; at most `fuel` of them. -/
def ancestorsFrom (a : Arena) : Nat → Nat → List Nat
  | 0, _ => []
  | fuel + 1, id =>
    match a.parent? id with
    | none => []
    | some parent => parent :: ancestorsFrom a fuel parent

/-- The proper ancestors of a token, the nearest first. A token has fewer of them than there are
tokens. -/
def ancestors (a : Arena) (id : Nat) : List Nat :=
  a.ancestorsFrom a.size id

/-- Whether `ancestor` is a proper ancestor of a token. -/
def isAncestor (a : Arena) (ancestor id : Nat) : Bool :=
  (a.ancestors id).contains ancestor

/-- Set the place of a token. -/
def setExtent (a : Arena) (id : Nat) (extent : Extent) : Arena :=
  a.update id fun t => { t with extent }

/-- Set the parent of a token. -/
def setParent (a : Arena) (id : Nat) (parent : Option Nat) : Arena :=
  a.update id fun t => { t with parent }

/-- Change the form of a node. -/
def updateForm (a : Arena) (node : Nat) (change : List (Role × Nat) → List (Role × Nat)) :
    Arena :=
  a.update node (Token.mapForm change)

/-- Change the kind of a leaf; nodes keep theirs. -/
def setLeafKind (a : Arena) (id : Nat) (kind : LeafKind) : Arena :=
  a.update id fun t =>
    match t.body with
    | .leaf _ text => { t with body := .leaf kind text }
    | .node _ _ => t

/-- Turn a leaf into text without a place. -/
def invalidate (a : Arena) (id : Nat) : Arena :=
  a.setLeafKind id .invalid

/-- Changing a token changes no other. -/
theorem get?_update_of_ne (a : Arena) {id other : Nat} (change : Token → Token)
    (h : other ≠ id) : (a.update id change).get? other = a.get? other := by
  simp only [get?, update, Array.getElem?_modify]
  split
  · rename_i heq
    exact absurd heq.symm h
  · rfl

/-- A changed token is found changed. -/
theorem get?_update_self (a : Arena) (id : Nat) (change : Token → Token) :
    (a.update id change).get? id = (a.get? id).map change := by
  simp [get?, update, Array.getElem?_modify]

/-- Changing tokens allocates none. -/
@[simp]
theorem size_update (a : Arena) (id : Nat) (change : Token → Token) :
    (a.update id change).size = a.size := by
  simp [size, update]

end Arena

end ScriptTree
