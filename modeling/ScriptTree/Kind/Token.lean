import ScriptTree.Kind.Leaf
import ScriptTree.Kind.Node

/-!
The kind of any token, leaf or inner node.
-/

namespace ScriptTree

/-- The kind of a token. -/
inductive TokenKind where
  | leaf (kind : LeafKind)
  | node (kind : NodeKind)
  deriving DecidableEq, Repr

namespace TokenKind

/-- The kind as outlines show it. -/
def display : TokenKind → String
  | .leaf kind => kind.display
  | .node kind => kind.label

/-- The leaf kind of a leaf. -/
def leaf? : TokenKind → Option LeafKind
  | .leaf kind => some kind
  | .node _ => none

/-- The node kind of a node. -/
def node? : TokenKind → Option NodeKind
  | .leaf _ => none
  | .node kind => some kind

/-- Whether the token is a leaf. -/
def isLeaf (kind : TokenKind) : Bool :=
  kind.leaf?.isSome

end TokenKind

end ScriptTree
