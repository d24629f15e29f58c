import ScriptTree.Form
import ScriptTree.Kind.Token
import ScriptTree.Source.Position

/-!
Syntax trees. Every character of a text stands in exactly one leaf, so that the texts of the
leaves, one after another, are the text.
-/

namespace ScriptTree

/-- A syntax tree; every token knows where it stands in the text. -/
inductive Tree where
  | leaf (kind : LeafKind) (text : String) (extent : Extent)
  | node (kind : NodeKind) (form : List (Role × Tree)) (extent : Extent)

/-- A child together with its role. -/
abbrev Entry := Role × Tree

namespace Tree

/-- A leaf whose place is not known yet. -/
def ofText (kind : LeafKind) (text : String) : Tree :=
  .leaf kind text .unplaced

/-- A node whose place is not known yet. -/
def ofForm (kind : NodeKind) (form : List Entry) : Tree :=
  .node kind form .unplaced

/-- A node put together from all its children at once, if its kind has a place for each. -/
def assemble (kind : NodeKind) (form : List Entry) : Except Misfit Tree := do
  Form.checkRoles kind form
  return .ofForm kind form

/-- A punctuation mark. -/
def ofPunct (mark : Punct) : Tree :=
  .ofText (.punct mark) mark.spelling

/-- Where the token stands. -/
def extent : Tree → Extent
  | .leaf _ _ extent => extent
  | .node _ _ extent => extent

/-- The byte range of the token. -/
def span (t : Tree) : Span :=
  t.extent.span

/-- The kind of the token. -/
def kind : Tree → TokenKind
  | .leaf kind _ _ => .leaf kind
  | .node kind _ _ => .node kind

/-- The kind of a leaf. -/
def leafKind? (t : Tree) : Option LeafKind :=
  t.kind.leaf?

/-- The kind of a node. -/
def nodeKind? (t : Tree) : Option NodeKind :=
  t.kind.node?

/-- The word of a leaf that is a reserved word. -/
def keyword? (t : Tree) : Option Keyword :=
  t.leafKind?.bind LeafKind.keyword?

/-- The text of a leaf; a node has none of its own. -/
def leafText? : Tree → Option String
  | .leaf _ text _ => some text
  | .node _ _ _ => none

/-- The children with their roles; a leaf has none. -/
def form : Tree → List Entry
  | .leaf _ _ _ => []
  | .node _ form _ => form

/-- The children of a tree. -/
def children (t : Tree) : List Tree :=
  t.form.map Prod.snd

/-- The occupant of a slot. -/
def occupant? (t : Tree) (slot : Slot) : Option Tree :=
  Form.occupant? slot t.form

/-- Whether the token is blanks, a comment or a line break. -/
def isTrivia (t : Tree) : Bool :=
  t.leafKind?.any LeafKind.isTrivia

/-- Whether the token is text without a place. -/
def isInvalid (t : Tree) : Bool :=
  t.leafKind? == some .invalid

/-- The same leaf with another kind; nodes keep theirs. -/
def withLeafKind (kind : LeafKind) : Tree → Tree
  | .leaf _ text extent => .leaf kind text extent
  | .node kind form extent => .node kind form extent

/-- The same leaf as text without a place. -/
def invalidated (t : Tree) : Tree :=
  t.withLeafKind .invalid

mutual

/-- The text of a tree. -/
def text : Tree → String
  | .leaf _ text _ => text
  | .node _ form _ => textOfForm form

/-- The text of children one after another. -/
def textOfForm : List Entry → String
  | [] => ""
  | (_, t) :: rest => t.text ++ textOfForm rest

end

/-- The text of tokens one after another. -/
def textOfTokens (tokens : List Tree) : String :=
  textOfForm (Form.extras tokens)

mutual

/-- The leaves in text order, each with its kind, text and place. -/
def leaves : Tree → List (LeafKind × String × Extent)
  | .leaf kind text extent => [(kind, text, extent)]
  | .node _ form _ => leavesOfForm form

/-- The leaves of children one after another. -/
def leavesOfForm : List Entry → List (LeafKind × String × Extent)
  | [] => []
  | (_, t) :: rest => t.leaves ++ leavesOfForm rest

end

mutual

/-- The number of tokens. -/
def size : Tree → Nat
  | .leaf _ _ _ => 1
  | .node _ form _ => 1 + sizeOfForm form

/-- The number of tokens of children together. -/
def sizeOfForm : List Entry → Nat
  | [] => 0
  | (_, t) :: rest => t.size + sizeOfForm rest

end

mutual

/-- The greatest number of steps from the token down to one inside it. -/
def depth : Tree → Nat
  | .leaf _ _ _ => 0
  | .node _ form _ => depthOfForm form

/-- The depth that children give their parent. -/
def depthOfForm : List Entry → Nat
  | [] => 0
  | (_, t) :: rest => max (t.depth + 1) (depthOfForm rest)

end

mutual

/-- Every token, parents before their children, with its kind and place. -/
def preorder : Tree → List (TokenKind × Extent)
  | .leaf kind _ extent => [(.leaf kind, extent)]
  | .node kind form extent => (.node kind, extent) :: preorderOfForm form

/-- Every token of children one after another. -/
def preorderOfForm : List Entry → List (TokenKind × Extent)
  | [] => []
  | (_, t) :: rest => t.preorder ++ preorderOfForm rest

end

/-- Induction over trees: a node may use the statement for all its children. -/
theorem induction {motive : Tree → Prop}
    (leaf : ∀ kind text extent, motive (.leaf kind text extent))
    (node : ∀ kind form extent, (∀ entry ∈ form, motive entry.2) →
      motive (.node kind form extent))
    (t : Tree) : motive t := by
  refine Tree.rec (motive_1 := motive) (motive_2 := fun form => ∀ entry ∈ form, motive entry.2)
    (motive_3 := fun entry => motive entry.2) leaf node ?_ ?_ ?_ t
  · simp
  · intro head tail hhead htail entry hmem
    rcases List.mem_cons.1 hmem with rfl | hmem
    · exact hhead
    · exact htail entry hmem
  · intro _ _ h
    exact h

@[simp]
theorem text_leaf (kind : LeafKind) (s : String) (extent : Extent) :
    (Tree.leaf kind s extent).text = s := by
  simp [text]

@[simp]
theorem text_node (kind : NodeKind) (form : List Entry) (extent : Extent) :
    (Tree.node kind form extent).text = textOfForm form := by
  simp [text]

@[simp]
theorem textOfForm_nil : textOfForm [] = "" := by
  simp [textOfForm]

@[simp]
theorem textOfForm_cons (role : Role) (t : Tree) (rest : List Entry) :
    textOfForm ((role, t) :: rest) = t.text ++ textOfForm rest := by
  simp [textOfForm]

/-- The text of two forms one after another is the two texts one after another. -/
@[simp]
theorem textOfForm_append (xs ys : List Entry) :
    textOfForm (xs ++ ys) = textOfForm xs ++ textOfForm ys := by
  induction xs with
  | nil => simp
  | cons entry rest ih =>
    obtain ⟨role, t⟩ := entry
    simp [ih, String.append_assoc]

/-- Changing the kind of a leaf keeps its text. -/
@[simp]
theorem text_withLeafKind (kind : LeafKind) (t : Tree) : (t.withLeafKind kind).text = t.text := by
  cases t <;> simp [withLeafKind]

@[simp]
theorem text_invalidated (t : Tree) : t.invalidated.text = t.text :=
  text_withLeafKind _ t

end Tree

end ScriptTree
