import ScriptTree.Text.Quoted
import ScriptTree.Tree.Basic

/-!
Views of a tree: its canonical text, its outline, the tokens a walk meets, and the text for
which the grammar had no place.
-/

namespace ScriptTree

/-- Which characters of the leaves are shown. -/
inductive RenderMode where
  /-- Every character. -/
  | literal
  /-- All but carriage returns, whether leaves of their own or not. -/
  | canonical
  deriving DecidableEq, Repr

/-- The name of the mode. -/
def RenderMode.label : RenderMode → String
  | .literal => "Literal"
  | .canonical => "Canonical"

/-- What a walk through a tree meets. -/
inductive WalkEvent where
  | enter (kind : NodeKind)
  | leave (kind : NodeKind)
  | leaf (kind : LeafKind)
  deriving DecidableEq, Repr

/-- The event in one line. -/
def WalkEvent.display : WalkEvent → String
  | .enter kind => "enter " ++ kind.label
  | .leave kind => "leave " ++ kind.label
  | .leaf kind => "leaf " ++ kind.debug

namespace Tree

/-- The text of a leaf in the canonical rendering. -/
def canonicalLeaf (kind : LeafKind) (text : String) : String :=
  if kind = .carriageReturn then "" else String.ofList (text.toList.filter (· != '\r'))

/-- The text without carriage returns. -/
def canonical (t : Tree) : String :=
  String.join (t.leaves.map fun leaf => canonicalLeaf leaf.1 leaf.2.1)

/-- The text of the tree in the given mode. -/
def render (mode : RenderMode) (t : Tree) : String :=
  match mode with
  | .literal => t.text
  | .canonical => t.canonical

/-- The leaves without a place in the grammar: where each stands, and its text. -/
def invalidLeaves (t : Tree) : List (Extent × String) :=
  (t.leaves.filter fun leaf => leaf.1 == .invalid).map fun leaf => (leaf.2.2, leaf.2.1)

/-- Whether the grammar placed every character. -/
def isWellFormed (t : Tree) : Bool :=
  t.leaves.all fun leaf => leaf.1 != .invalid

/-- A tree is well formed exactly when it has no leaf without a place. -/
theorem isWellFormed_iff (t : Tree) : t.isWellFormed ↔ t.invalidLeaves = [] := by
  simp [isWellFormed, invalidLeaves, List.filter_eq_nil_iff]

@[simp]
theorem isWellFormed_leaf (kind : LeafKind) (text : String) (extent : Extent) :
    (Tree.leaf kind text extent).isWellFormed = (kind != .invalid) := by
  simp [isWellFormed, leaves]

/-- A node is well formed if its children are. -/
@[simp]
theorem isWellFormed_node (kind : NodeKind) (form : List Entry) (extent : Extent) :
    (Tree.node kind form extent).isWellFormed = form.all fun entry => entry.2.isWellFormed := by
  rw [isWellFormed, leaves]
  induction form with
  | nil => rfl
  | cons entry rest ih =>
    obtain ⟨role, t⟩ := entry
    rw [leavesOfForm, List.all_append, ih, List.all_cons, isWellFormed]

/-- A line of an outline: a token with its depth, its role if it has a parent, its kind, its byte
range and, for a leaf, its text. -/
structure OutlineLine where
  depth : Nat
  role? : Option Role
  kind : TokenKind
  span : Span
  text? : Option String
  deriving DecidableEq, Repr

/-- The line as it is written: indented by its depth, and with the text quoted. -/
def OutlineLine.render (line : OutlineLine) : String :=
  String.ofList (List.replicate (2 * line.depth) ' ')
    ++ (line.role?.map Role.outlineMark).getD "" ++ line.kind.display ++ " " ++ line.span.display
    ++ (line.text?.map fun text => " " ++ Text.quoted text).getD "" ++ "\n"

mutual

/-- The lines of the outline of a tree that stands at a depth and in a role. -/
def outlineLines (depth : Nat) (role? : Option Role) : Tree → List OutlineLine
  | .leaf kind text extent => [⟨depth, role?, .leaf kind, extent.span, some text⟩]
  | .node kind form extent =>
    ⟨depth, role?, .node kind, extent.span, none⟩ :: outlineOfForm (depth + 1) form

/-- The lines of children one after another. -/
def outlineOfForm (depth : Nat) : List Entry → List OutlineLine
  | [] => []
  | (role, t) :: rest => t.outlineLines depth (some role) ++ outlineOfForm depth rest

end

/-- The outline of a tree. -/
def outline (t : Tree) : String :=
  String.join ((t.outlineLines 0 none).map OutlineLine.render)

mutual

/-- What a walk meets that does not go into nodes of the skipped kinds. -/
def walk (skip : NodeKind → Bool) : Tree → List WalkEvent
  | .leaf kind _ _ => [.leaf kind]
  | .node kind form _ =>
    .enter kind :: ((if skip kind then [] else walkForm skip form) ++ [.leave kind])

/-- What a walk meets in children one after another. -/
def walkForm (skip : NodeKind → Bool) : List Entry → List WalkEvent
  | [] => []
  | (_, t) :: rest => t.walk skip ++ walkForm skip rest

end

end Tree

end ScriptTree
