import ScriptTree.Kind.Keyword
import ScriptTree.Kind.Punct
import ScriptTree.Kind.Operator

/-!
The kinds of leaves, which of them are trivia, and the two forms in which a kind is shown.
-/

namespace ScriptTree

/-- The kind of a leaf. -/
inductive LeafKind where
  /-- Blanks and tabs inside a line. -/
  | space
  /-- The blanks and tabs that begin a line. -/
  | indentation
  | newLine
  | carriageReturn
  /-- From `#` to the end of the line. -/
  | comment
  /-- A backslash with the line break it joins over. -/
  | lineContinuation
  | identifier
  | keyword (word : Keyword)
  | number
  | string
  /-- A scene path such as `$Path/To`, or a unique name such as `%Name`. -/
  | nodePath
  | punct (mark : Punct)
  | operator (op : OperatorKind)
  /-- Text for which the grammar has no place. -/
  | invalid
  deriving DecidableEq, Repr

namespace LeafKind

/-- Blanks, comments and line breaks. -/
def isTrivia : LeafKind → Bool
  | .space | .indentation | .newLine | .carriageReturn | .comment | .lineContinuation => true
  | _ => false

/-- The name of the kind, with the spelling or label given by the three functions for the kinds
that carry a word, a mark or an operator. -/
def describe (word : Keyword → String) (mark : Punct → String) (op : OperatorKind → String) :
    LeafKind → String
  | .space => "Space"
  | .indentation => "Indentation"
  | .newLine => "NewLine"
  | .carriageReturn => "CarriageReturn"
  | .comment => "Comment"
  | .lineContinuation => "LineContinuation"
  | .identifier => "Identifier"
  | .keyword k => "Keyword(" ++ word k ++ ")"
  | .number => "Number"
  | .string => "String"
  | .nodePath => "NodePath"
  | .punct p => "Punct(" ++ mark p ++ ")"
  | .operator o => "Operator(" ++ op o ++ ")"
  | .invalid => "Invalid"

/-- The kind as outlines show it: words and marks by their spelling. -/
def display : LeafKind → String :=
  describe Keyword.spelling Punct.spelling OperatorKind.label

/-- The kind as error messages show it: words and marks by their label. -/
def debug : LeafKind → String :=
  describe Keyword.label Punct.label OperatorKind.label

/-- The word of a reserved word. -/
def keyword? : LeafKind → Option Keyword
  | .keyword word => some word
  | _ => none

/-- Text without a place is not trivia. -/
@[simp]
theorem isTrivia_invalid : isTrivia .invalid = false := rfl

end LeafKind

end ScriptTree
