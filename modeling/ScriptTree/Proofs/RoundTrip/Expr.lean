import ScriptTree.Grammar.Reader
import ScriptTree.Tree.Outline

/-!
# Expressions and how they are written

An expression with single blanks around its operators, after its commas and after its colons, and
with no more brackets than it has as a tree. It needs no further brackets if every operand binds
at least as tightly as the place where it stands asks for, and no operator to the left of another
one would take that one into its right operand.
-/

namespace ScriptTree

/-- A word that is not reserved. -/
structure Name where
  text : String
  isWord : Text.isWord text.toList = true
  notReserved : Keyword.ofSpelling? text = none

/-- A reserved word that stands for a value. -/
structure Constant where
  word : Keyword
  isLiteral : word.isLiteral = true

/-- An operator before its operand. -/
structure PrefixOperator where
  text : String
  kind : OperatorKind
  denotes : OperatorKind.unary? text = some kind

/-- An operator between its operands. -/
inductive InfixOperator where
  | spelled (text : String) (kind : OperatorKind) (denotes : OperatorKind.binary? text = some kind)
  | notIn

mutual

/-- An expression that may be called and taken apart. -/
inductive Primary where
  | name (name : Name)
  | constant (constant : Constant)
  | member (target : Primary) (name : Name)
  | call (callee : Primary) (arguments : List Expr)
  | subscript (target : Primary) (index : Expr)
  | parenthesized (inner : Expr)
  | array (items : List Expr)
  | dictionary (entries : List (Expr × Expr))

/-- An expression. -/
inductive Expr where
  | primary (primary : Primary)
  | prefixed (op : PrefixOperator) (operand : Expr)
  | await (operand : Expr)
  | binary (op : InfixOperator) (left right : Expr)
  | ternary (value condition alternative : Expr)

end

/-- How tightly the operator binds its operand. -/
def PrefixOperator.precedence (op : PrefixOperator) : Nat :=
  op.kind.unaryPrecedence?.getD 0

/-- The leaf of the operator. -/
def PrefixOperator.token (op : PrefixOperator) : Tree :=
  .ofText (.operator op.kind) op.text

/-- The blank between two tokens. -/
def blank : Tree :=
  .ofText .space " "

/-- The leaf of a reserved word. -/
def keywordTree (word : Keyword) : Tree :=
  .ofText (.keyword word) word.spelling

namespace InfixOperator

/-- The operator that stands between the operands. -/
def kind : InfixOperator → OperatorKind
  | spelled _ kind _ => kind
  | notIn => .notContainedIn

/-- How tightly the operator binds. -/
def precedence (op : InfixOperator) : Nat :=
  op.kind.binaryPrecedence?.getD 0

/-- How tightly the right operand has to bind. -/
def rightPrecedence (op : InfixOperator) : Nat :=
  op.kind.rightPrecedence op.precedence

/-- How the operator is written. -/
def chars : InfixOperator → List Char
  | spelled text _ _ => text.toList
  | notIn => "not in".toList

/-- The leaf of the operator. -/
def token : InfixOperator → Tree
  | spelled text kind _ => .ofText (.operator kind) text
  | notIn => .ofText (.operator .notContainedIn) "not"

/-- What stands between the operator and its right operand. -/
def after : InfixOperator → List Tree
  | spelled _ _ _ => [blank]
  | notIn => [blank, keywordTree .inKw, blank]

end InfixOperator

/-! How expressions are written. -/

mutual

/-- The characters of a primary. -/
def Primary.chars : Primary → List Char
  | .name name => name.text.toList
  | .constant constant => constant.word.spelling.toList
  | .member target name => target.chars ++ '.' :: name.text.toList
  | .call callee arguments => callee.chars ++ '(' :: (Expr.charsOfItems arguments ++ [')'])
  | .subscript target index => target.chars ++ '[' :: (index.chars ++ [']'])
  | .parenthesized inner => '(' :: (inner.chars ++ [')'])
  | .array items => '[' :: (Expr.charsOfItems items ++ [']'])
  | .dictionary entries => '\x7b' :: (Expr.charsOfEntries entries ++ ['\x7d'])

/-- The characters of an expression. -/
def Expr.chars : Expr → List Char
  | .primary primary => primary.chars
  | .prefixed op operand => op.text.toList ++ ' ' :: operand.chars
  | .await operand => Keyword.awaitKw.spelling.toList ++ ' ' :: operand.chars
  | .binary op left right => left.chars ++ ' ' :: (op.chars ++ ' ' :: right.chars)
  | .ternary value condition alternative =>
    value.chars ++ ' ' :: (Keyword.ifKw.spelling.toList ++ ' ' :: (condition.chars ++
      ' ' :: (Keyword.elseKw.spelling.toList ++ ' ' :: alternative.chars)))

/-- Items with commas between them. -/
def Expr.charsOfItems : List Expr → List Char
  | [] => []
  | item :: rest => item.chars ++ Expr.charsOfMoreItems rest

/-- Items with a comma before each. -/
def Expr.charsOfMoreItems : List Expr → List Char
  | [] => []
  | item :: rest => ',' :: ' ' :: (item.chars ++ Expr.charsOfMoreItems rest)

/-- The entries of a dictionary with commas between them. -/
def Expr.charsOfEntries : List (Expr × Expr) → List Char
  | [] => []
  | (key, value) :: rest =>
    key.chars ++ ':' :: ' ' :: (value.chars ++ Expr.charsOfMoreEntries rest)

/-- The entries of a dictionary with a comma before each. -/
def Expr.charsOfMoreEntries : List (Expr × Expr) → List Char
  | [] => []
  | (key, value) :: rest =>
    ',' :: ' ' :: (key.chars ++ ':' :: ' ' :: (value.chars ++ Expr.charsOfMoreEntries rest))

end

/-- The text of an expression. -/
def Expr.print (e : Expr) : String :=
  String.ofList e.chars

/-! The trees of expressions. -/

/-- A group in brackets. -/
def groupTree (kind : NodeKind) (opening closing : Punct) (inner : List Entry) : Tree :=
  .ofForm kind
    ((.slot .opening, .ofPunct opening) :: (inner ++ [(Role.slot .closing, Tree.ofPunct closing)]))

/-- The comma between two items, and the blank after it. -/
def commaForm : List Entry :=
  [(.extra, .ofPunct .comma), (.extra, blank)]

/-- An entry of a dictionary. -/
def keyValueTree (key value : Tree) : Tree :=
  .ofForm .keyValue [(.slot .key, key), (.slot .colon, .ofPunct .colon), (.extra, blank),
    (.slot .value, value)]

mutual

/-- The tree of a primary. -/
def Primary.tree : Primary → Tree
  | .name name => .ofText .identifier name.text
  | .constant constant => keywordTree constant.word
  | .member target name =>
    .ofForm .memberAccess [(.slot .target, target.tree), (.slot .point, .ofPunct .point),
      (.slot .member, .ofText .identifier name.text)]
  | .call callee arguments =>
    .ofForm .call [(.slot .callee, callee.tree), (.slot .arguments,
      groupTree .argumentsList .openParen .closeParen (Expr.formOfItems arguments))]
  | .subscript target index =>
    .ofForm .indexer [(.slot .target, target.tree), (.slot .subscript,
      groupTree .subscript .openBracket .closeBracket [(.slot .inner, index.tree)])]
  | .parenthesized inner =>
    groupTree .parenthesized .openParen .closeParen [(.slot .inner, inner.tree)]
  | .array items =>
    groupTree .arrayInitializer .openBracket .closeBracket (Expr.formOfItems items)
  | .dictionary entries =>
    groupTree .dictionaryInitializer .openBrace .closeBrace (Expr.formOfEntries entries)

/-- The tree of an expression. -/
def Expr.tree : Expr → Tree
  | .primary primary => primary.tree
  | .prefixed op operand =>
    .ofForm .singleOperator
      [(.slot .operator, op.token), (.extra, blank), (.slot .operand, operand.tree)]
  | .await operand =>
    .ofForm .await [(.slot .keyword, keywordTree .awaitKw),
      (.extra, blank), (.slot .operand, operand.tree)]
  | .binary op left right =>
    .ofForm .dualOperator ((.slot .left, left.tree) :: (.extra, blank) ::
      (.slot .operator, op.token) :: (Form.extras op.after ++ [(Role.slot .right, right.tree)]))
  | .ternary value condition alternative =>
    .ofForm .ternary [(.slot .trueValue, value.tree), (.extra, blank),
      (.slot .ifKeyword, keywordTree .ifKw), (.extra, blank),
      (.slot .condition, condition.tree), (.extra, blank),
      (.slot .elseKeyword, keywordTree .elseKw), (.extra, blank),
      (.slot .falseValue, alternative.tree)]

/-- The children of a list. -/
def Expr.formOfItems : List Expr → List Entry
  | [] => []
  | item :: rest => (.item, item.tree) :: Expr.formOfMoreItems rest

/-- The children of a list after its first item. -/
def Expr.formOfMoreItems : List Expr → List Entry
  | [] => []
  | item :: rest => commaForm ++ (Role.item, item.tree) :: Expr.formOfMoreItems rest

/-- The children of a dictionary. -/
def Expr.formOfEntries : List (Expr × Expr) → List Entry
  | [] => []
  | (key, value) :: rest =>
    (.item, keyValueTree key.tree value.tree) :: Expr.formOfMoreEntries rest

/-- The children of a dictionary after its first entry. -/
def Expr.formOfMoreEntries : List (Expr × Expr) → List Entry
  | [] => []
  | (key, value) :: rest =>
    commaForm ++ (Role.item, keyValueTree key.tree value.tree) :: Expr.formOfMoreEntries rest

end

/-- Items one after another with commas between them. -/
def separated {α : Type} (chars : α → List Char) : List α → List Char
  | [] => []
  | item :: rest => chars item ++ rest.flatMap fun item => ',' :: ' ' :: chars item

/-- The children that items with commas between them become. -/
def separatedForm {α : Type} (tree : α → Tree) : List α → List Entry
  | [] => []
  | item :: rest =>
    (.item, tree item) :: rest.flatMap fun item => commaForm ++ [(Role.item, tree item)]

namespace Expr

theorem charsOfMoreItems_eq (items : List Expr) :
    charsOfMoreItems items = items.flatMap fun item => ',' :: ' ' :: item.chars := by
  induction items with
  | nil => rw [charsOfMoreItems, List.flatMap_nil]
  | cons item rest ih => simp [charsOfMoreItems, ih]

theorem charsOfItems_eq (items : List Expr) : charsOfItems items = separated chars items := by
  cases items with
  | nil => rw [charsOfItems, separated]
  | cons item rest => rw [charsOfItems, separated, charsOfMoreItems_eq]

theorem formOfMoreItems_eq (items : List Expr) :
    formOfMoreItems items = items.flatMap fun item => commaForm ++ [(Role.item, item.tree)] := by
  induction items with
  | nil => rw [formOfMoreItems, List.flatMap_nil]
  | cons item rest ih => simp [formOfMoreItems, ih]

theorem formOfItems_eq (items : List Expr) : formOfItems items = separatedForm tree items := by
  cases items with
  | nil => rw [formOfItems, separatedForm]
  | cons item rest => rw [formOfItems, separatedForm, formOfMoreItems_eq]

/-- An entry of a dictionary as it is written. -/
def charsOfEntry (entry : Expr × Expr) : List Char :=
  entry.1.chars ++ ':' :: ' ' :: entry.2.chars

/-- The tree of an entry of a dictionary. -/
def treeOfEntry (entry : Expr × Expr) : Tree :=
  keyValueTree entry.1.tree entry.2.tree

theorem charsOfMoreEntries_eq (entries : List (Expr × Expr)) :
    charsOfMoreEntries entries = entries.flatMap fun entry => ',' :: ' ' :: charsOfEntry entry := by
  induction entries with
  | nil => rw [charsOfMoreEntries, List.flatMap_nil]
  | cons entry rest ih => simp [charsOfMoreEntries, charsOfEntry, ih]

theorem charsOfEntries_eq (entries : List (Expr × Expr)) :
    charsOfEntries entries = separated charsOfEntry entries := by
  cases entries with
  | nil => rw [charsOfEntries, separated]
  | cons entry rest => simp [charsOfEntries, separated, charsOfMoreEntries_eq, charsOfEntry]

theorem formOfMoreEntries_eq (entries : List (Expr × Expr)) :
    formOfMoreEntries entries =
      entries.flatMap fun entry => commaForm ++ [(Role.item, treeOfEntry entry)] := by
  induction entries with
  | nil => rw [formOfMoreEntries, List.flatMap_nil]
  | cons entry rest ih => simp [formOfMoreEntries, treeOfEntry, ih]

theorem formOfEntries_eq (entries : List (Expr × Expr)) :
    formOfEntries entries = separatedForm treeOfEntry entries := by
  cases entries with
  | nil => rw [formOfEntries, separatedForm]
  | cons entry rest => rw [formOfEntries, separatedForm, formOfMoreEntries_eq, treeOfEntry]

end Expr

/-! Which expressions need no brackets. -/

/-- What the operands at the right end ask for: an operator that binds as tightly as one of these
would be taken into that operand. -/
def Expr.spine : Expr → List Nat
  | .primary _ => []
  | .prefixed op operand => op.precedence :: operand.spine
  | .await operand => OperatorKind.awaitPrecedence :: operand.spine
  | .binary op _ right => op.rightPrecedence :: right.spine
  | .ternary _ _ alternative => OperatorKind.ternaryPrecedence :: alternative.spine

/-- Whether an operator of the given precedence may follow the expression. -/
def Expr.leaves (e : Expr) (precedence : Nat) : Bool :=
  e.spine.all (precedence < ·)

mutual

/-- Whether a primary needs no further brackets inside it. -/
def Primary.isValid : Primary → Bool
  | .name _ | .constant _ => true
  | .member target _ => target.isValid
  | .call callee arguments => callee.isValid && Expr.areValid arguments
  | .subscript target index => target.isValid && index.isValid false 0
  | .parenthesized inner => inner.isValid false 0
  | .array items => Expr.areValid items
  | .dictionary entries => Expr.areValidEntries entries

/-- Whether an expression needs no brackets where it has to bind at least as tightly as `least`.
Assignments may stand outside of brackets only. -/
def Expr.isValid (assign : Bool) (least : Nat) : Expr → Bool
  | .primary primary => primary.isValid
  | .prefixed op operand => operand.isValid assign op.precedence
  | .await operand => operand.isValid assign OperatorKind.awaitPrecedence
  | .binary op left right =>
    least ≤ op.precedence && (assign || !op.kind.isAssignment) && left.isValid assign least
      && left.leaves op.precedence && right.isValid assign op.rightPrecedence
  | .ternary value condition alternative =>
    least ≤ OperatorKind.ternaryPrecedence && value.isValid assign least
      && value.leaves OperatorKind.ternaryPrecedence
      && condition.isValid assign (OperatorKind.ternaryPrecedence + 1)
      && alternative.isValid assign OperatorKind.ternaryPrecedence

/-- Whether items of a list need no brackets. -/
def Expr.areValid : List Expr → Bool
  | [] => true
  | item :: rest => item.isValid false 0 && Expr.areValid rest

/-- Whether the keys and values of a dictionary need no brackets. -/
def Expr.areValidEntries : List (Expr × Expr) → Bool
  | [] => true
  | (key, value) :: rest =>
    key.isValid false 0 && value.isValid false 0 && Expr.areValidEntries rest

end

end ScriptTree
