import ScriptTree.Kind.Slot

/-!
The kinds of inner nodes, the slots each declares, and which of them hold a repeating list.
-/

namespace ScriptTree

/-- The kind of an inner node. -/
inductive NodeKind where
  | file
  | classMembersList
  | innerClass
  | extendsClause
  | classNameClause
  | annotationUse
  | signal
  | enum
  | enumValuesList
  | enumValue
  | constant
  | memberVariable
  | accessorsList
  | getAccessor
  | setAccessor
  | method
  | parametersList
  | parameter
  | statementsList
  | expressionStatement
  | variableDeclaration
  | ifStatement
  | elseBranch
  | forStatement
  | whileStatement
  | matchStatement
  | matchCasesList
  | matchCase
  | patternsList
  | matchBinding
  | returnStatement
  | passStatement
  | breakStatement
  | continueStatement
  | breakpointStatement
  | dualOperator
  | singleOperator
  | ternary
  | await
  | parenthesized
  | call
  | argumentsList
  | indexer
  | subscript
  | memberAccess
  | arrayInitializer
  | dictionaryInitializer
  | keyValue
  | lambda
  deriving DecidableEq, Repr

namespace NodeKind

/-- Every kind of inner node. -/
def all : List NodeKind :=
  [.file, .classMembersList, .innerClass, .extendsClause, .classNameClause, .annotationUse,
   .signal, .enum, .enumValuesList, .enumValue, .constant, .memberVariable, .accessorsList,
   .getAccessor, .setAccessor, .method, .parametersList, .parameter, .statementsList,
   .expressionStatement, .variableDeclaration, .ifStatement, .elseBranch, .forStatement,
   .whileStatement, .matchStatement, .matchCasesList, .matchCase, .patternsList, .matchBinding,
   .returnStatement, .passStatement, .breakStatement, .continueStatement, .breakpointStatement,
   .dualOperator, .singleOperator, .ternary, .await, .parenthesized, .call, .argumentsList,
   .indexer, .subscript, .memberAccess, .arrayInitializer, .dictionaryInitializer, .keyValue,
   .lambda]

/-- The name shown in outlines. -/
def label : NodeKind → String
  | .file => "File"
  | .classMembersList => "ClassMembersList"
  | .innerClass => "InnerClass"
  | .extendsClause => "Extends"
  | .classNameClause => "ClassName"
  | .annotationUse => "Annotation"
  | .signal => "Signal"
  | .enum => "Enum"
  | .enumValuesList => "EnumValuesList"
  | .enumValue => "EnumValue"
  | .constant => "Constant"
  | .memberVariable => "Variable"
  | .accessorsList => "AccessorsList"
  | .getAccessor => "GetAccessor"
  | .setAccessor => "SetAccessor"
  | .method => "Method"
  | .parametersList => "ParametersList"
  | .parameter => "Parameter"
  | .statementsList => "StatementsList"
  | .expressionStatement => "ExpressionStatement"
  | .variableDeclaration => "VariableDeclaration"
  | .ifStatement => "IfStatement"
  | .elseBranch => "ElseBranch"
  | .forStatement => "ForStatement"
  | .whileStatement => "WhileStatement"
  | .matchStatement => "MatchStatement"
  | .matchCasesList => "MatchCasesList"
  | .matchCase => "MatchCase"
  | .patternsList => "PatternsList"
  | .matchBinding => "MatchBinding"
  | .returnStatement => "ReturnStatement"
  | .passStatement => "PassStatement"
  | .breakStatement => "BreakStatement"
  | .continueStatement => "ContinueStatement"
  | .breakpointStatement => "BreakpointStatement"
  | .dualOperator => "DualOperator"
  | .singleOperator => "SingleOperator"
  | .ternary => "Ternary"
  | .await => "Await"
  | .parenthesized => "Parenthesized"
  | .call => "Call"
  | .argumentsList => "ArgumentsList"
  | .indexer => "Indexer"
  | .subscript => "Subscript"
  | .memberAccess => "MemberAccess"
  | .arrayInitializer => "ArrayInitializer"
  | .dictionaryInitializer => "DictionaryInitializer"
  | .keyValue => "KeyValue"
  | .lambda => "Lambda"

/-- The slots a kind declares, in the order in which they stand in a node. -/
def slots : NodeKind → List Slot
  | .file => [.members]
  | .classMembersList => []
  | .innerClass => [.keyword, .name, .extendsKeyword, .base, .colon, .members]
  | .extendsClause => [.keyword, .base]
  | .classNameClause => [.keyword, .name, .comma, .icon]
  | .annotationUse => [.atSign, .name, .arguments]
  | .signal => [.keyword, .name, .parameters]
  | .enum => [.keyword, .name, .values]
  | .enumValuesList => [.opening, .closing]
  | .enumValue => [.name, .assign, .value]
  | .constant => [.keyword, .name, .typeColon, .type, .assign, .value]
  | .memberVariable =>
      [.static, .keyword, .name, .typeColon, .type, .assign, .initializer, .accessorColon,
       .accessors]
  | .accessorsList => []
  | .getAccessor => [.keyword, .assign, .method, .colon, .body]
  | .setAccessor => [.keyword, .parameters, .assign, .method, .colon, .body]
  | .method => [.static, .keyword, .name, .parameters, .arrow, .returnType, .colon, .body]
  | .parametersList => [.opening, .closing]
  | .parameter => [.name, .typeColon, .type, .assign, .default]
  | .statementsList => []
  | .expressionStatement => [.expression]
  | .variableDeclaration => [.keyword, .name, .typeColon, .type, .assign, .initializer]
  | .ifStatement => [.keyword, .condition, .colon, .body, .elseBranch]
  | .elseBranch => [.keyword, .colon, .body]
  | .forStatement =>
      [.keyword, .loopVariable, .typeColon, .type, .inKeyword, .collection, .colon, .body]
  | .whileStatement => [.keyword, .condition, .colon, .body]
  | .matchStatement => [.keyword, .value, .colon, .cases]
  | .matchCasesList => []
  | .matchCase => [.patterns, .whenKeyword, .guard, .colon, .body]
  | .patternsList => []
  | .matchBinding => [.keyword, .name]
  | .returnStatement => [.keyword, .value]
  | .passStatement => [.keyword]
  | .breakStatement => [.keyword]
  | .continueStatement => [.keyword]
  | .breakpointStatement => [.keyword]
  | .dualOperator => [.left, .operator, .right]
  | .singleOperator => [.operator, .operand]
  | .ternary => [.trueValue, .ifKeyword, .condition, .elseKeyword, .falseValue]
  | .await => [.keyword, .operand]
  | .parenthesized => [.opening, .inner, .closing]
  | .call => [.callee, .arguments]
  | .argumentsList => [.opening, .closing]
  | .indexer => [.target, .subscript]
  | .subscript => [.opening, .inner, .closing]
  | .memberAccess => [.target, .point, .member]
  | .arrayInitializer => [.opening, .closing]
  | .dictionaryInitializer => [.opening, .closing]
  | .keyValue => [.key, .colon, .assign, .value]
  | .lambda => [.keyword, .name, .parameters, .arrow, .returnType, .colon, .body]

/-- The place of a slot in the declared order. -/
def slotIndex? (kind : NodeKind) (slot : Slot) : Option Nat :=
  kind.slots.idxOf? slot

/-- Whether the kind declares the slot. -/
def declares (kind : NodeKind) (slot : Slot) : Bool :=
  kind.slots.contains slot

/-- The kinds that hold a repeating list of items. -/
def hasItems : NodeKind → Bool
  | .classMembersList | .accessorsList | .statementsList | .matchCasesList
  | .patternsList | .enumValuesList | .parametersList | .argumentsList
  | .arrayInitializer | .dictionaryInitializer => true
  | _ => false

/-- The line-oriented lists, whose items can be read again on their own. -/
def isBlockList : NodeKind → Bool
  | .classMembersList | .accessorsList | .statementsList | .matchCasesList => true
  | _ => false

/-- Items stand after the opening slots and before the closing bracket. -/
def itemRank (kind : NodeKind) : Nat :=
  (kind.slotIndex? .closing).getD kind.slots.length

theorem mem_all (kind : NodeKind) : kind ∈ all := by
  cases kind <;> decide

/-- A kind declares no slot twice. -/
theorem slots_nodup (kind : NodeKind) : kind.slots.Nodup := by
  cases kind <;> decide

end NodeKind

end ScriptTree
