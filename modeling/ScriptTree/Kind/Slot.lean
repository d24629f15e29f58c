/-!
The named positions a node declares for its children.
-/

namespace ScriptTree

/-- A named position within a node. -/
inductive Slot where
  | members
  | static
  | keyword
  | atSign
  | name
  | extendsKeyword
  | base
  | comma
  | icon
  | arguments
  | parameters
  | values
  | opening
  | closing
  | typeColon
  | type
  | assign
  | value
  | initializer
  | accessorColon
  | accessors
  | method
  | default
  | arrow
  | returnType
  | expression
  | condition
  | loopVariable
  | inKeyword
  | collection
  | patterns
  | whenKeyword
  | guard
  | cases
  | colon
  | body
  | elseBranch
  | left
  | operator
  | right
  | operand
  | trueValue
  | ifKeyword
  | elseKeyword
  | falseValue
  | inner
  | callee
  | target
  | subscript
  | point
  | member
  | key
  deriving DecidableEq, Repr

namespace Slot

/-- Every slot. -/
def all : List Slot :=
  [.members, .static, .keyword, .atSign, .name, .extendsKeyword, .base, .comma, .icon,
   .arguments, .parameters, .values, .opening, .closing, .typeColon, .type, .assign, .value,
   .initializer, .accessorColon, .accessors, .method, .default, .arrow, .returnType,
   .expression, .condition, .loopVariable, .inKeyword, .collection, .patterns, .whenKeyword,
   .guard, .cases, .colon, .body, .elseBranch, .left, .operator, .right, .operand, .trueValue,
   .ifKeyword, .elseKeyword, .falseValue, .inner, .callee, .target, .subscript, .point, .member,
   .key]

/-- The name shown in outlines. -/
def label : Slot → String
  | .members => "members"
  | .static => "static"
  | .keyword => "keyword"
  | .atSign => "at"
  | .name => "name"
  | .extendsKeyword => "extends_keyword"
  | .base => "base"
  | .comma => "comma"
  | .icon => "icon"
  | .arguments => "arguments"
  | .parameters => "parameters"
  | .values => "values"
  | .opening => "open"
  | .closing => "close"
  | .typeColon => "type_colon"
  | .type => "type"
  | .assign => "assign"
  | .value => "value"
  | .initializer => "initializer"
  | .accessorColon => "accessor_colon"
  | .accessors => "accessors"
  | .method => "method"
  | .default => "default"
  | .arrow => "arrow"
  | .returnType => "return_type"
  | .expression => "expression"
  | .condition => "condition"
  | .loopVariable => "variable"
  | .inKeyword => "in_keyword"
  | .collection => "collection"
  | .patterns => "patterns"
  | .whenKeyword => "when_keyword"
  | .guard => "guard"
  | .cases => "cases"
  | .colon => "colon"
  | .body => "body"
  | .elseBranch => "else_branch"
  | .left => "left"
  | .operator => "operator"
  | .right => "right"
  | .operand => "operand"
  | .trueValue => "true_value"
  | .ifKeyword => "if_keyword"
  | .elseKeyword => "else_keyword"
  | .falseValue => "false_value"
  | .inner => "inner"
  | .callee => "callee"
  | .target => "target"
  | .subscript => "subscript"
  | .point => "point"
  | .member => "member"
  | .key => "key"

/-- The slot labelled `text`. -/
def ofLabel? (text : String) : Option Slot :=
  all.find? fun slot => slot.label == text

theorem mem_all (slot : Slot) : slot ∈ all := by
  cases slot <;> decide

/-- Looking up a label finds its slot. -/
theorem ofLabel?_label (slot : Slot) : ofLabel? slot.label = some slot := by
  cases slot <;> decide

/-- The label of a slot tells the slot. -/
theorem label_inj {slot slot' : Slot} (h : slot.label = slot'.label) : slot = slot' := by
  have hslot := congrArg ofLabel? h
  rw [ofLabel?_label, ofLabel?_label] at hslot
  exact Option.some.inj hslot

end Slot

end ScriptTree
