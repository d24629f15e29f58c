import ScriptTree.Kind.Node
import ScriptTree.Kind.Leaf

/-!
Productions with a fixed order of parts. A part names the slot it fills, the shape of what fits
it and, where it cannot begin without another part, the slot of that part.
-/

namespace ScriptTree

/-- Where an expression stands within a production. -/
inductive ExpressionRole where
  | value
  /-- Assignments are allowed. -/
  | statement
  /-- Only dotted names and subscripts. -/
  | typeName
  deriving DecidableEq, Repr

/-- Lists in brackets, lists with commas, and single expressions in brackets. -/
inductive GroupKind where
  | arguments
  | array
  | dictionary
  | parenthesized
  | subscript
  | parameters
  | enumValues
  /-- Patterns of a match case: without brackets, and ended by the first token that is neither a
  pattern nor a comma. -/
  | patterns
  deriving DecidableEq, Repr

namespace GroupKind

/-- The kind of node that the group becomes. -/
def nodeKind : GroupKind → NodeKind
  | .arguments => .argumentsList
  | .array => .arrayInitializer
  | .dictionary => .dictionaryInitializer
  | .parenthesized => .parenthesized
  | .subscript => .subscript
  | .parameters => .parametersList
  | .enumValues => .enumValuesList
  | .patterns => .patternsList

/-- The brackets around the group. -/
def brackets? : GroupKind → Option (Punct × Punct)
  | .arguments | .parenthesized | .parameters => some (.openParen, .closeParen)
  | .array | .subscript => some (.openBracket, .closeBracket)
  | .dictionary | .enumValues => some (.openBrace, .closeBrace)
  | .patterns => none

/-- Whether the group stands without brackets. -/
def isBare (kind : GroupKind) : Bool :=
  kind.brackets?.isNone

/-- Whether the group holds exactly one expression instead of a list. -/
def isSingle : GroupKind → Bool
  | .parenthesized | .subscript => true
  | _ => false

/-- Whether `c` opens the group. -/
def opensWith (kind : GroupKind) (c : Char) : Bool :=
  kind.brackets?.any fun brackets => brackets.1.startsWith c

end GroupKind

/-- The line-oriented lists. -/
inductive BlockKind where
  | members
  | statements
  | matchCases
  | accessors
  deriving DecidableEq, Repr

namespace BlockKind

/-- The kind of node that the block becomes. -/
def nodeKind : BlockKind → NodeKind
  | .members => .classMembersList
  | .statements => .statementsList
  | .matchCases => .matchCasesList
  | .accessors => .accessorsList

/-- The block that becomes a node of the given kind. -/
def ofNodeKind? : NodeKind → Option BlockKind
  | .classMembersList => some .members
  | .statementsList => some .statements
  | .matchCasesList => some .matchCases
  | .accessorsList => some .accessors
  | _ => none

/-- What separates items on one line. -/
def separator : BlockKind → Punct
  | .accessors => .comma
  | _ => .semicolon

/-- The blocks are exactly the line-oriented lists. -/
theorem isSome_ofNodeKind? (kind : NodeKind) :
    (ofNodeKind? kind).isSome = kind.isBlockList := by
  cases kind <;> rfl

end BlockKind

/-- What fits a part of a production. -/
inductive Shape where
  | keyword (words : List Keyword)
  /-- An identifier with fixed text. -/
  | contextual (text : String)
  | name
  | punct (mark : Punct)
  | operator (op : OperatorKind)
  | expression (role : ExpressionRole)
  | group (kind : GroupKind)
  | block (kind : BlockKind)
  deriving DecidableEq, Repr

/-- Whether the shape is a single word or operator, which is offered to all parts that remain
once it has been read. -/
def Shape.isLeaf : Shape → Bool
  | .keyword _ | .contextual _ | .name | .operator _ => true
  | _ => false

/-- One part of a production. -/
structure Part where
  slot : Slot
  shape : Shape
  /-- The slot that has to be filled before the part may begin. -/
  requires : Option Slot
  deriving DecidableEq, Repr

namespace Production

/-- A part that may begin at once. -/
def part (slot : Slot) (shape : Shape) : Part := ⟨slot, shape, none⟩

/-- A part that may begin once another slot is filled. -/
def after (requires slot : Slot) (shape : Shape) : Part := ⟨slot, shape, some requires⟩

/-- The parts of a production in the order in which they stand; all of them may be missing. -/
def parts : NodeKind → List Part
  | .extendsClause => [part .keyword (.keyword [.extendsKw]), part .base (.expression .typeName)]
  | .classNameClause =>
      [part .keyword (.keyword [.classNameKw]), part .name .name, part .comma (.punct .comma),
       after .comma .icon (.expression .value)]
  | .innerClass =>
      [part .keyword (.keyword [.classKw]), part .name .name,
       part .extendsKeyword (.keyword [.extendsKw]),
       after .extendsKeyword .base (.expression .typeName), part .colon (.punct .colon),
       after .colon .members (.block .members)]
  | .annotationUse =>
      [part .atSign (.punct .atSign), after .atSign .name .name,
       after .name .arguments (.group .arguments)]
  | .signal =>
      [part .keyword (.keyword [.signalKw]), part .name .name,
       part .parameters (.group .parameters)]
  | .enum =>
      [part .keyword (.keyword [.enumKw]), part .name .name, part .values (.group .enumValues)]
  | .enumValue =>
      [part .name .name, part .assign (.operator .assign),
       after .assign .value (.expression .value)]
  | .constant =>
      [part .keyword (.keyword [.constKw]), part .name .name, part .typeColon (.punct .colon),
       after .typeColon .type (.expression .typeName), part .assign (.operator .assign),
       after .assign .value (.expression .value)]
  | .memberVariable =>
      [part .static (.keyword [.staticKw]), part .keyword (.keyword [.varKw]), part .name .name,
       part .typeColon (.punct .colon), after .typeColon .type (.expression .typeName),
       part .assign (.operator .assign), after .assign .initializer (.expression .value),
       part .accessorColon (.punct .colon), after .accessorColon .accessors (.block .accessors)]
  | .getAccessor =>
      [part .keyword (.contextual "get"), part .assign (.operator .assign),
       after .assign .method .name, part .colon (.punct .colon),
       after .colon .body (.block .statements)]
  | .setAccessor =>
      [part .keyword (.contextual "set"), part .parameters (.group .parameters),
       part .assign (.operator .assign), after .assign .method .name, part .colon (.punct .colon),
       after .colon .body (.block .statements)]
  | .method =>
      [part .static (.keyword [.staticKw]), part .keyword (.keyword [.funcKw]), part .name .name,
       part .parameters (.group .parameters), part .arrow (.operator .arrow),
       after .arrow .returnType (.expression .typeName), part .colon (.punct .colon),
       after .colon .body (.block .statements)]
  | .lambda =>
      [part .keyword (.keyword [.funcKw]), part .name .name,
       part .parameters (.group .parameters), part .arrow (.operator .arrow),
       after .arrow .returnType (.expression .typeName), part .colon (.punct .colon),
       after .colon .body (.block .statements)]
  | .parameter =>
      [part .name .name, part .typeColon (.punct .colon),
       after .typeColon .type (.expression .typeName), part .assign (.operator .assign),
       after .assign .default (.expression .value)]
  | .expressionStatement => [part .expression (.expression .statement)]
  | .variableDeclaration =>
      [part .keyword (.keyword [.varKw]), part .name .name, part .typeColon (.punct .colon),
       after .typeColon .type (.expression .typeName), part .assign (.operator .assign),
       after .assign .initializer (.expression .value)]
  | .ifStatement =>
      [part .keyword (.keyword [.ifKw, .elifKw]), part .condition (.expression .value),
       part .colon (.punct .colon), after .colon .body (.block .statements)]
  | .elseBranch =>
      [part .keyword (.keyword [.elseKw]), part .colon (.punct .colon),
       after .colon .body (.block .statements)]
  | .forStatement =>
      [part .keyword (.keyword [.forKw]), part .loopVariable .name,
       part .typeColon (.punct .colon), after .typeColon .type (.expression .typeName),
       part .inKeyword (.keyword [.inKw]), after .inKeyword .collection (.expression .value),
       part .colon (.punct .colon), after .colon .body (.block .statements)]
  | .whileStatement =>
      [part .keyword (.keyword [.whileKw]), part .condition (.expression .value),
       part .colon (.punct .colon), after .colon .body (.block .statements)]
  | .matchStatement =>
      [part .keyword (.keyword [.matchKw]), part .value (.expression .value),
       part .colon (.punct .colon), after .colon .cases (.block .matchCases)]
  | .matchCase =>
      [part .patterns (.group .patterns), part .whenKeyword (.contextual "when"),
       after .whenKeyword .guard (.expression .value), part .colon (.punct .colon),
       after .colon .body (.block .statements)]
  | .matchBinding => [part .keyword (.keyword [.varKw]), part .name .name]
  | .returnStatement => [part .keyword (.keyword [.returnKw]), part .value (.expression .value)]
  | .passStatement => [part .keyword (.keyword [.passKw])]
  | .breakStatement => [part .keyword (.keyword [.breakKw])]
  | .continueStatement => [part .keyword (.keyword [.continueKw])]
  | .breakpointStatement => [part .keyword (.keyword [.breakpointKw])]
  | _ => []

/-- Every part fills a slot that its production declares. -/
theorem declares_of_mem_parts {kind : NodeKind} {p : Part} (h : p ∈ parts kind) :
    kind.declares p.slot := by
  have hall : ∀ q ∈ parts kind, kind.declares q.slot = true := by
    cases kind <;> decide
  exact hall p h

end Production

end ScriptTree
