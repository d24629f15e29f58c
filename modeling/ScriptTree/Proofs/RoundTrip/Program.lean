import ScriptTree.Proofs.RoundTrip.Expr

/-!
# Programs and how they are written

A program of nested blocks with one item to a line, each line indented by as many tabs as there
are blocks around it. A block is never empty. In the tree the break of a line stands before the
next line of the same block, and the one after the last line of a block behind the construct that
the block belongs to.
-/

namespace ScriptTree

/-- An expression that needs no brackets where a condition stands. -/
structure Condition where
  expr : Expr
  isValid : expr.isValid false 0 = true

/-- A statement of a single reserved word. -/
inductive SimpleStatement where
  | pass
  | breakLoop
  | continueLoop
  | returnNothing

mutual

/-- A statement. -/
inductive Statement where
  | simple (s : SimpleStatement)
  | expression (name : Name)
  | conditional (condition : Condition) (body : Statements) (others : Others)
  | whileLoop (condition : Condition) (body : Statements)
  | forLoop (name : Name) (collection : Condition) (body : Statements)

/-- One or more statements. -/
inductive Statements where
  | last (s : Statement)
  | more (s : Statement) (rest : Statements)

/-- What follows the first branch of an `if`. -/
inductive Others where
  | none
  | elif (condition : Condition) (body : Statements) (others : Others)
  | otherwise (body : Statements)

end

mutual

/-- A member of a class. -/
inductive Member where
  | variable (name : Name)
  | method (name : Name) (body : Statements)
  | innerClass (name : Name) (body : Members)

/-- One or more members. -/
inductive Members where
  | last (m : Member)
  | more (m : Member) (rest : Members)

end

/-! How programs are written. -/

namespace SimpleStatement

/-- The reserved word of the statement. -/
def word : SimpleStatement → Keyword
  | pass => .passKw
  | breakLoop => .breakKw
  | continueLoop => .continueKw
  | returnNothing => .returnKw

/-- The kind of node that the statement becomes. -/
def kind : SimpleStatement → NodeKind
  | pass => .passStatement
  | breakLoop => .breakStatement
  | continueLoop => .continueStatement
  | returnNothing => .returnStatement

end SimpleStatement

/-- The tabs before a line. -/
def tabs (level : Nat) : List Char :=
  List.replicate level '\t'

/-- The rest of a line that announces a block, and the lines of the block. -/
def announced (lines : List Char) : List Char :=
  ':' :: '\n' :: lines

/-- A reserved word and a condition. -/
def conditioned (word : Keyword) (condition : Condition) : List Char :=
  word.spelling.toList ++ ' ' :: condition.expr.chars

/-- A reserved word and a name. -/
def named (word : Keyword) (name : Name) : List Char :=
  word.spelling.toList ++ ' ' :: name.text.toList

mutual

/-- The lines of a statement. -/
def Statement.chars (level : Nat) : Statement → List Char
  | .simple s => tabs level ++ (s.word.spelling.toList ++ ['\n'])
  | .expression name => tabs level ++ (name.text.toList ++ ['\n'])
  | .conditional condition body others =>
    tabs level ++ (conditioned .ifKw condition ++ announced (body.chars (level + 1)))
      ++ others.chars level
  | .whileLoop condition body =>
    tabs level ++ (conditioned .whileKw condition ++ announced (body.chars (level + 1)))
  | .forLoop name collection body =>
    tabs level ++ (named .forKw name ++ ' ' :: (conditioned .inKw collection
      ++ announced (body.chars (level + 1))))

/-- The lines of statements. -/
def Statements.chars (level : Nat) : Statements → List Char
  | .last s => s.chars level
  | .more s rest => s.chars level ++ rest.chars level

/-- The lines of further branches. -/
def Others.chars (level : Nat) : Others → List Char
  | .none => []
  | .elif condition body others =>
    tabs level ++ (conditioned .elifKw condition ++ announced (body.chars (level + 1)))
      ++ others.chars level
  | .otherwise body =>
    tabs level ++ (Keyword.elseKw.spelling.toList ++ announced (body.chars (level + 1)))

end

mutual

/-- The lines of a member. -/
def Member.chars (level : Nat) : Member → List Char
  | .variable name => tabs level ++ (named .varKw name ++ ['\n'])
  | .method name body =>
    tabs level ++ (named .funcKw name ++ '(' :: ')' :: announced (body.chars (level + 1)))
  | .innerClass name body =>
    tabs level ++ (named .classKw name ++ announced (body.chars (level + 1)))

/-- The lines of members. -/
def Members.chars (level : Nat) : Members → List Char
  | .last m => m.chars level
  | .more m rest => m.chars level ++ rest.chars level

end

/-- The text of a program. -/
def Members.print (p : Members) : String :=
  String.ofList (p.chars 0)

/-! The trees of programs. -/

/-- A line break. -/
def lineBreak : Tree :=
  .ofText .newLine "\n"

/-- The white space before a line. -/
def indentTree (level : Nat) : Tree :=
  .ofText .indentation (String.ofList (tabs level))

/-- The white space before a line, if there is any. -/
def indent? (level : Nat) : Option Tree :=
  if level = 0 then none else some (indentTree level)

/-- The white space before a line as a child. -/
def indentForm (level : Nat) : List Entry :=
  Form.extras (indent? level).toList

/-- A block on lines of its own. -/
def bodyTree (kind : BlockKind) (lines : List Entry) : Tree :=
  .ofForm kind.nodeKind ((.extra, lineBreak) :: lines)

/-- The children up to the condition of a construct. -/
def conditionedForm (word : Keyword) (condition : Condition) : List Entry :=
  [(.slot .keyword, keywordTree word), (.extra, blank), (.slot .condition, condition.expr.tree)]

/-- The children up to the name of a construct. -/
def namedForm (word : Keyword) (slot : Slot) (name : Name) : List Entry :=
  [(.slot .keyword, keywordTree word), (.extra, blank),
    (.slot slot, .ofText .identifier name.text)]

/-- The children of a `for` up to what it runs over. -/
def forForm (name : Name) (collection : Condition) : List Entry :=
  namedForm .forKw .loopVariable name ++ [(Role.extra, blank),
    (Role.slot .inKeyword, keywordTree .inKw), (Role.extra, blank),
    (Role.slot .collection, collection.expr.tree)]

/-- The colon and the block that it announces. -/
def announcedForm (slot : Slot) (kind : BlockKind) (lines : List Entry) : List Entry :=
  [(.slot .colon, .ofPunct .colon), (.slot slot, bodyTree kind lines)]

mutual

/-- The tree of a statement. -/
def Statement.tree (level : Nat) : Statement → Tree
  | .simple s => .ofForm s.kind [(.slot .keyword, keywordTree s.word)]
  | .expression name =>
    .ofForm .expressionStatement [(.slot .expression, .ofText .identifier name.text)]
  | .conditional condition body others =>
    .ofForm .ifStatement (conditionedForm .ifKw condition
      ++ announcedForm .body .statements (body.lines (level + 1)) ++ others.form level)
  | .whileLoop condition body =>
    .ofForm .whileStatement (conditionedForm .whileKw condition
      ++ announcedForm .body .statements (body.lines (level + 1)))
  | .forLoop name collection body =>
    .ofForm .forStatement (forForm name collection
      ++ announcedForm .body .statements (body.lines (level + 1)))

/-- The children of a block of statements. -/
def Statements.lines (level : Nat) : Statements → List Entry
  | .last s => indentForm level ++ [(Role.item, s.tree level)]
  | .more s rest =>
    indentForm level ++ (Role.item, s.tree level) :: (Role.extra, lineBreak) :: rest.lines level

/-- The children of an `if` after its body. -/
def Others.form (level : Nat) : Others → List Entry
  | .none => []
  | .elif condition body others =>
    (.extra, lineBreak) :: (indentForm level ++ [(Role.slot .elseBranch, Tree.ofForm .ifStatement
      (conditionedForm .elifKw condition
        ++ announcedForm .body .statements (body.lines (level + 1)) ++ others.form level))])
  | .otherwise body =>
    (.extra, lineBreak) :: (indentForm level ++ [(Role.slot .elseBranch, Tree.ofForm .elseBranch
      ((.slot .keyword, keywordTree .elseKw) ::
        announcedForm .body .statements (body.lines (level + 1))))])

end

mutual

/-- The tree of a member. -/
def Member.tree (level : Nat) : Member → Tree
  | .variable name => .ofForm .memberVariable (namedForm .varKw .name name)
  | .method name body =>
    .ofForm .method (namedForm .funcKw .name name
      ++ (Role.slot .parameters, groupTree .parametersList .openParen .closeParen []) ::
        announcedForm .body .statements (body.lines (level + 1)))
  | .innerClass name body =>
    .ofForm .innerClass (namedForm .classKw .name name
      ++ announcedForm .members .members (body.lines (level + 1)))

/-- The children of a block of members. -/
def Members.lines (level : Nat) : Members → List Entry
  | .last m => indentForm level ++ [(Role.item, m.tree level)]
  | .more m rest =>
    indentForm level ++ (Role.item, m.tree level) :: (Role.extra, lineBreak) :: rest.lines level

end

/-- The tree of a program. -/
def Members.tree (p : Members) : Tree :=
  .ofForm .file [(.slot .members, .ofForm .classMembersList (p.lines 0)), (.extra, lineBreak)]

end ScriptTree
