/-!
Operators: their spellings, what a spelling denotes between or before operands, and how tightly
each binds.
-/

namespace ScriptTree

/-- An operator; one may have several spellings, and two may share one. -/
inductive OperatorKind where
  | assign
  | addAssign
  | subAssign
  | mulAssign
  | divAssign
  | modAssign
  | powAssign
  | bitAndAssign
  | bitOrAssign
  | bitXorAssign
  | shlAssign
  | shrAssign
  | cast
  | or
  | and
  | containedIn
  | notContainedIn
  | equal
  | notEqual
  | less
  | lessEqual
  | greater
  | greaterEqual
  | bitOr
  | bitXor
  | bitAnd
  | shl
  | shr
  | add
  | sub
  | mul
  | div
  | mod
  | pow
  | isType
  | not
  | negate
  | identity
  | bitNot
  | arrow
  deriving DecidableEq, Repr

namespace OperatorKind

/-- Every operator. -/
def all : List OperatorKind :=
  [.assign, .addAssign, .subAssign, .mulAssign, .divAssign, .modAssign, .powAssign,
   .bitAndAssign, .bitOrAssign, .bitXorAssign, .shlAssign, .shrAssign, .cast, .or, .and,
   .containedIn, .notContainedIn, .equal, .notEqual, .less, .lessEqual, .greater, .greaterEqual,
   .bitOr, .bitXor, .bitAnd, .shl, .shr, .add, .sub, .mul, .div, .mod, .pow, .isType, .not,
   .negate, .identity, .bitNot, .arrow]

/-- The name under which the operator is listed. -/
def label : OperatorKind → String
  | .assign => "Assign"
  | .addAssign => "AddAssign"
  | .subAssign => "SubAssign"
  | .mulAssign => "MulAssign"
  | .divAssign => "DivAssign"
  | .modAssign => "ModAssign"
  | .powAssign => "PowAssign"
  | .bitAndAssign => "BitAndAssign"
  | .bitOrAssign => "BitOrAssign"
  | .bitXorAssign => "BitXorAssign"
  | .shlAssign => "ShlAssign"
  | .shrAssign => "ShrAssign"
  | .cast => "As"
  | .or => "Or"
  | .and => "And"
  | .containedIn => "In"
  | .notContainedIn => "NotIn"
  | .equal => "Equal"
  | .notEqual => "NotEqual"
  | .less => "Less"
  | .lessEqual => "LessEqual"
  | .greater => "Greater"
  | .greaterEqual => "GreaterEqual"
  | .bitOr => "BitOr"
  | .bitXor => "BitXor"
  | .bitAnd => "BitAnd"
  | .shl => "Shl"
  | .shr => "Shr"
  | .add => "Add"
  | .sub => "Sub"
  | .mul => "Mul"
  | .div => "Div"
  | .mod => "Mod"
  | .pow => "Pow"
  | .isType => "Is"
  | .not => "Not"
  | .negate => "Negate"
  | .identity => "Identity"
  | .bitNot => "BitNot"
  | .arrow => "Arrow"

/-- Every spelling, the preferred one first. `not in` is spelled by its first word. -/
def spellings : OperatorKind → List String
  | .assign => ["="]
  | .addAssign => ["+="]
  | .subAssign => ["-="]
  | .mulAssign => ["*="]
  | .divAssign => ["/="]
  | .modAssign => ["%="]
  | .powAssign => ["**="]
  | .bitAndAssign => ["&="]
  | .bitOrAssign => ["|="]
  | .bitXorAssign => ["^="]
  | .shlAssign => ["<<="]
  | .shrAssign => [">>="]
  | .cast => ["as"]
  | .or => ["or", "||"]
  | .and => ["and", "&&"]
  | .containedIn => ["in"]
  | .notContainedIn => ["not", "!"]
  | .equal => ["=="]
  | .notEqual => ["!="]
  | .less => ["<"]
  | .lessEqual => ["<="]
  | .greater => [">"]
  | .greaterEqual => [">="]
  | .bitOr => ["|"]
  | .bitXor => ["^"]
  | .bitAnd => ["&"]
  | .shl => ["<<"]
  | .shr => [">>"]
  | .add => ["+"]
  | .sub => ["-"]
  | .mul => ["*"]
  | .div => ["/"]
  | .mod => ["%"]
  | .pow => ["**"]
  | .isType => ["is"]
  | .not => ["not", "!"]
  | .negate => ["-"]
  | .identity => ["+"]
  | .bitNot => ["~"]
  | .arrow => ["->"]

/-- The operator a spelling denotes between two operands. -/
def binary? : String → Option OperatorKind
  | "=" => some .assign
  | "+=" => some .addAssign
  | "-=" => some .subAssign
  | "*=" => some .mulAssign
  | "/=" => some .divAssign
  | "%=" => some .modAssign
  | "**=" => some .powAssign
  | "&=" => some .bitAndAssign
  | "|=" => some .bitOrAssign
  | "^=" => some .bitXorAssign
  | "<<=" => some .shlAssign
  | ">>=" => some .shrAssign
  | "as" => some .cast
  | "or" | "||" => some .or
  | "and" | "&&" => some .and
  | "in" => some .containedIn
  | "==" => some .equal
  | "!=" => some .notEqual
  | "<" => some .less
  | "<=" => some .lessEqual
  | ">" => some .greater
  | ">=" => some .greaterEqual
  | "|" => some .bitOr
  | "^" => some .bitXor
  | "&" => some .bitAnd
  | "<<" => some .shl
  | ">>" => some .shr
  | "+" => some .add
  | "-" => some .sub
  | "*" => some .mul
  | "/" => some .div
  | "%" => some .mod
  | "**" => some .pow
  | "is" => some .isType
  | _ => none

/-- The operator a spelling denotes before an operand. -/
def unary? : String → Option OperatorKind
  | "not" | "!" => some .not
  | "-" => some .negate
  | "+" => some .identity
  | "~" => some .bitNot
  | _ => none

/-- The operators that store into their left operand. -/
def isAssignment : OperatorKind → Bool
  | .assign | .addAssign | .subAssign | .mulAssign | .divAssign | .modAssign | .powAssign
  | .bitAndAssign | .bitOrAssign | .bitXorAssign | .shlAssign | .shrAssign => true
  | _ => false

/-- Assignments chain to the right, everything else to the left. -/
def isRightAssociative (op : OperatorKind) : Bool :=
  op.isAssignment

/-- How tightly the operator binds between two operands. -/
def binaryPrecedence? : OperatorKind → Option Nat
  | .assign | .addAssign | .subAssign | .mulAssign | .divAssign | .modAssign | .powAssign
  | .bitAndAssign | .bitOrAssign | .bitXorAssign | .shlAssign | .shrAssign => some 1
  | .cast => some 2
  | .or => some 4
  | .and => some 5
  | .containedIn | .notContainedIn => some 7
  | .equal | .notEqual | .less | .lessEqual | .greater | .greaterEqual => some 8
  | .bitOr => some 9
  | .bitXor => some 10
  | .bitAnd => some 11
  | .shl | .shr => some 12
  | .add | .sub => some 13
  | .mul | .div | .mod => some 14
  | .pow => some 17
  | .isType => some 18
  | .not | .negate | .identity | .bitNot | .arrow => none

/-- How tightly the operator binds the operand it stands before. -/
def unaryPrecedence? : OperatorKind → Option Nat
  | .not => some 6
  | .negate | .identity => some 15
  | .bitNot => some 16
  | _ => none

/-- The least precedence the right operand may have. -/
def rightPrecedence (op : OperatorKind) (precedence : Nat) : Nat :=
  if op.isRightAssociative then precedence else precedence + 1

/-- How tightly `if` and `else` bind around a condition. -/
def ternaryPrecedence : Nat := 3

/-- How tightly `await` binds the operand it stands before. -/
def awaitPrecedence : Nat := 19

/-- The spellings made of symbols. -/
def symbols : List String :=
  ["**=", "<<=", ">>=", "**", "<<", ">>", "<=", ">=", "==", "!=", "+=", "-=", "*=", "/=", "%=",
   "&=", "|=", "^=", "&&", "||", "->", "=", "<", ">", "+", "-", "*", "/", "%", "&", "|", "^",
   "~", "!"]

/-- Whether `text` followed by `c` begins some symbolic spelling. -/
def canExtend (text : List Char) (c : Char) : Bool :=
  symbols.any fun symbol => (text ++ [c]).isPrefixOf symbol.toList

/-- Whether `c` begins some symbolic spelling. -/
def canStart (c : Char) : Bool :=
  symbols.any fun symbol => symbol.toList.head? == some c

/-- Whether `c` begins some spelling of this operator. -/
def startsWith (op : OperatorKind) (c : Char) : Bool :=
  op.spellings.any fun text => text.toList.head? == some c

/-- What a symbol denotes before its place decides between its two meanings. -/
def ofSymbol? (text : String) : Option OperatorKind :=
  (binary? text).or ((unary? text).or (if text == "->" then some .arrow else none))

theorem mem_all (op : OperatorKind) : op ∈ all := by
  cases op <;> decide

/-- Every symbolic spelling denotes some operator. -/
theorem ofSymbol?_isSome_of_mem {text : String} (h : text ∈ symbols) :
    (ofSymbol? text).isSome := by
  have : ∀ symbol ∈ symbols, (ofSymbol? symbol).isSome = true := by decide
  exact this text h

end OperatorKind

end ScriptTree
