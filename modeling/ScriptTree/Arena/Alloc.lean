import ScriptTree.Arena.Basic
import ScriptTree.Literal.Number
import ScriptTree.Literal.StringLiteral

/-!
Allocating tokens. A leaf may be checked first: its text has to be one that reading would give a
leaf of its kind.
-/

namespace ScriptTree

/-- Why an operation on an arena is refused. -/
inductive TokenError where
  | invalidLiteral (kind : LeafKind) (text : String) (source : Option LiteralError)
  | notANode (id : Nat)
  | misfit (e : Misfit)
  | slotOccupied (node : Nat) (slot : Slot)
  | detached (id : Nat)
  | cycle (node token : Nat)
  deriving DecidableEq, Repr

namespace TokenError

/-- A token as messages name it. -/
def tokenName (id : Nat) : String :=
  "TokenId(" ++ toString id ++ ")"

/-- The text of the error. -/
def message : TokenError → String
  | invalidLiteral kind text _ =>
    "`" ++ text ++ "` is not valid text for a " ++ kind.debug ++ " token"
  | notANode id => "token " ++ tokenName id ++ " is a leaf, not a node"
  | misfit e => e.message
  | slotOccupied node slot =>
    "slot `" ++ slot.label ++ "` of " ++ tokenName node ++ " is already filled"
  | detached id => "token " ++ tokenName id ++ " is not attached to a parent"
  | cycle node token =>
    "attaching " ++ tokenName token ++ " under " ++ tokenName node
      ++ " would make a token its own ancestor"

end TokenError

namespace LeafKind

/-- Characters of a scene path after its mark. -/
def isPathChar (c : Char) : Bool :=
  Text.isWordContinue c || c == '/' || c == '%' || c == '.'

/-- Whether a text is a mark with a scene path, plain or quoted. -/
def isPathText : List Char → Bool
  | [] => false
  | mark :: rest =>
    (mark == '$' || mark == '%')
      && match rest with
        | [] => false
        | c :: more =>
          if StringScan.isQuote c then (StringLiteral.value (String.ofList rest)).isOk
          else (c :: more).all isPathChar

/-- Whether a text may stand in a leaf of the kind; for literals, with the reason why not. -/
def accepts (kind : LeafKind) (text : String) : Except (Option LiteralError) Unit :=
  let cs := text.toList
  let require (holds : Bool) : Except (Option LiteralError) Unit :=
    if holds then .ok () else .error none
  match kind with
  | .space => require (!cs.isEmpty && cs.all Text.isInlineSpace)
  | .indentation => require (cs.all Text.isInlineSpace)
  | .newLine => require (text == "\n")
  | .carriageReturn => require (text == "\r")
  | .comment => require (cs.head? == some '#' && !cs.contains '\n' && !cs.contains '\r')
  | .lineContinuation => require (text == "\\\n" || text == "\\\r\n")
  | .identifier =>
    if Text.isWord cs && (Keyword.ofSpelling? text).isNone then .ok ()
    else .error (some (.invalidIdentifier text))
  | .keyword word => require (text == word.spelling)
  | .number => (NumberValue.ofText text).mapError some |>.map fun _ => ()
  | .string => (StringLiteral.value text).mapError some |>.map fun _ => ()
  | .nodePath => require (isPathText cs)
  | .punct mark => require (text == mark.spelling)
  | .operator op => require (op.spellings.contains text)
  | .invalid => .ok ()

end LeafKind

namespace Arena

/-- Allocate a token; returns its name. -/
def alloc (a : Arena) (body : TokenBody) : Arena × Nat :=
  (⟨a.tokens.push { body }⟩, a.size)

/-- Allocate a leaf without checking its text. -/
def allocLeaf (a : Arena) (kind : LeafKind) (text : String) : Arena × Nat :=
  a.alloc (.leaf kind text)

/-- Allocate a node without children. -/
def allocNode (a : Arena) (kind : NodeKind) : Arena × Nat :=
  a.alloc (.node kind [])

/-- Allocate a leaf whose text suits its kind. -/
def leaf (a : Arena) (kind : LeafKind) (text : String) : Except TokenError (Arena × Nat) :=
  match kind.accepts text with
  | .ok _ => .ok (a.allocLeaf kind text)
  | .error source => .error (.invalidLiteral kind text source)

/-- Allocate a reserved word. -/
def keyword (a : Arena) (word : Keyword) : Arena × Nat :=
  a.allocLeaf (.keyword word) word.spelling

/-- Allocate a punctuation mark. -/
def punct (a : Arena) (mark : Punct) : Arena × Nat :=
  a.allocLeaf (.punct mark) mark.spelling

/-- Allocate an operator in its preferred spelling. -/
def operator (a : Arena) (op : OperatorKind) : Arena × Nat :=
  a.allocLeaf (.operator op) (op.spellings.headD "")

/-- Allocate a run of blanks. -/
def space (a : Arena) (width : Nat) : Arena × Nat :=
  a.allocLeaf .space (String.ofList (List.replicate width ' '))

/-- Allocate a line break. -/
def newLine (a : Arena) : Arena × Nat :=
  a.allocLeaf .newLine "\n"

/-- A new token takes the next name. -/
theorem snd_alloc (a : Arena) (body : TokenBody) : (a.alloc body).2 = a.size := rfl

/-- Allocating changes no token. -/
theorem get?_alloc_of_lt (a : Arena) (body : TokenBody) {id : Nat} (h : id < a.size) :
    (a.alloc body).1.get? id = a.get? id := by
  simp only [get?, alloc, Array.getElem?_push]
  split
  · rename_i heq
    exact absurd heq (Nat.ne_of_lt h)
  · rfl

end Arena

end ScriptTree
