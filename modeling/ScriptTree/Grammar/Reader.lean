import ScriptTree.Grammar.Context
import ScriptTree.Grammar.LeafReader
import ScriptTree.Literal.Indentation

/-!
The reading states. Each open construct of the text has one, and they are stacked; a state takes
a signal, hands it to a new state inside it, or ends and leaves the signal to the state around it.
When a state ends it delivers what it read to the state around it.
-/

namespace ScriptTree

/-- The beginning of a line that was read by a block which the line does not belong to. -/
structure LineStart where
  /-- The white space, unless the line begins at column zero. -/
  indent : Option Tree
  level : IndentLevel

/-- What a state that ended hands to the state around it, in text order. -/
structure Delivery where
  /-- Trivia and misplaced text before the token. -/
  leading : List Tree := []
  /-- What the state was opened to read. -/
  token : Option Tree := none
  /-- Trivia after the token. -/
  trailing : List Tree := []
  /-- A token that was read but belongs to a construct around this one. -/
  handback : Option Tree := none
  /-- The beginning of a line that ends this construct. -/
  line : Option LineStart := none

/-- What reading noticed besides the tokens. -/
structure Notices where
  /-- The text ended inside a construct that might have gone on. -/
  truncated : Bool := false
  /-- A line fell below the level of a block that holds a single item. -/
  escaped : Bool := false
  deriving DecidableEq, Repr

/-- Everything that either noticed. -/
def Notices.merge (a b : Notices) : Notices :=
  ⟨a.truncated || b.truncated, a.escaped || b.escaped⟩

/-- What an operator leaf does in an expression. -/
inductive Operation where
  | binary (op : OperatorKind)
  | unary (op : OperatorKind)
  | await
  | ternaryIf
  | ternaryElse
  deriving DecidableEq, Repr

/-- A piece of an expression that is read flat, before precedence gives it structure. -/
inductive Piece where
  | operand (token : Tree)
  | operation (op : Operation) (token : Tree)
  | trivia (token : Tree)
  /-- A point that waits for the name of a member. -/
  | point (token : Tree)
  /-- A `not` that waits for `in`. -/
  | negation (token : Tree)

/-- The token of a piece. -/
def Piece.token : Piece → Tree
  | .operand t | .operation _ t | .trivia t | .point t | .negation t => t

/-- What an expression opened a state for. -/
inductive ExpressionGoal where
  | trivia
  | word
  | member
  | operand
  | operator
  | arguments
  | subscript
  deriving DecidableEq, Repr

/-- An expression being read. -/
structure ExpressionReader where
  ctx : Context
  /-- The pieces read so far, the latest first. -/
  pieces : List Piece := []
  goal : ExpressionGoal := .trivia
  /-- The number of `if` that have no `else` yet. -/
  openTernaries : Nat := 0
  done : Bool := false
  handback : Option Tree := none
  line : Option LineStart := none

/-- What may come next in a group. -/
inductive GroupExpectation where
  | item
  /-- The value of a dictionary entry. -/
  | value
  /-- A separator or the closing bracket. -/
  | separator
  deriving DecidableEq, Repr

/-- What a group opened a state for. -/
inductive GroupGoal where
  | trivia
  | item
  | value
  deriving DecidableEq, Repr

/-- A group being read. -/
structure GroupReader where
  kind : GroupKind
  form : List Entry := []
  /-- Where the items stand. -/
  ctx : Context
  opened : Bool
  expected : GroupExpectation := .item
  goal : GroupGoal := .trivia
  /-- The form of the dictionary entry whose value is still to come. -/
  entry : Option (List Entry) := none
  done : Bool := false
  handback : Option Tree := none
  line : Option LineStart := none

/-- A production with a fixed order of parts being read. -/
structure SequenceReader where
  kind : NodeKind
  form : List Entry := []
  /-- The parts that may still be filled. -/
  remaining : List Part
  /-- The part that a state was opened for, and the parts after it. -/
  active : Option (Part × List Part) := none
  level : Nat
  /-- Inside brackets expressions may span lines. -/
  brackets : Bool
  done : Bool := false
  handback : Option Tree := none
  line : Option LineStart := none

/-- Where a block begins and ends. -/
inductive BlockMode where
  /-- The top of a text: at level zero, and never ended by a line. -/
  | root
  /-- The lines after a colon: the first line with content fixes the level, which has to exceed
  the level of the construct around the block. -/
  | indented (parent : Nat)
  /-- The rest of the line after a colon. -/
  | inline
  /-- One item at a level known beforehand. -/
  | single
  deriving DecidableEq, Repr

/-- How far a block has read into its current line. -/
inductive BlockPhase where
  /-- The rest of the line that holds the colon. -/
  | header
  | lineStart
  /-- After the white space; the line may still turn out blank. -/
  | afterIndent
  | itemStart
  | afterItem
  deriving DecidableEq, Repr

/-- What a block opened a state for. -/
inductive BlockGoal where
  | trivia
  | indent
  /-- The first word of an item. -/
  | word
  | item
  /-- A further branch of the `if` that ends the block. -/
  | branch
  deriving DecidableEq, Repr

/-- A block being read. -/
structure BlockReader where
  kind : BlockKind
  form : List Entry := []
  mode : BlockMode
  level : Option Nat
  phase : BlockPhase
  /-- The white space of the current line, placed once it is known what the line is. -/
  indent : Option Tree := none
  goal : BlockGoal := .trivia
  /-- A `static` and the trivia after it, until the word is read that it belongs to. -/
  held : List Tree := []
  /-- After a class name only `extends` may follow on the line. -/
  extendsOnly : Bool := false
  done : Bool := false
  line : Option LineStart := none

/-- A standalone expression being read. -/
structure RootReader where
  form : List Entry := []
  /-- Whether the expression was begun already. -/
  begun : Bool := false

/-- A reading state. -/
inductive Reader where
  | leaf (r : LeafReader)
  | expression (r : ExpressionReader)
  | group (r : GroupReader)
  | sequence (r : SequenceReader)
  | block (r : BlockReader)
  | root (r : RootReader)

/-- What to do with a signal after a state saw it. -/
inductive Step where
  /-- The signal was taken. -/
  | accept
  /-- The signal was taken, and the state ends. -/
  | acceptAndComplete
  /-- The state ends; the signal goes to the state around it. -/
  | complete
  /-- A state is opened inside this one; the signal goes to it. -/
  | enter (inner : Reader)
  /-- The signal begins text without a place. -/
  | absorb

/-- The state after a signal, and what to do with the signal. -/
structure Reaction (σ : Type) where
  state : σ
  step : Step
  notices : Notices := {}

/-- The state after a delivery, and the states that the delivery opens, the outermost first. -/
structure Receipt (σ : Type) where
  state : σ
  opened : List Reader := []
  notices : Notices := {}

/-- The reaction of a state wrapped in a larger one. -/
def Reaction.map {σ τ : Type} (f : σ → τ) (r : Reaction σ) : Reaction τ :=
  ⟨f r.state, r.step, r.notices⟩

/-- The receipt of a state wrapped in a larger one. -/
def Receipt.map {σ τ : Type} (f : σ → τ) (r : Receipt σ) : Receipt τ :=
  ⟨f r.state, r.opened, r.notices⟩

/-- Trivia at a signal: either a leaf that the signal makes by itself, or a reader for it. -/
inductive TriviaStart where
  | token (t : Tree)
  | reader (r : LeafReader)

namespace TriviaStart

/-- A reader for trivia inside a line. -/
def inline? : Signal → Option LeafReader
  | .char c => if Text.isInlineSpace c then some (.blank .space "") else none
  | .escape => some (.continuation "")
  | _ => none

/-- Trivia inside brackets, where line breaks and comments are trivia as well. -/
def bracketed? : Signal → Option TriviaStart
  | .newLine => some (.token (.ofText .newLine "\n"))
  | .carriageReturn => some (.token (.ofText .carriageReturn "\r"))
  | .commentStart => some (.reader (.comment ""))
  | signal => (inline? signal).map .reader

/-- Trivia where the brackets are as given. -/
def at? (brackets : Bool) (signal : Signal) : Option TriviaStart :=
  if brackets then bracketed? signal else (inline? signal).map .reader

/-- White space is trivia inside a line. -/
theorem inline?_blank {c : Char} (hc : Text.isInlineSpace c = true) :
    inline? (.char c) = some (.blank .space "") := by
  rw [inline?, if_pos hc]

theorem bracketed?_blank {c : Char} (hc : Text.isInlineSpace c = true) :
    bracketed? (.char c) = some (.reader (.blank .space "")) := by
  simp [bracketed?, inline?_blank hc]

theorem at?_blank (brackets : Bool) {c : Char} (hc : Text.isInlineSpace c = true) :
    at? brackets (.char c) = some (.reader (.blank .space "")) := by
  rw [at?, bracketed?_blank hc, inline?_blank hc]
  cases brackets <;> rfl

/-- A character that is no white space begins no trivia. -/
theorem inline?_char {c : Char} (hc : Text.isInlineSpace c = false) : inline? (.char c) = none := by
  simp [inline?, hc]

theorem at?_char (brackets : Bool) {c : Char} (hc : Text.isInlineSpace c = false) :
    at? brackets (.char c) = none := by
  cases brackets <;> simp [at?, bracketed?, inline?_char hc]

end TriviaStart

end ScriptTree
