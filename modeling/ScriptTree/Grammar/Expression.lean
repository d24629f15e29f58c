import ScriptTree.Grammar.Climb

/-!
Reading expressions. Operands, operators and trivia are read flat, with no more memory than
whether an operand or an operator comes next; members, calls and subscripts wrap the operand
before them at once. When the expression ends, precedence gives the pieces their structure.
-/

namespace ScriptTree

namespace SequenceReader

/-- A production of which nothing was read yet. -/
def start (kind : NodeKind) (level : Nat) (brackets : Bool) : SequenceReader :=
  { kind, remaining := Production.parts kind, level, brackets }

/-- A production whose first part is a keyword that was read already. -/
def afterKeyword (kind : NodeKind) (level : Nat) (word : Tree) :
    Except Misfit SequenceReader := do
  return { start kind level false with
    form := ← Form.place kind .keyword word [], remaining := (Production.parts kind).drop 1 }

end SequenceReader

namespace GroupReader

/-- A group of which nothing was read yet. -/
def start (kind : GroupKind) (ctx : Context) : GroupReader :=
  { kind, ctx, opened := kind.isBare }

end GroupReader

namespace ExpressionReader

/-- Whether an operand has to come next. -/
def expectsOperand : List Piece → Bool
  | [] => true
  | .operand _ :: _ => false
  | .operation _ _ :: _ => true
  | _ :: rest => expectsOperand rest

/-- Whether a point still waits for the name of a member. -/
def awaitsMember : List Piece → Bool
  | .trivia _ :: rest => awaitsMember rest
  | .point _ :: _ => true
  | _ => false

/-- Whether a `not` still waits for `in`. -/
def awaitsIn : List Piece → Bool
  | .trivia _ :: rest => awaitsIn rest
  | .negation _ :: _ => true
  | _ => false

/-- A point or a `not` that waited in vain is text without a place. -/
def settlePiece : Piece → Piece
  | .point t | .negation t => .trivia t.invalidated
  | piece => piece

/-- Give up on all points and `not`s that wait. -/
def settle (pieces : List Piece) : List Piece :=
  pieces.map settlePiece

/-- A `not` that was followed by `in` becomes one operator with it. -/
def joinIn : Piece → Piece
  | .negation t =>
    .operation (.binary .notContainedIn) (t.withLeafKind (.operator .notContainedIn))
  | piece => piece

/-- The pieces after the last operand, that operand, and the pieces before it. -/
def splitOperand? : List Piece → Option (List Piece × Tree × List Piece)
  | [] => none
  | .operand t :: rest => some ([], t, rest)
  | piece :: rest =>
    (splitOperand? rest).map fun (later, operand, earlier) => (piece :: later, operand, earlier)

/-- The entry of a piece that stands inside a postfix form. -/
def innerEntry (kind : NodeKind) : Piece → Entry
  | .point t => (if kind = .memberAccess then .slot .point else .extra, t)
  | piece => (.extra, piece.token)

/-- Wrap the last operand, if there is one, in a postfix form that ends with `tail`. -/
def wrapOperand? (pieces : List Piece) (kind : NodeKind) (targetSlot tailSlot : Slot)
    (tail : Tree) : Except Misfit (Option (List Piece)) :=
  match splitOperand? pieces with
  | none => .ok none
  | some (later, target, earlier) => do
    let form := (.slot targetSlot, target) :: later.reverse.map (innerEntry kind)
      ++ [(.slot tailSlot, tail)]
    return some (.operand (← Tree.assemble kind form) :: earlier)

/-- Add a piece. -/
def push (r : ExpressionReader) (piece : Piece) : ExpressionReader :=
  { r with pieces := piece :: r.pieces }

/-- Add trivia. -/
def pushTrivia (r : ExpressionReader) (tokens : List Tree) : ExpressionReader :=
  tokens.foldl (fun r t => r.push (.trivia t)) r

/-- End the expression before a token that belongs to a construct around it. -/
def handBack (r : ExpressionReader) (token : Tree) : ExpressionReader :=
  { r with handback := some token, done := true }

/-- Open a state for a purpose. -/
def enter (r : ExpressionReader) (goal : ExpressionGoal) (inner : Reader) :
    Reaction ExpressionReader :=
  ⟨{ r with goal }, .enter inner, {}⟩

/-- Leave the signal to the state around the expression. -/
def complete (r : ExpressionReader) : Reaction ExpressionReader :=
  ⟨r, .complete, {}⟩

/-- The group that a bracket opens as an operand. -/
def groupOpenedBy? : Char → Option GroupKind
  | '(' => some .parenthesized
  | '[' => some .array
  | '\x7b' => some .dictionary
  | _ => none

/-- The leaf that a character begins as an operand. -/
def leafBegunBy? (ctx : Context) (c : Char) : Option LeafReader :=
  if Text.isDigit c then some (.number .start "")
  else if c = '.' then
    if ctx.pattern then some (.dots 0) else some (.number .start "")
  else if StringScan.canStart c then some (.string .start "")
  else if c = '$' ∨ c = '%' then some (.nodePath none "")
  else none

/-- A character where an operand may begin. -/
def onOperandChar (r : ExpressionReader) (c : Char) : Reaction ExpressionReader :=
  if Text.isWordStart c then r.enter .word (.leaf (.word ""))
  else if !r.ctx.operators then
    if StringScan.isQuote c then r.enter .operand (.leaf (.string .start "")) else r.complete
  else
    match leafBegunBy? r.ctx c, groupOpenedBy? c with
    | some leaf, _ => r.enter .operand (.leaf leaf)
    | none, some kind => r.enter .operand (.group (.start kind r.ctx.bracketed))
    | none, none =>
      if OperatorKind.canStart c then r.enter .operator (.leaf (.operator "")) else r.complete

/-- A character after an operand. -/
def onOperatorChar (r : ExpressionReader) (c : Char) : Reaction ExpressionReader :=
  if c = '.' then ⟨r.push (.point (.ofPunct .point)), .accept, {}⟩
  else if c = '[' then r.enter .subscript (.group (.start .subscript r.ctx.bracketed))
  else if !r.ctx.operators then r.complete
  else if c = '(' then r.enter .arguments (.group (.start .arguments r.ctx.bracketed))
  else if Text.isWordStart c then r.enter .word (.leaf (.word ""))
  else if OperatorKind.canStart c then r.enter .operator (.leaf (.operator ""))
  else r.complete

/-- A character that is not trivia. -/
def onChar (r : ExpressionReader) (c : Char) : Reaction ExpressionReader :=
  if awaitsMember r.pieces && Text.isWordStart c then r.enter .member (.leaf (.word ""))
  else if awaitsIn r.pieces && Text.isWordStart c then r.enter .word (.leaf (.word ""))
  else
    let r := { r with pieces := settle r.pieces }
    if expectsOperand r.pieces then r.onOperandChar c else r.onOperatorChar c

/-- A signal that reaches the expression itself. -/
def onSignal (r : ExpressionReader) (signal : Signal) : Reaction ExpressionReader :=
  if r.done then r.complete
  else
    match TriviaStart.at? r.ctx.brackets signal, signal with
    | some (.token t), _ => ⟨r.push (.trivia t), .accept, {}⟩
    | some (.reader leaf), _ => r.enter .trivia (.leaf leaf)
    | none, .char c => r.onChar c
    | none, _ => r.complete

/-- The operator that a reserved word denotes between two operands. -/
def binaryWord? : Keyword → Option OperatorKind
  | .andKw => some .and
  | .orKw => some .or
  | .inKw => some .containedIn
  | .isKw => some .isType
  | .asKw => some .cast
  | _ => none

/-- Open the production of an operand that begins with a keyword. -/
def openProduction (r : ExpressionReader) (kind : NodeKind) (word : Tree) :
    Except Misfit (Receipt ExpressionReader) := do
  let inner ← SequenceReader.afterKeyword kind r.ctx.level word
  return { state := { r with goal := .operand }, opened := [.sequence inner] }

/-- A word where an operand may begin. -/
def onOperandWord (r : ExpressionReader) (word : Tree) :
    Except Misfit (Receipt ExpressionReader) := do
  match word.keyword? with
  | none => return { state := r.push (.operand word) }
  | some kw =>
    if r.ctx.operators && kw.isLiteral then return { state := r.push (.operand word) }
    else if r.ctx.operators && kw == .notKw then
      let token := word.withLeafKind (.operator .not)
      return { state := r.push (.operation (.unary .not) token) }
    else if r.ctx.operators && kw == .awaitKw then
      return { state := r.push (.operation .await word) }
    else if r.ctx.operators && kw == .funcKw && !r.ctx.pattern then r.openProduction .lambda word
    else if r.ctx.pattern && kw == .varKw then r.openProduction .matchBinding word
    else return { state := r.handBack word }

/-- A word after an operand. -/
def onOperatorWord (r : ExpressionReader) (word : Tree) : ExpressionReader :=
  match word.keyword? with
  | none => r.handBack word
  | some kw =>
    if !r.ctx.operators then r.handBack word
    else
      match binaryWord? kw with
      | some op => r.push (.operation (.binary op) (word.withLeafKind (.operator op)))
      | none =>
        if kw == .notKw then r.push (.negation word)
        else if kw == .ifKw && !r.ctx.pattern then
          { r.push (.operation .ternaryIf word) with openTernaries := r.openTernaries + 1 }
        else if kw == .elseKw && 0 < r.openTernaries then
          { r.push (.operation .ternaryElse word) with openTernaries := r.openTernaries - 1 }
        else r.handBack word

/-- A complete word. -/
def onWord (r : ExpressionReader) (word : Tree) : Except Misfit (Receipt ExpressionReader) := do
  if awaitsIn r.pieces && word.keyword? == some .inKw then
    return { state := { r with pieces := .trivia word :: r.pieces.map joinIn } }
  else
    let r := if awaitsIn r.pieces then { r with pieces := settle r.pieces } else r
    if expectsOperand r.pieces then r.onOperandWord word
    else return { state := r.onOperatorWord word }

/-- A complete operator made of symbols. Where no operand precedes it, only an operator that
may stand before an operand has a place. -/
def onOperator (r : ExpressionReader) (token : Tree) : ExpressionReader :=
  let text := token.leafText?.getD ""
  let misplaced := r.push (.trivia token.invalidated)
  if expectsOperand r.pieces then
    match OperatorKind.unary? text with
    | some op => r.push (.operation (.unary op) (token.withLeafKind (.operator op)))
    | none => if r.pieces.isEmpty then r.handBack token else misplaced
  else
    match OperatorKind.binary? text with
    | some op =>
      if op.isAssignment && !r.ctx.assign then r.handBack token
      else r.push (.operation (.binary op) token)
    | none => if text == "->" then r.handBack token else misplaced

/-- The name of a member. A reserved word may be one. -/
def onMember (r : ExpressionReader) (word : Tree) : Except Misfit ExpressionReader := do
  if awaitsMember r.pieces then
    let name := if word.keyword?.isSome then word.withLeafKind .identifier else word
    match ← wrapOperand? r.pieces .memberAccess .target .member name with
    | some pieces => return { r with pieces }
    | none => return r.push (.trivia word.invalidated)
  else return r.push (.trivia word.invalidated)

/-- What follows an operand and belongs to it. -/
def onTail (r : ExpressionReader) (kind : NodeKind) (targetSlot tailSlot : Slot) (tail : Tree) :
    Except Misfit ExpressionReader := do
  let wrapped ← wrapOperand? r.pieces kind targetSlot tailSlot tail
  return { r with pieces := wrapped.getD (.operand tail :: r.pieces) }

/-- The token that a state was opened for. -/
def onToken (r : ExpressionReader) (goal : ExpressionGoal) (token : Tree) :
    Except Misfit (Receipt ExpressionReader) := do
  if token.isTrivia then return { state := r.push (.trivia token) }
  else if token.isInvalid || token.leafKind? == some (.punct .point) then
    return { state := r.push (.trivia token.invalidated) }
  else
    match goal with
    | .trivia => return { state := r.push (.trivia token) }
    | .word => r.onWord token
    | .member => return { state := ← r.onMember token }
    | .operand => return { state := r.push (.operand token) }
    | .operator => return { state := r.onOperator token }
    | .arguments => return { state := ← r.onTail .call .callee .arguments token }
    | .subscript => return { state := ← r.onTail .indexer .target .subscript token }

/-- A token that a state inside read but could not place. -/
def onHandback (r : ExpressionReader) (token : Tree) :
    Except Misfit (Receipt ExpressionReader) := do
  if r.done then return { state := r.push (.trivia token.invalidated) }
  else
    match token.leafKind? with
    | some .identifier | some (.keyword _) => r.onWord token
    | _ => return { state := r.handBack token }

/-- The beginning of a line that ended a state inside. Inside brackets it is trivia. -/
def onLine (r : ExpressionReader) (line : LineStart) : ExpressionReader :=
  if r.ctx.brackets then
    match line.indent with
    | some indent => r.push (.trivia (indent.withLeafKind .space))
    | none => r
  else { r with line := some line, done := true }

/-- The token of a delivery, if there is one. -/
def onToken? (r : ExpressionReader) (goal : ExpressionGoal) :
    Option Tree → Except Misfit (Receipt ExpressionReader)
  | some token => r.onToken goal token
  | none => .ok { state := r }

/-- The token that a delivery hands on, if there is one. -/
def onHandback? (r : ExpressionReader) : Option Tree → Except Misfit (Receipt ExpressionReader)
  | some token => r.onHandback token
  | none => .ok { state := r }

/-- The beginning of a line that a delivery hands on, if there is one. -/
def onLine? (r : ExpressionReader) : Option LineStart → ExpressionReader
  | some line => r.onLine line
  | none => r

/-- A delivery from a state inside. -/
def onDelivery (r : ExpressionReader) (d : Delivery) :
    Except Misfit (Receipt ExpressionReader) := do
  let first ← ({ r with goal := .trivia }.pushTrivia d.leading).onToken? r.goal d.token
  let second ← (first.state.pushTrivia d.trailing).onHandback? d.handback
  return { state := second.state.onLine? d.line, opened := first.opened ++ second.opened }

/-- An expression whose first word was read already, and the states that the word opens. -/
def seeded (ctx : Context) (word : Tree) : Except Misfit (Receipt ExpressionReader) :=
  { ctx : ExpressionReader }.onWord word

/-- What the expression delivers when it ends. -/
def finish (max? : Option Nat) (r : ExpressionReader) : Except ParseError Delivery := do
  let folded ← Climbed.fold max? (settle r.pieces).reverse
  return { folded with handback := r.handback, line := r.line }

end ExpressionReader

end ScriptTree
