import ScriptTree.Grammar.Reader
import ScriptTree.ParseError

/-!
Precedence climbing: pieces of an expression that were read flat become nested operator nodes.
Trivia between the parts of a node become its extras. An operator that lacks an operand is text
without a place.
-/

namespace ScriptTree

/-- An operand built from the first pieces of a list. -/
structure Climbed where
  /-- The trivia before the operand. -/
  before : List Tree
  token : Tree
  /-- The pieces after the operand. -/
  rest : List Piece

namespace Climbed

/-- The trivia at the beginning of the pieces, and the pieces from the first other one on. -/
def skipTrivia : List Piece → List Tree × List Piece
  | .trivia t :: rest =>
    let (skipped, rest) := skipTrivia rest
    (t :: skipped, rest)
  | pieces => ([], pieces)

/-- The entries of an operand that fills a slot, with the trivia before it. -/
def entries (slot : Slot) (c : Climbed) : List Entry :=
  Form.extras c.before ++ [(.slot slot, c.token)]

/-- The entries of a leaf that fills a slot, with the trivia before it. -/
def leafEntries (slot : Slot) (before : List Tree) (token : Tree) : List Entry :=
  Form.extras before ++ [(.slot slot, token)]

/-- An operand that is a node of the given children. -/
def assemble (before : List Tree) (kind : NodeKind) (form : List Entry) (rest : List Piece) :
    Except ParseError Climbed := do
  return ⟨before, ← ParseError.ofTree (Tree.assemble kind form), rest⟩

mutual

/-- Build the longest operand whose operators bind at least as tightly as `least`, using a frame.
Each call but the first handles a piece, so that fuel of twice the number of pieces suffices. -/
def climb (max? : Option Nat) :
    Nat → Nat → Nat → List Piece → Except ParseError (Option Climbed)
  | 0, _, _, _ => .ok none
  | fuel + 1, frames, least, pieces => do
    ParseError.ofDepth (checkDepth .traceFrames max? (frames + 1))
    match ← primary max? fuel (frames + 1) pieces with
    | none => return none
    | some left => return some (← extend max? fuel (frames + 1) least left)

/-- Build a single operand or an operator before an operand. -/
def primary (max? : Option Nat) :
    Nat → Nat → List Piece → Except ParseError (Option Climbed)
  | 0, _, _ => .ok none
  | fuel + 1, frames, pieces =>
    match skipTrivia pieces with
    | (before, .operand token :: rest) => .ok (some ⟨before, token, rest⟩)
    | (before, .operation (.unary op) token :: rest) => do
      let least := op.unaryPrecedence?.getD OperatorKind.awaitPrecedence
      match ← climb max? fuel frames least rest with
      | none => return none
      | some operand =>
        let form := (.slot .operator, token) :: operand.entries .operand
        return some (← assemble before .singleOperator form operand.rest)
    | (before, .operation .await token :: rest) => do
      match ← climb max? fuel frames OperatorKind.awaitPrecedence rest with
      | none => return none
      | some operand =>
        let form := (.slot .keyword, token) :: operand.entries .operand
        return some (← assemble before .await form operand.rest)
    | _ => .ok none

/-- Let operators that bind at least as tightly as `least` take `left` as their first operand. -/
def extend (max? : Option Nat) :
    Nat → Nat → Nat → Climbed → Except ParseError Climbed
  | 0, _, _, left => .ok left
  | fuel + 1, frames, least, left =>
    match skipTrivia left.rest with
    | (gap, .operation (.binary op) token :: rest) =>
      match op.binaryPrecedence? with
      | none => .ok left
      | some precedence =>
        if precedence < least then .ok left
        else do
          match ← climb max? fuel frames (op.rightPrecedence precedence) rest with
          | none => return left
          | some right =>
            let form := (.slot .left, left.token) :: leafEntries .operator gap token
              ++ right.entries .right
            extend max? fuel frames least (← assemble left.before .dualOperator form right.rest)
    | (gap, .operation .ternaryIf token :: rest) =>
      if OperatorKind.ternaryPrecedence < least then .ok left
      else do
        let opening (token : Tree) : List Entry :=
          (.slot .trueValue, left.token) :: leafEntries .ifKeyword gap token
        match ← climb max? fuel frames (OperatorKind.ternaryPrecedence + 1) rest with
        | none =>
          let form := opening token.invalidated
          extend max? fuel frames least (← assemble left.before .ternary form rest)
        | some condition =>
          let shown := condition.entries .condition
          match skipTrivia condition.rest with
          | (gap, .operation .ternaryElse elseToken :: rest) =>
            match ← climb max? fuel frames OperatorKind.ternaryPrecedence rest with
            | none =>
              let form := opening token.invalidated ++ shown
                ++ leafEntries .elseKeyword gap elseToken.invalidated
              extend max? fuel frames least (← assemble left.before .ternary form rest)
            | some value =>
              let form := opening token ++ shown ++ leafEntries .elseKeyword gap elseToken
                ++ value.entries .falseValue
              extend max? fuel frames least (← assemble left.before .ternary form value.rest)
          | _ =>
            let form := opening token.invalidated ++ shown
            extend max? fuel frames least (← assemble left.before .ternary form condition.rest)
    | _ => .ok left

end

/-- The token of a piece that no operand took: operators lose their place. -/
def leftover (piece : Piece) : Tree :=
  match piece with
  | .operation _ token => token.invalidated
  | piece => piece.token

/-- Fold the pieces of a whole expression. -/
def fold (max? : Option Nat) (pieces : List Piece) : Except ParseError Delivery := do
  match ← climb max? (2 * pieces.length + 2) 0 0 pieces with
  | none => return { trailing := pieces.map leftover }
  | some top =>
    return { leading := top.before, token := some top.token, trailing := top.rest.map leftover }

end Climbed

end ScriptTree
