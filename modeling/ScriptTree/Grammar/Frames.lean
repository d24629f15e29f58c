import ScriptTree.Grammar.Climb

/-!
Folding with a counter of frames. One counter serves all expressions of a text: an operand enters a
frame before it is built and leaves it afterwards, whether it could be built or not.
-/

namespace ScriptTree

/-- A computation that counts its frames and keeps the counter when it fails. -/
abbrev Counted (α : Type) : Type := ExceptT ParseError (StateM FrameCounter) α

namespace Counted

variable {α : Type}

/-- The outcome from a counter on, and the counter that is left. -/
def startFrom (f : FrameCounter) (x : Counted α) : Except ParseError α × FrameCounter :=
  Id.run (StateT.run (ExceptT.run x) f)

/-- A computation in a frame of its own. A frame beyond the maximum is not entered. -/
def nested (body : Counted α) : Counted α := do
  set (← ParseError.ofDepth (← get).enter)
  try body finally modify FrameCounter.leave

mutual

/-- Build the longest operand whose operators bind at least as tightly as `least`, in a frame. -/
def climb : Nat → Nat → List Piece → Counted (Option Climbed)
  | 0, _, _ => return none
  | fuel + 1, least, pieces => nested do
    match ← primary fuel pieces with
    | none => return none
    | some left => return some (← extend fuel least left)

/-- Build a single operand or an operator before an operand. -/
def primary : Nat → List Piece → Counted (Option Climbed)
  | 0, _ => return none
  | fuel + 1, pieces =>
    match Climbed.skipTrivia pieces with
    | (before, .operand token :: rest) => return some ⟨before, token, rest⟩
    | (before, .operation (.unary op) token :: rest) => do
      let least := op.unaryPrecedence?.getD OperatorKind.awaitPrecedence
      match ← climb fuel least rest with
      | none => return none
      | some operand =>
        let form := (.slot .operator, token) :: operand.entries .operand
        return some (← Climbed.assemble before .singleOperator form operand.rest)
    | (before, .operation .await token :: rest) => do
      match ← climb fuel OperatorKind.awaitPrecedence rest with
      | none => return none
      | some operand =>
        let form := (.slot .keyword, token) :: operand.entries .operand
        return some (← Climbed.assemble before .await form operand.rest)
    | _ => return none

/-- Let operators that bind at least as tightly as `least` take `left` as their first operand. -/
def extend : Nat → Nat → Climbed → Counted Climbed
  | 0, _, left => return left
  | fuel + 1, least, left =>
    match Climbed.skipTrivia left.rest with
    | (gap, .operation (.binary op) token :: rest) =>
      match op.binaryPrecedence? with
      | none => return left
      | some precedence =>
        if precedence < least then return left
        else do
          match ← climb fuel (op.rightPrecedence precedence) rest with
          | none => return left
          | some right =>
            let form := (.slot .left, left.token) :: Climbed.leafEntries .operator gap token
              ++ right.entries .right
            extend fuel least (← Climbed.assemble left.before .dualOperator form right.rest)
    | (gap, .operation .ternaryIf token :: rest) =>
      if OperatorKind.ternaryPrecedence < least then return left
      else do
        let opening (token : Tree) : List Entry :=
          (.slot .trueValue, left.token) :: Climbed.leafEntries .ifKeyword gap token
        match ← climb fuel (OperatorKind.ternaryPrecedence + 1) rest with
        | none =>
          let form := opening token.invalidated
          extend fuel least (← Climbed.assemble left.before .ternary form rest)
        | some condition =>
          let shown := condition.entries .condition
          match Climbed.skipTrivia condition.rest with
          | (gap, .operation .ternaryElse elseToken :: rest) =>
            match ← climb fuel OperatorKind.ternaryPrecedence rest with
            | none =>
              let form := opening token.invalidated ++ shown
                ++ Climbed.leafEntries .elseKeyword gap elseToken.invalidated
              extend fuel least (← Climbed.assemble left.before .ternary form rest)
            | some value =>
              let form := opening token ++ shown ++ Climbed.leafEntries .elseKeyword gap elseToken
                ++ value.entries .falseValue
              extend fuel least (← Climbed.assemble left.before .ternary form value.rest)
          | _ =>
            let form := opening token.invalidated ++ shown
            extend fuel least (← Climbed.assemble left.before .ternary form condition.rest)
    | _ => return left

end

/-- Fold the pieces of a whole expression. -/
def fold (pieces : List Piece) : Counted Delivery := do
  match ← climb (2 * pieces.length + 2) 0 pieces with
  | none => return { trailing := pieces.map Climbed.leftover }
  | some top =>
    return { leading := top.before, token := some top.token,
             trailing := top.rest.map Climbed.leftover }

end Counted

end ScriptTree
