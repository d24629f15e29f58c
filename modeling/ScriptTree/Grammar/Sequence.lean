import ScriptTree.Grammar.Group

/-!
Reading productions with a fixed order of parts. Every part may be missing: input that fits none
of the remaining parts ends the production and is left to the construct around it.
-/

namespace ScriptTree

namespace BlockReader

/-- A block of which nothing was read yet. -/
def start (kind : BlockKind) (mode : BlockMode) (level : Option Nat) (phase : BlockPhase) :
    BlockReader :=
  { kind, mode, level, phase }

/-- The block that makes up a whole text. -/
def atRoot (kind : BlockKind) : BlockReader := start kind .root (some 0) .lineStart

/-- A block on the lines after the one that announces it. -/
def onLinesAfter (kind : BlockKind) (parent : Nat) : BlockReader :=
  start kind (.indented parent) none .header

/-- A block on the line that announces it. -/
def onSameLine (kind : BlockKind) (level : Nat) : BlockReader :=
  start kind .inline (some level) .itemStart

/-- A block of a single item with which the text begins, at a known level. -/
def ofSingleItem (kind : BlockKind) (level : Nat) : BlockReader :=
  start kind .single (some level) .itemStart

end BlockReader

namespace SequenceReader

/-- Where an expression of the production stands. -/
def context (r : SequenceReader) (role : ExpressionRole) : Context :=
  let ctx := match role with
    | .value => Context.value r.level
    | .statement => Context.statement r.level
    | .typeName => Context.typeName r.level
  if r.brackets then ctx.bracketed else ctx

/-- Whether the part that `part` depends on is there. -/
def requirementMet (r : SequenceReader) (part : Part) : Bool :=
  part.requires.all fun slot => Form.isFilled slot r.form

/-- Whether a token fills a part as it is. -/
def fills (token : Tree) : Shape → Bool
  | .keyword words => token.keyword?.any words.contains
  | .contextual text => token.leafKind? == some .identifier && token.leafText? == some text
  | .name => token.leafKind? == some .identifier
  | .punct mark => token.leafKind? == some (.punct mark)
  | .operator op => token.leafKind? == some (.operator op)
  | .expression _ | .group _ | .block _ => false

/-- Put a token into the first of the given parts that takes it: either the token fills the
part, or it is the first word of an expression that does. -/
def offer? (r : SequenceReader) (token : Tree) :
    List Part → Except Misfit (Option (Receipt SequenceReader))
  | [] => .ok none
  | part :: rest =>
    if !r.requirementMet part then r.offer? token rest
    else if fills token part.shape then do
      let form ← Form.place r.kind part.slot token r.form
      return some { state := { r with form, remaining := rest } }
    else
      match part.shape with
      | .expression role =>
        if (r.context role).canStartWith token then do
          let seeded ← ExpressionReader.seeded (r.context role) token
          return some {
            state := { r with active := some (part, rest), remaining := part :: rest }
            opened := .expression seeded.state :: seeded.opened }
        else r.offer? token rest
      | _ => r.offer? token rest

/-- Add extras. -/
def pushExtras (r : SequenceReader) (tokens : List Tree) : SequenceReader :=
  { r with form := r.form ++ Form.extras tokens }

/-- Take a token that was read before this production was chosen. -/
def seed (r : SequenceReader) (token : Tree) : Except Misfit (Receipt SequenceReader) := do
  if token.isTrivia then return { state := r.pushExtras [token] }
  else return (← r.offer? token r.remaining).getD { state := r.pushExtras [token.invalidated] }

/-- Whether a part of the given shape can begin with a signal. Only a block can begin with the
end of a line. -/
def canStart (r : SequenceReader) (shape : Shape) (signal : Signal) : Bool :=
  match signal, shape with
  | .char c, .keyword _ | .char c, .contextual _ | .char c, .name => Text.isWordStart c
  | .char c, .punct mark => mark.startsWith c
  | .char c, .operator op => op.startsWith c
  | .char c, .expression role => (r.context role).canStart c
  | .char c, .group .patterns => (Context.matchPattern r.level).canStart c
  | .char c, .group kind => kind.opensWith c
  | .endOfText, _ => false
  | _, .block _ => true
  | _, _ => false

/-- The first of the given parts that can begin with a signal, and the parts after it. -/
def startable? (r : SequenceReader) (signal : Signal) : List Part → Option (Part × List Part)
  | [] => none
  | part :: rest =>
    if r.requirementMet part && r.canStart part.shape signal then some (part, rest)
    else r.startable? signal rest

/-- The state that reads a part, unless the part is a punctuation mark. -/
def partReader? (r : SequenceReader) (shape : Shape) (signal : Signal) : Option Reader :=
  match shape with
  | .keyword _ | .contextual _ | .name => some (.leaf (.word ""))
  | .operator _ => some (.leaf (.operator ""))
  | .punct _ => none
  | .expression role => some (.expression { ctx := r.context role })
  | .group .patterns => some (.group (.start .patterns (Context.matchPattern r.level)))
  | .group kind => some (.group (.start kind (Context.value r.level).bracketed))
  | .block kind =>
    match signal with
    | .char _ => some (.block (.onSameLine kind r.level))
    | _ => some (.block (.onLinesAfter kind r.level))

/-- Begin a part. -/
def startPart (r : SequenceReader) (part : Part) (rest : List Part) (signal : Signal) :
    Except Misfit (Reaction SequenceReader) := do
  match part.shape with
  | .punct mark =>
    let form ← Form.place r.kind part.slot (.ofPunct mark) r.form
    return ⟨{ r with active := none, form, remaining := rest }, .accept, {}⟩
  | shape =>
    match r.partReader? shape signal with
    | some reader => return ⟨{ r with active := some (part, rest) }, .enter reader, {}⟩
    | none => return ⟨r, .complete, {}⟩

/-- Whether a block was announced but never began. -/
def isBodyMissing (r : SequenceReader) : Bool :=
  (Production.parts r.kind).any fun part =>
    match part.shape with
    | .block _ => r.requirementMet part && !Form.isFilled part.slot r.form
    | _ => false

/-- Where a line ends after the colon of a variable, the colon announces accessors and not a
type. -/
def retargetColon (r : SequenceReader) : Except Misfit SequenceReader := do
  let blocked := [Slot.type, Slot.assign, Slot.accessorColon].any fun slot =>
    Form.isFilled slot r.form
  match Form.occupant? .typeColon r.form with
  | none => return r
  | some colon =>
    if blocked then return r
    else
      let (kept, trailing) := Form.splitTrailing r.form
      let kept := kept.filter fun entry => entry.1 != .slot .typeColon
      return { r with
        form := (← Form.place r.kind .accessorColon colon kept) ++ Form.extras trailing
        remaining := (Production.parts r.kind).dropWhile fun part => part.slot != .accessors }

/-- End the production before a token that belongs to a construct around it. Only the last such
token is handed on. -/
def handBack (r : SequenceReader) (token : Tree) : SequenceReader :=
  let r := match r.handback with
    | some earlier => r.pushExtras [earlier.invalidated]
    | none => r
  { r with handback := some token, done := true }

/-- The production where a signal may begin one of its parts. -/
def beforePart (r : SequenceReader) (signal : Signal) : Except Misfit SequenceReader :=
  if signal.endsLine ∧ r.kind = .memberVariable then r.retargetColon else .ok r

/-- A signal that reaches the production itself. -/
def onSignal (r : SequenceReader) (signal : Signal) : Except Misfit (Reaction SequenceReader) := do
  if r.done then return ⟨r, .complete, {}⟩
  else
    match TriviaStart.inline? signal with
    | some leaf => return ⟨{ r with active := none }, .enter (.leaf leaf), {}⟩
    | none =>
      match signal with
      | .endOfText => return ⟨r, .complete, { truncated := r.isBodyMissing }⟩
      | _ =>
        let r ← r.beforePart signal
        match r.startable? signal r.remaining with
        | some (part, rest) => r.startPart part rest signal
        | none => return ⟨r, .complete, {}⟩

/-- The token that a state was opened for. -/
def onToken (r : SequenceReader) (active : Option (Part × List Part)) (token : Tree) :
    Except Misfit (Receipt SequenceReader) := do
  if token.isTrivia || token.isInvalid then return { state := r.pushExtras [token] }
  else
    match active with
    | none => return { state := r.pushExtras [token] }
    | some (part, rest) =>
      if part.shape.isLeaf then
        return (← r.offer? token (part :: rest)).getD { state := r.handBack token }
      else
        let form ← Form.place r.kind part.slot token r.form
        return { state := { r with form, remaining := rest } }

/-- A token that a state inside read but could not place. -/
def onHandback (r : SequenceReader) (token : Tree) : Except Misfit (Receipt SequenceReader) := do
  if r.done then return { state := r.handBack token }
  else return (← r.offer? token r.remaining).getD { state := r.handBack token }

/-- The token of a delivery, if there is one. A part for which nothing was read is not tried
again. -/
def onToken? (r : SequenceReader) (active : Option (Part × List Part)) :
    Option Tree → Except Misfit (Receipt SequenceReader)
  | some token => r.onToken active token
  | none =>
    match active with
    | some (_, rest) => .ok { state := { r with remaining := rest } }
    | none => .ok { state := r }

/-- The token that a delivery hands on, if there is one. -/
def onHandback? (r : SequenceReader) : Option Tree → Except Misfit (Receipt SequenceReader)
  | some token => r.onHandback token
  | none => .ok { state := r }

/-- The beginning of a line ends the production. -/
def onLine? (r : SequenceReader) : Option LineStart → SequenceReader
  | some line => { r with line := some line, done := true }
  | none => r

/-- A delivery from a state inside. -/
def onDelivery (r : SequenceReader) (d : Delivery) : Except Misfit (Receipt SequenceReader) := do
  let first ← ({ r with active := none }.pushExtras d.leading).onToken? r.active d.token
  let second ← (first.state.pushExtras d.trailing).onHandback? d.handback
  return { state := second.state.onLine? d.line, opened := first.opened ++ second.opened }

/-- What the production delivers when it ends. -/
def finish (r : SequenceReader) : Delivery :=
  let (form, trailing) := Form.splitTrailing r.form
  { token := some (.ofForm r.kind form), trailing, handback := r.handback, line := r.line }

end SequenceReader

end ScriptTree
