import ScriptTree.Grammar.Expression

/-!
Reading groups: lists in brackets, patterns without brackets, and single expressions in brackets.
The last entry of a dictionary stays open while its value may follow, and takes up the trivia that
is read in the meantime.
-/

namespace ScriptTree.GroupReader

/-- The form with the open entry, if any, closed as an item. -/
def sealedForm (r : GroupReader) : List Entry :=
  match r.entry with
  | some entry => r.form ++ [(.item, .ofForm .keyValue entry)]
  | none => r.form

/-- Close the open entry. -/
def sealEntry (r : GroupReader) : GroupReader :=
  { r with form := r.sealedForm, entry := none }

/-- Add extras where the group is being read. -/
def pushExtras (r : GroupReader) (tokens : List Tree) : GroupReader :=
  match r.entry with
  | some entry => { r with entry := some (entry ++ Form.extras tokens) }
  | none => { r with form := r.form ++ Form.extras tokens }

/-- Whether an item can begin with `c`. -/
def canStartItem (r : GroupReader) (c : Char) : Bool :=
  match r.kind with
  | .parameters | .enumValues => Text.isWordStart c
  | _ => r.ctx.canStart c

/-- The state that reads an item or a value. -/
def itemReader (r : GroupReader) : Reader :=
  match r.kind with
  | .parameters => .sequence (.start .parameter r.ctx.level true)
  | .enumValues => .sequence (.start .enumValue r.ctx.level true)
  | _ => .expression { ctx := r.ctx }

/-- Place the one expression in brackets. -/
def placeInner (r : GroupReader) (token : Tree) : Except Misfit GroupReader := do
  let form ← Form.place r.kind.nodeKind .inner token r.form
  return { r with form, expected := .separator }

/-- Begin a dictionary entry with its key. -/
def placeKey (r : GroupReader) (token : Tree) : Except Misfit GroupReader := do
  r.kind.nodeKind.checkRole .item
  let entry ← Form.place .keyValue .key token []
  return { r.sealEntry with entry := some entry, expected := .separator }

/-- Place an element of a list. -/
def placeElement (r : GroupReader) (token : Tree) : Except Misfit GroupReader := do
  let form ← Form.addItem r.kind.nodeKind token r.form
  return { r with form, expected := .separator }

/-- Place an item. In a dictionary it is the key of a new entry. -/
def placeItem (r : GroupReader) (token : Tree) : Except Misfit GroupReader :=
  match r.kind with
  | .parenthesized | .subscript => r.placeInner token
  | .dictionary => r.placeKey token
  | _ => r.placeElement token

/-- Place the value of the open entry, which completes it. -/
def placeValue (r : GroupReader) (token : Tree) : Except Misfit GroupReader := do
  match r.entry with
  | some entry =>
    return { r with entry := some (← Form.place .keyValue .value token entry) }.sealEntry
  | none => return { r with form := ← Form.addItem r.kind.nodeKind token r.form }

/-- Place a token for which the group has no position. Without brackets it may belong to the
construct around the group. -/
def reject (r : GroupReader) (token : Tree) : GroupReader :=
  if r.kind.isBare && r.handback.isNone then { r with handback := some token, done := true }
  else r.pushExtras [token.invalidated]

/-- A character that does not close the group. -/
def onInnerChar (r : GroupReader) (c : Char) : Except Misfit (Reaction GroupReader) := do
  if c = ',' ∧ r.kind.isSingle = false then
    let r := r.sealEntry
    return ⟨{ r with form := r.form ++ [(.extra, .ofPunct .comma)], expected := .item },
      .accept, {}⟩
  else if c = ':' ∧ r.kind = .dictionary ∧ r.expected = .separator then
    match r.entry with
    | none => return ⟨r, .absorb, {}⟩
    | some entry =>
      let entry ← Form.place .keyValue .colon (.ofPunct .colon) entry
      return ⟨{ r with entry := some entry, expected := .value }, .accept, {}⟩
  else if r.expected = .item ∧ r.canStartItem c then
    return ⟨{ r with goal := .item }, .enter r.itemReader, {}⟩
  else if r.expected = .value ∧ r.ctx.canStart c then
    return ⟨{ r with goal := .value }, .enter r.itemReader, {}⟩
  else return ⟨r, if r.kind.isBare then .complete else .absorb, {}⟩

/-- A character that is not trivia. -/
def onChar (r : GroupReader) (c : Char) : Except Misfit (Reaction GroupReader) := do
  match r.kind.brackets?.map Prod.snd with
  | some closing =>
    if closing.startsWith c then
      let r := r.sealEntry
      let form ← Form.place r.kind.nodeKind .closing (.ofPunct closing) r.form
      return ⟨{ r with form }, .acceptAndComplete, {}⟩
    else r.onInnerChar c
  | none => r.onInnerChar c

/-- A signal that reaches the group itself. -/
def onSignal (r : GroupReader) (signal : Signal) : Except Misfit (Reaction GroupReader) := do
  if r.done then return ⟨r, .complete, {}⟩
  else if !r.opened then
    match r.kind.brackets? with
    | some (opening, _) =>
      let form ← Form.place r.kind.nodeKind .opening (.ofPunct opening) r.form
      return ⟨{ r with form, opened := true }, .accept, {}⟩
    | none => return ⟨{ r with opened := true }, .accept, {}⟩
  else
    match TriviaStart.at? (!r.kind.isBare) signal, signal with
    | some (.token t), _ => return ⟨r.pushExtras [t], .accept, {}⟩
    | some (.reader leaf), _ => return ⟨{ r with goal := .trivia }, .enter (.leaf leaf), {}⟩
    | none, .char c => r.onChar c
    | none, .endOfText => return ⟨r, .complete, { truncated := !r.kind.isBare }⟩
    | none, _ => return ⟨r, .complete, {}⟩

/-- The token that a state was opened for. -/
def onToken (r : GroupReader) (goal : GroupGoal) (token : Tree) : Except Misfit GroupReader := do
  if token.isTrivia || token.isInvalid then return r.pushExtras [token]
  else
    match goal with
    | .trivia => return r.pushExtras [token]
    | .item => r.placeItem token
    | .value => return { ← r.placeValue token with expected := .separator }

/-- A token that a state inside could not place: an assignment sign may stand between the key
and the value of an entry. -/
def onHandback (r : GroupReader) (token : Tree) : Except Misfit GroupReader := do
  match r.entry with
  | some entry =>
    if token.leafKind? = some (.operator .assign) ∧ r.expected = .separator then
      let entry ← Form.place .keyValue .assign token entry
      return { r with entry := some entry, expected := .value }
    else return r.reject token
  | none => return r.reject token

/-- The beginning of a line that ended a state inside. Inside brackets it is trivia. -/
def onLine (r : GroupReader) (line : LineStart) : GroupReader :=
  if r.kind.isBare then { r with line := some line, done := true }
  else r.pushExtras (line.indent.map (Tree.withLeafKind .space)).toList

/-- The token of a delivery, if there is one. -/
def onToken? (r : GroupReader) (goal : GroupGoal) : Option Tree → Except Misfit GroupReader
  | some token => r.onToken goal token
  | none => .ok r

/-- The token that a delivery hands on, if there is one. -/
def onHandback? (r : GroupReader) : Option Tree → Except Misfit GroupReader
  | some token => r.onHandback token
  | none => .ok r

/-- The beginning of a line that a delivery hands on, if there is one. -/
def onLine? (r : GroupReader) : Option LineStart → GroupReader
  | some line => r.onLine line
  | none => r

/-- A delivery from a state inside. -/
def onDelivery (r : GroupReader) (d : Delivery) : Except Misfit GroupReader := do
  let placed ← ({ r with goal := .trivia }.pushExtras d.leading).onToken? r.goal d.token
  let handed ← (placed.pushExtras d.trailing).onHandback? d.handback
  return handed.onLine? d.line

/-- What the group delivers when it ends. -/
def finish (r : GroupReader) : Delivery :=
  let (form, trailing) := Form.splitTrailing r.sealedForm
  { token := some (.ofForm r.kind.nodeKind form), trailing, handback := r.handback, line := r.line }

end ScriptTree.GroupReader
