import ScriptTree.Grammar.Expression

/-!
Reading an expression on its own. It is read as if inside brackets, so that it may span lines, and
whatever follows it has no place.
-/

namespace ScriptTree.RootReader

/-- Add extras. -/
def pushExtras (r : RootReader) (tokens : List Tree) : RootReader :=
  { r with form := r.form ++ Form.extras tokens }

/-- A signal that reaches the root itself. -/
def onSignal (r : RootReader) (signal : Signal) : Reaction RootReader :=
  match TriviaStart.bracketed? signal, signal with
  | some (.token t), _ => ⟨r.pushExtras [t], .accept, {}⟩
  | some (.reader leaf), _ => ⟨r, .enter (.leaf leaf), {}⟩
  | none, .endOfText => ⟨r, .complete, {}⟩
  | none, .char c =>
    if !r.begun && Context.standalone.canStart c then
      ⟨{ r with begun := true }, .enter (.expression { ctx := .standalone }), {}⟩
    else ⟨r, .absorb, {}⟩
  | none, _ => ⟨r, .absorb, {}⟩

/-- Place the expression, or trivia and text without a place. -/
def onToken (r : RootReader) (token : Tree) : Except Misfit RootReader := do
  if token.isTrivia || token.isInvalid || Form.isFilled .expression r.form then
    return r.pushExtras [token]
  else return { r with form := ← Form.place .expressionStatement .expression token r.form }

/-- The token of a delivery, if there is one. -/
def onToken? (r : RootReader) : Option Tree → Except Misfit RootReader
  | some token => r.onToken token
  | none => .ok r

/-- A delivery from a state inside. -/
def onDelivery (r : RootReader) (d : Delivery) : Except Misfit RootReader := do
  let placed ← (r.pushExtras d.leading).onToken? d.token
  let handed := (placed.pushExtras d.trailing).pushExtras (d.handback.map Tree.invalidated).toList
  return handed.pushExtras (d.line.bind LineStart.indent).toList

/-- What the root delivers when it ends. -/
def finish (r : RootReader) : Delivery :=
  { token := some (.ofForm .expressionStatement r.form) }

end ScriptTree.RootReader
