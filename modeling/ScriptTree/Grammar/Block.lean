import ScriptTree.Config
import ScriptTree.Grammar.Branch
import ScriptTree.Grammar.Sequence

/-!
Reading blocks: one item to a line, or several with a separator between them. The indentation of
a line decides whether it belongs to the block. A line indented less ends the block, and the first
block around it that lies at or below that level goes on with the line. Blank lines and lines with
nothing but a comment never end a block.
-/

namespace ScriptTree.BlockReader

/-- The level at which items stand. -/
def itemLevel (r : BlockReader) : Nat :=
  match r.level, r.mode with
  | some level, _ => level
  | none, .indented parent => parent + 1
  | none, _ => 0

/-- How deep the current line is indented. -/
def measure (config : Config) (indent : Option Tree) : IndentLevel :=
  let text := (indent.bind Tree.leafText?).getD ""
  IndentLevel.ofChars config.indentationSize config.spacesAsIndentation text.toList

/-- Add extras. -/
def pushExtras (r : BlockReader) (tokens : List Tree) : BlockReader :=
  { r with form := r.form ++ Form.extras tokens }

/-- Open a state for a purpose. -/
def enter (r : BlockReader) (goal : BlockGoal) (inner : Reader) : Reaction BlockReader :=
  ⟨{ r with goal }, .enter inner, {}⟩

/-- Open a reader for trivia. -/
def enterTrivia (r : BlockReader) (leaf : LeafReader) : Reaction BlockReader :=
  r.enter .trivia (.leaf leaf)

/-- Take a line break or a similar character as trivia. -/
def takeExtra (r : BlockReader) (kind : LeafKind) (text : String) : Reaction BlockReader :=
  ⟨r.pushExtras [.ofText kind text], .accept, {}⟩

/-- Let the text up to the next character from which the grammar may go on lose its place. -/
def absorb (r : BlockReader) : Reaction BlockReader :=
  ⟨{ r with goal := .trivia }, .absorb, {}⟩

/-- Leave the signal to the construct around the block. -/
def complete (r : BlockReader) : Reaction BlockReader :=
  ⟨r, .complete, {}⟩

/-- Add trivia, which stays with a held `static` if there is one. -/
def placeTrivia (r : BlockReader) (tokens : List Tree) : BlockReader :=
  if r.held.isEmpty then r.pushExtras tokens else { r with held := r.held ++ tokens }

/-- A held token that no declaration took. -/
def releasedToken (token : Tree) : Tree :=
  if token.isTrivia then token else token.invalidated

/-- Give up on the held tokens. -/
def releaseHeld (r : BlockReader) : BlockReader :=
  { r with held := [] }.pushExtras (r.held.map releasedToken)

/-- Place the white space of the current line. -/
def placeIndent (r : BlockReader) (isInvalid : Bool) : BlockReader :=
  let tokens := (r.indent.map fun t => if isInvalid then t.invalidated else t).toList
  { r with indent := none }.pushExtras tokens

/-- End the block; the line that was begun belongs to a construct around it. -/
def dedent (r : BlockReader) (line : LineStart) : BlockReader :=
  { r with line := some line, done := true }

/-- What is noticed when the text ends: a block that never got a line might still get one. -/
def noticesAtEnd (r : BlockReader) : Notices :=
  match r.mode, r.level with
  | .indented _, none => { truncated := true }
  | _, _ => {}

/-- A signal on the rest of the line that announces the block. -/
def onHeader (r : BlockReader) (signal : Signal) : Reaction BlockReader :=
  match signal with
  | .newLine => { r with phase := .lineStart }.takeExtra .newLine "\n"
  | .carriageReturn => r.takeExtra .carriageReturn "\r"
  | .commentStart => r.enterTrivia (.comment "")
  | .endOfText => ⟨r, .complete, r.noticesAtEnd⟩
  | _ =>
    match TriviaStart.inline? signal with
    | some leaf => r.enterTrivia leaf
    | none => r.absorb

/-- A signal after the last item of a line. -/
def onAfterItem (r : BlockReader) (signal : Signal) : Reaction BlockReader :=
  match TriviaStart.inline? signal with
  | some leaf => r.enterTrivia leaf
  | none =>
    let separates := signal.toChar?.any r.kind.separator.startsWith
    if separates then
      ⟨{ r with phase := .itemStart }.pushExtras [.ofPunct r.kind.separator], .accept, {}⟩
    else if r.mode = .inline then r.complete
    else
      match signal with
      | .newLine => { r with phase := .lineStart }.takeExtra .newLine "\n"
      | .carriageReturn => r.takeExtra .carriageReturn "\r"
      | .commentStart => r.enterTrivia (.comment "")
      | .endOfText => r.complete
      | _ => r.absorb

/-- A character with which no item begins. -/
def onNoItem (r : BlockReader) : Reaction BlockReader :=
  let r := r.releaseHeld
  if r.mode = .inline then r.complete else r.absorb

/-- The kind of item that a character begins which begins no word. -/
def itemBegunBy? (r : BlockReader) (c : Char) : Option NodeKind :=
  match r.kind with
  | .members => if c = '@' ∧ r.extendsOnly = false then some .annotationUse else none
  | .statements =>
    if (Context.statement r.itemLevel).canStart c then some .expressionStatement else none
  | .matchCases =>
    if (Context.matchPattern r.itemLevel).canStart c then some .matchCase else none
  | .accessors => none

/-- A character where an item may begin. -/
def onItemChar (r : BlockReader) (c : Char) : Reaction BlockReader :=
  if r.kind ≠ .matchCases ∧ Text.isWordStart c then r.enter .word (.leaf (.word ""))
  else
    match r.itemBegunBy? c with
    | some kind => r.releaseHeld.enter .item (.sequence (.start kind r.itemLevel false))
    | none => r.onNoItem

/-- A signal where an item may begin. -/
def onItemStart (r : BlockReader) (signal : Signal) : Reaction BlockReader :=
  match TriviaStart.inline? signal, signal with
  | some leaf, _ => r.enterTrivia leaf
  | none, .char c => r.onItemChar c
  | none, _ =>
    let r := r.releaseHeld
    if r.mode = .inline then r.complete else { r with phase := .afterItem }.onAfterItem signal

/-- Place a line that belongs to the block. White space that is not exactly the block's own
indentation is text without a place. -/
def beginLine (r : BlockReader) (level : IndentLevel) : BlockReader :=
  let exact := level.units = r.itemLevel ∧ level.exact
  { r.placeIndent (!exact) with phase := .itemStart, extendsOnly := false }

/-- The current line holds content: find out by its indentation where it belongs. -/
def onContent (config : Config) (r : BlockReader) (signal : Signal) : Reaction BlockReader :=
  let level := measure config r.indent
  let ending : Reaction BlockReader :=
    ⟨{ r with indent := none }.dedent ⟨r.indent, level⟩, .complete, {}⟩
  let goOn (r : BlockReader) (notices : Notices) : Reaction BlockReader :=
    { (r.beginLine level).onItemStart signal with notices }
  match r.mode, r.level with
  | .indented parent, none =>
    if level.units ≤ parent then ending else goOn { r with level := some level.units } {}
  | .indented _, some own => if level.units < own then ending else goOn r {}
  | .single, _ => goOn r { escaped := level.units < r.itemLevel }
  | _, _ => goOn r {}

/-- A signal after the white space of a line. -/
def onAfterIndent (config : Config) (r : BlockReader) (signal : Signal) :
    Reaction BlockReader :=
  match signal with
  | .newLine => { r.placeIndent false with phase := .lineStart }.takeExtra .newLine "\n"
  | .carriageReturn => (r.placeIndent false).takeExtra .carriageReturn "\r"
  | .commentStart => (r.placeIndent false).enterTrivia (.comment "")
  | .endOfText => ⟨r.placeIndent false, .complete, r.noticesAtEnd⟩
  | _ => onContent config r signal

/-- A signal at the beginning of a line. -/
def onLineStart (config : Config) (r : BlockReader) (signal : Signal) : Reaction BlockReader :=
  let content := onAfterIndent config { r with phase := .afterIndent } signal
  match signal with
  | .char c =>
    if Text.isInlineSpace c then r.enter .indent (.leaf (.blank .indentation "")) else content
  | _ => content

/-- A signal that reaches the block itself. -/
def onSignal (config : Config) (r : BlockReader) (signal : Signal) : Reaction BlockReader :=
  if r.done then r.complete
  else
    match r.phase with
    | .header => r.onHeader signal
    | .lineStart => onLineStart config r signal
    | .afterIndent => onAfterIndent config r signal
    | .itemStart => r.onItemStart signal
    | .afterItem => r.onAfterItem signal

/-- The kind of class member that a reserved word begins. -/
def memberBegunBy? : Keyword → Option NodeKind
  | .varKw => some .memberVariable
  | .funcKw => some .method
  | .constKw => some .constant
  | .signalKw => some .signal
  | .enumKw => some .enum
  | .classKw => some .innerClass
  | .classNameKw => some .classNameClause
  | .extendsKw => some .extendsClause
  | _ => none

/-- The kind of statement that a reserved word begins. -/
def statementBegunBy? : Keyword → Option NodeKind
  | .ifKw => some .ifStatement
  | .forKw => some .forStatement
  | .whileKw => some .whileStatement
  | .matchKw => some .matchStatement
  | .returnKw => some .returnStatement
  | .passKw => some .passStatement
  | .breakKw => some .breakStatement
  | .continueKw => some .continueStatement
  | .breakpointKw => some .breakpointStatement
  | .varKw => some .variableDeclaration
  | .constKw => some .constant
  | _ => none

/-- The kind of item that a word begins. -/
def itemOfWord? (r : BlockReader) (word : Tree) : Option NodeKind :=
  match r.kind, word.keyword? with
  | .members, some kw => memberBegunBy? kw
  | .statements, kw? =>
    (kw?.bind statementBegunBy?).or
      (if (Context.statement r.itemLevel).canStartWith word then some .expressionStatement
        else none)
  | .accessors, none =>
    match word.leafText? with
    | some "get" => some .getAccessor
    | some "set" => some .setAccessor
    | _ => none
  | _, _ => none

/-- A word that begins nothing here: the rest of its line has no place either. -/
def rejectWord (r : BlockReader) (word : Tree) : BlockReader :=
  { r.releaseHeld.pushExtras [word.invalidated] with phase := .afterItem }

/-- Take one more token into a new item. -/
def seedNext (receipt : Receipt SequenceReader) (token : Tree) :
    Except Misfit (Receipt SequenceReader) := do
  let seeded ← receipt.state.seed token
  return { seeded with opened := receipt.opened ++ seeded.opened }

/-- Take the held tokens and a word into a new item. -/
def seedItem (item : SequenceReader) (tokens : List Tree) :
    Except Misfit (Receipt SequenceReader) :=
  tokens.foldlM seedNext { state := item }

/-- Begin an item with a word that was read already, and with the held tokens if the item is of
a kind that takes them. -/
def beginItem (r : BlockReader) (kind : NodeKind) (word : Tree) :
    Except Misfit (Receipt BlockReader) := do
  let r := if kind = .memberVariable ∨ kind = .method then r else r.releaseHeld
  let item ← seedItem (.start kind r.itemLevel false) (r.held ++ [word])
  return {
    state := { r with held := [], goal := .item }
    opened := .sequence item.state :: item.opened }

/-- Begin a further branch of the `if` that ends the block. The lines between the two belong to
the `if`. -/
def beginBranch (r : BlockReader) (kind : NodeKind) (word : Tree) :
    Except Misfit (Receipt BlockReader) := do
  let (kept, trailing) := Form.splitTrailing r.form
  match Branch.updateLast? (· ++ Form.extras trailing) kept with
  | none => return { state := r.rejectWord word }
  | some form =>
    let branch ← SequenceReader.seed (.start kind r.itemLevel false) word
    return {
      state := { r with form, goal := .branch }
      opened := .sequence branch.state :: branch.opened }

/-- The first word of an item. -/
def onWord (r : BlockReader) (word : Tree) : Except Misfit (Receipt BlockReader) := do
  let keyword := word.keyword?
  if r.extendsOnly && keyword != some .extendsKw then return { state := r.rejectWord word }
  else if r.kind = .members ∧ keyword = some .staticKw then
    let word := if r.held.isEmpty then word else word.invalidated
    return { state := { r with held := r.held ++ [word] } }
  else if r.kind = .statements ∧ keyword = some .elifKw then r.beginBranch .ifStatement word
  else if r.kind = .statements ∧ keyword = some .elseKw then r.beginBranch .elseBranch word
  else
    match r.itemOfWord? word with
    | some kind => r.beginItem kind word
    | none => return { state := r.rejectWord word }

/-- A complete item. An annotation or a class name may be followed by more on its line. -/
def onItem (r : BlockReader) (item : Tree) : Except Misfit BlockReader := do
  let r := { r with form := ← Form.addItem r.kind.nodeKind item r.form }
  match item.nodeKind? with
  | some .annotationUse => return { r with phase := .itemStart }
  | some .classNameClause => return { r with phase := .itemStart, extendsOnly := true }
  | _ => return { r with phase := .afterItem }

/-- A complete branch of the `if` that ends the block. -/
def onBranch (r : BlockReader) (branch : Tree) : Except Misfit BlockReader := do
  NodeKind.ifStatement.checkRole (.slot .elseBranch)
  let form := Branch.updateLast? (Form.setSlot .ifStatement .elseBranch branch) r.form
  return { r with form := form.getD (r.form ++ Form.extras [branch]), phase := .afterItem }

/-- The token that a state was opened for. -/
def onToken (r : BlockReader) (goal : BlockGoal) (token : Tree) :
    Except Misfit (Receipt BlockReader) := do
  if goal = .indent ∧ token.isTrivia then
    return { state := { r with indent := some token, phase := .afterIndent } }
  else if token.isTrivia || token.isInvalid then return { state := r.placeTrivia [token] }
  else
    match goal with
    | .trivia | .indent => return { state := r.placeTrivia [token] }
    | .word => r.onWord token
    | .item => return { state := ← r.onItem token }
    | .branch => return { state := ← r.onBranch token }

/-- The beginning of a line that ended an item. -/
def onLine (r : BlockReader) (line : LineStart) : Receipt BlockReader :=
  let below := line.level.units < r.itemLevel
  let goOn := { r with indent := line.indent }.beginLine line.level
  match r.mode with
  | .inline => { state := r.dedent line }
  | .indented _ => { state := if below then r.dedent line else goOn }
  | .single => { state := goOn, notices := { escaped := below } }
  | .root => { state := goOn }

/-- The token of a delivery, if there is one. -/
def onToken? (r : BlockReader) (goal : BlockGoal) :
    Option Tree → Except Misfit (Receipt BlockReader)
  | some token => r.onToken goal token
  | none => .ok { state := r }

/-- A token that a delivery hands on has no place in a block. -/
def onHandback? (r : BlockReader) : Option Tree → BlockReader
  | some token => { r.pushExtras [token.invalidated] with phase := .afterItem }
  | none => r

/-- The beginning of a line that a delivery hands on, if there is one. -/
def onLine? (r : BlockReader) : Option LineStart → Receipt BlockReader
  | some line => r.onLine line
  | none => { state := r }

/-- A delivery from a state inside. -/
def onDelivery (r : BlockReader) (d : Delivery) : Except Misfit (Receipt BlockReader) := do
  let placed ← ({ r with goal := .trivia }.placeTrivia d.leading).onToken? r.goal d.token
  let handed := (placed.state.pushExtras d.trailing).onHandback? d.handback
  return { handed.onLine? d.line with opened := placed.opened }

/-- What the block delivers when it ends. -/
def finish (r : BlockReader) : Delivery :=
  let r := r.releaseHeld
  let r := if r.line.isNone then r.placeIndent false else r
  let (form, trailing) := Form.splitTrailing r.form
  { token := some (.ofForm r.kind.nodeKind form), trailing, line := r.line }

end ScriptTree.BlockReader
