import ScriptTree.Grammar.Block
import ScriptTree.Proofs.Branches

/-!
# Blocks keep the text

A block holds back a `static` and the white space of a line until it is known what they belong to.
Whatever it does with a signal, it places what it held back before anything that comes later.
-/

namespace ScriptTree

namespace BlockReader

/-- A block that goes on, with the white space of its line placed. -/
structure Placed (r : BlockReader) : Prop extends r.Rests where
  going : r.line = none
  placed : r.indent = none

theorem Hosts.toPlaced {r : BlockReader} {layer : Layer} (h : r.Hosts layer) : r.Placed :=
  ⟨h.toRests, h.going, h.placed⟩

theorem Placed.text_eq {r : BlockReader} (h : r.Placed) :
    r.text = Tree.textOfForm r.form ++ Tree.textOfTokens r.held := by
  simp [text, h.going, h.placed]

/-- What a block was opened for does not matter to a block at rest. -/
theorem Placed.setGoal {r : BlockReader} (h : r.Placed) (goal : BlockGoal) :
    ({ r with goal } : BlockReader).Placed :=
  ⟨{ h.toRests with }, h.going, h.placed⟩

/-- A block that holds nothing back may go on anywhere in its line. -/
theorem Placed.setPhase {r : BlockReader} (h : r.Placed) (hheld : r.held = [])
    (phase : BlockPhase) : ({ r with phase } : BlockReader).Placed :=
  ⟨{ h.toRests with
      held := fun hne => absurd hheld hne
      indent := fun hne => absurd h.placed hne }, h.going, h.placed⟩

/-- Extras keep the invariant. -/
theorem Rests.pushExtras {r : BlockReader} (h : r.Rests) (tokens : List Tree) :
    (r.pushExtras tokens).Rests := by
  refine { h with form := fun entry hentry => ?_ }
  rcases List.mem_append.1 hentry with hentry | hentry
  · exact h.form entry hentry
  · exact .inl (Form.role_of_mem_extras hentry)

theorem Placed.pushExtras {r : BlockReader} (h : r.Placed) (tokens : List Tree) :
    (r.pushExtras tokens).Placed :=
  ⟨h.toRests.pushExtras tokens, h.going, h.placed⟩

/-- Extras come last, unless something is held back. -/
theorem Placed.text_pushExtras {r : BlockReader} (h : r.Placed) (hheld : r.held = [])
    (tokens : List Tree) : (r.pushExtras tokens).text = r.text ++ Tree.textOfTokens tokens := by
  have hheld' : (r.pushExtras tokens).held = [] := hheld
  rw [(h.pushExtras tokens).text_eq, h.text_eq, hheld, hheld']
  simp [BlockReader.pushExtras]

/-- Giving up on a token keeps its text. -/
theorem text_releasedToken (token : Tree) : (releasedToken token).text = token.text := by
  rw [releasedToken]
  split
  · rfl
  · exact Tree.text_invalidated token

/-- A block that gives up on what it held back goes on without it. -/
theorem Placed.releaseHeld {r : BlockReader} (h : r.Placed) : r.releaseHeld.Placed := by
  have hcleared : ({ r with held := [] } : BlockReader).Placed :=
    ⟨{ h.toRests with
        held := fun hne => absurd rfl hne
        tokens := nofun
        line := fun hne => absurd h.going hne }, h.going, h.placed⟩
  exact hcleared.pushExtras _

theorem Placed.text_releaseHeld {r : BlockReader} (h : r.Placed) :
    r.releaseHeld.text = r.text := by
  have htokens := Tree.textOfTokens_map_of_text text_releasedToken r.held
  rw [h.releaseHeld.text_eq, h.text_eq]
  simp [BlockReader.releaseHeld, BlockReader.pushExtras, htokens]

/-- Trivia stay with what is held back. -/
theorem Placed.placeTrivia {r : BlockReader} (h : r.Placed) {tokens : List Tree}
    (htokens : r.held = [] ∨ ∀ t ∈ tokens, (t.isTrivia || t.isInvalid) = true) :
    (r.placeTrivia tokens).Placed := by
  rw [BlockReader.placeTrivia]
  split
  · exact h.pushExtras tokens
  · rename_i hheld
    have hne : r.held ≠ [] := by simpa using hheld
    refine ⟨{ h.toRests with
      held := fun _ => h.held hne
      tokens := fun t ht => ?_
      line := fun hline => absurd h.going hline }, h.going, h.placed⟩
    rcases List.mem_append.1 ht with ht | ht
    · exact h.tokens t ht
    · have htrivia := htokens.resolve_left hne t ht
      rw [Bool.or_eq_true] at htrivia
      rcases htrivia with htrivia | hinvalid
      · exact .inl htrivia
      · exact .inr (.inl hinvalid)

theorem Placed.text_placeTrivia {r : BlockReader} (h : r.Placed) (tokens : List Tree) :
    (r.placeTrivia tokens).text = r.text ++ Tree.textOfTokens tokens := by
  rw [BlockReader.placeTrivia]
  split
  · rename_i hheld
    exact h.text_pushExtras (by simpa using hheld) tokens
  · rw [h.text_eq]
    simp [text, h.going, h.placed, String.append_assoc]

/-- Placing the white space of a line keeps the text. -/
theorem Rests.placeIndent {r : BlockReader} (h : r.Rests) (hline : r.line = none)
    (isInvalid : Bool) : (r.placeIndent isInvalid).Placed := by
  have hcleared : ({ r with indent := none } : BlockReader).Placed :=
    ⟨{ h with
        indent := fun hne => absurd rfl hne
        line := fun hne => absurd hline hne }, hline, rfl⟩
  exact hcleared.pushExtras _

theorem Rests.text_placeIndent {r : BlockReader} (h : r.Rests) (hline : r.line = none)
    (hheld : r.held = []) (isInvalid : Bool) : (r.placeIndent isInvalid).text = r.text := by
  have htext (t : Tree) : (if isInvalid then t.invalidated else t).text = t.text := by
    split
    · exact Tree.text_invalidated t
    · rfl
  rw [(h.placeIndent hline isInvalid).text_eq, text, hline]
  cases hindent : r.indent <;>
    simp [BlockReader.placeIndent, BlockReader.pushExtras, hindent, hheld, htext]

/-! ### Signals -/

section Signals

variable {config : Config} {signal : Signal}

/-- What a block makes of a signal. -/
abbrev Reacts (config : Config) (signal : Signal) (r : BlockReader)
    (reaction : Reaction BlockReader) : Prop :=
  Reader.Reacts config signal 4 (.block r) (reaction.map .block)

/-- A block may change before it sees the signal, as long as it keeps its text. -/
theorem Reacts.from {r r' : BlockReader} {reaction : Reaction BlockReader}
    (h : r'.Reacts config signal reaction) (hmode : r'.mode = r.mode) (htext : r'.text = r.text) :
    r.Reacts config signal reaction :=
  Reader.Reacts.of_text h (congrArg Layer.block hmode) htext (Nat.le_refl _) (Nat.le_refl _)

/-- A block may first give up on what it held back. -/
theorem Placed.reacts_release {r : BlockReader} (h : r.Placed) {reaction : Reaction BlockReader}
    (hreacts : r.releaseHeld.Reacts config signal reaction) : r.Reacts config signal reaction :=
  hreacts.from rfl h.text_releaseHeld

/-- What a reaction notices does not matter. -/
theorem Reacts.withNotices {r : BlockReader} {reaction : Reaction BlockReader}
    (h : r.Reacts config signal reaction) (notices : Notices) :
    r.Reacts config signal { reaction with notices } := by
  cases h with
  | taken h hchar => exact .taken ⟨h.layer_eq, h.step⟩ hchar
  | left h => exact .left ⟨h.layer_eq, h.step_eq, h.ends, h.text_eq, h.credit_le⟩
  | detoured inner h hchar =>
    exact .detoured inner
      ⟨h.layer_eq, h.step_eq, h.hosts, h.rests, h.text_eq, h.cost_lt, h.not_leaf⟩ hchar

/-- A block may always leave a signal to others. -/
theorem Rests.reacts_complete {r : BlockReader} (h : r.Rests) (notices : Notices) :
    r.Reacts config signal ⟨r, .complete, notices⟩ :=
  .left ⟨rfl, rfl, h, rfl, Nat.le_refl _⟩

/-- A block may open a state that begins with the signal. -/
theorem Placed.reacts_enter {r : BlockReader} (h : r.Placed) {goal : BlockGoal} {inner : Reader}
    (hgoal : ({ r with goal } : BlockReader).GoalFits inner.layer) (htext : inner.text = "")
    (htakes : Reader.Takes config signal 4 inner) (hchar : signal.toChar?.isSome) :
    r.Reacts config signal (r.enter goal inner) := by
  have hplaced := h.setGoal goal
  refine .taken ⟨rfl, ⟨hplaced.toRests, hplaced.going, hplaced.placed, hgoal⟩, ?_, htakes⟩ hchar
  rw [htext, String.append_empty]
  rfl

/-- A block may read trivia. -/
theorem Placed.reacts_enterTrivia {r : BlockReader} (h : r.Placed) {leaf : LeafReader}
    (hbegins : leaf.Begins signal) (hlayer : leaf.layer.isTrivia)
    (hchar : signal.toChar?.isSome) : r.Reacts config signal (r.enterTrivia leaf) :=
  h.reacts_enter hlayer hbegins.text_eq ((Reader.takes_leaf hbegins).mono (by omega)) hchar

/-- A block may take a character as an extra, unless it holds something back. -/
theorem Placed.reacts_takeExtra {r : BlockReader} (h : r.Placed) (hheld : r.held = [])
    (kind : LeafKind) {text : String} (htext : text = signal.text)
    (hchar : signal.toChar?.isSome) : r.Reacts config signal (r.takeExtra kind text) := by
  refine .taken ⟨rfl, (h.pushExtras _).toRests, ?_⟩ hchar
  simp [Reaction.map, takeExtra, h.text_pushExtras hheld, htext]

/-- A block may let a character lose its place. -/
theorem Placed.reacts_absorb {r : BlockReader} (h : r.Placed) (hchar : signal.toChar?.isSome) :
    r.Reacts config signal r.absorb := by
  have hplaced := h.setGoal .trivia
  exact .taken ⟨rfl, ⟨hplaced.toRests, hplaced.going, hplaced.placed, rfl⟩, rfl⟩ hchar

/-- Trivia inside a line are read by a reader of trivia. -/
theorem layer_of_inline? {leaf : LeafReader} (h : TriviaStart.inline? signal = some leaf) :
    leaf.layer.isTrivia := by
  cases signal with
  | char c =>
    simp only [TriviaStart.inline?] at h
    split at h <;> cases h
    rfl
  | escape =>
    cases h
    rfl
  | _ => cases h

/-- A block reads the trivia that a signal begins. -/
theorem Placed.reacts_inline {r : BlockReader} (h : r.Placed) {leaf : LeafReader}
    (hinline : TriviaStart.inline? signal = some leaf) :
    r.Reacts config signal (r.enterTrivia leaf) := by
  obtain ⟨hbegins, hchar⟩ := TriviaStart.begins_of_inline? hinline
  exact h.reacts_enterTrivia hbegins (layer_of_inline? hinline) hchar

/-- A block reads a comment. -/
theorem Placed.reacts_comment {r : BlockReader} (h : r.Placed) :
    r.Reacts config .commentStart (r.enterTrivia (.comment "")) :=
  h.reacts_enterTrivia LeafReader.begins_comment rfl rfl

/-- A block takes a line break and is then at the beginning of a line. -/
theorem Placed.reacts_newLine {r : BlockReader} (h : r.Placed) (hheld : r.held = []) :
    r.Reacts config .newLine ({ r with phase := .lineStart }.takeExtra .newLine "\n") :=
  ((h.setPhase hheld .lineStart).reacts_takeExtra hheld .newLine rfl rfl).from rfl rfl

/-- A block takes a carriage return. -/
theorem Placed.reacts_carriageReturn {r : BlockReader} (h : r.Placed) (hheld : r.held = []) :
    r.Reacts config .carriageReturn (r.takeExtra .carriageReturn "\r") :=
  h.reacts_takeExtra hheld .carriageReturn rfl rfl

/-- What a block makes of the rest of the line that announces it. -/
theorem reacts_onHeader {r : BlockReader} (h : r.Placed) (hheld : r.held = []) :
    r.Reacts config signal (r.onHeader signal) := by
  unfold onHeader
  split
  · exact h.reacts_newLine hheld
  · exact h.reacts_carriageReturn hheld
  · exact h.reacts_comment
  · exact h.toRests.reacts_complete _
  · rename_i hend
    split
    · rename_i leaf hinline
      exact h.reacts_inline hinline
    · refine h.reacts_absorb ?_
      cases signal with
      | endOfText => exact absurd rfl hend
      | _ => rfl

/-- What a block makes of a signal after an item. -/
theorem reacts_onAfterItem {r : BlockReader} (h : r.Placed) (hheld : r.held = []) :
    r.Reacts config signal (r.onAfterItem signal) := by
  unfold onAfterItem
  split
  · rename_i leaf hinline
    exact h.reacts_inline hinline
  · dsimp only
    split
    · rename_i hseparates
      obtain ⟨c, hc, hstarts⟩ := (Option.any_eq_true _ _).1 hseparates
      have hsingle : r.kind.separator ≠ .doubleDot := by cases r.kind <;> decide
      have hspelling := Punct.spelling_of_startsWith hstarts hsingle
      have hplaced := h.setPhase hheld .itemStart
      refine .taken ⟨rfl, (hplaced.pushExtras _).toRests, ?_⟩ (by rw [hc]; rfl)
      have htext := hplaced.text_pushExtras hheld [.ofPunct r.kind.separator]
      have hsame : ({ r with phase := .itemStart } : BlockReader).text = r.text := rfl
      simp [Reaction.map, htext, hsame, hspelling, Signal.text, hc]
    · split
      · exact h.toRests.reacts_complete _
      · split
        · exact h.reacts_newLine hheld
        · exact h.reacts_carriageReturn hheld
        · exact h.reacts_comment
        · exact h.toRests.reacts_complete _
        · rename_i hend
          refine h.reacts_absorb ?_
          cases signal with
          | endOfText => exact absurd rfl hend
          | _ => rfl

/-- What a block makes of a character with which no item begins. -/
theorem reacts_onNoItem {r : BlockReader} (h : r.Placed) (hchar : signal.toChar?.isSome) :
    r.Reacts config signal r.onNoItem := by
  have hreleased := h.releaseHeld
  refine h.reacts_release ?_
  rw [onNoItem]
  split
  · exact hreleased.toRests.reacts_complete _
  · exact hreleased.reacts_absorb hchar

/-- An item is opened on a character that begins it. -/
theorem takes_itemBegunBy? {r : BlockReader} {c : Char} {kind : NodeKind}
    (h : r.itemBegunBy? c = some kind) :
    Reader.Takes config (.char c) 4 (.sequence (.start kind r.itemLevel false)) := by
  unfold itemBegunBy? at h
  split at h
  · split at h
    · rename_i hat
      have hparts : Production.parts .annotationUse
          = ⟨.atSign, .punct .atSign, none⟩ :: (Production.parts .annotationUse).tail := rfl
      cases h
      exact SequenceReader.takes_start hparts rfl rfl _ _ (by rw [hat.1]; rfl)
    · cases h
  · split at h
    · rename_i hstart
      have hparts : Production.parts .expressionStatement
          = [⟨.expression, .expression .statement, none⟩] := rfl
      cases h
      exact SequenceReader.takes_start hparts rfl rfl _ _ hstart
    · cases h
  · split at h
    · rename_i hstart
      have hparts : Production.parts .matchCase
          = ⟨.patterns, .group .patterns, none⟩ :: (Production.parts .matchCase).tail := rfl
      cases h
      exact SequenceReader.takes_start hparts rfl rfl _ _ hstart
    · cases h
  · cases h

/-- What a block makes of a character where an item may begin. -/
theorem reacts_onItemChar {r : BlockReader} (h : r.Placed) (hphase : r.phase = .itemStart)
    (c : Char) : r.Reacts config (.char c) (r.onItemChar c) := by
  unfold onItemChar
  split
  · rename_i hword
    have htakes : Reader.Takes config (.char c) 4 (.leaf (.word "")) :=
      (Reader.takes_leaf (LeafReader.begins_word hword.2)).mono (by omega)
    exact h.reacts_enter ⟨rfl, hphase⟩ rfl htakes rfl
  · split
    · rename_i kind hkind
      refine h.reacts_release
        (h.releaseHeld.reacts_enter ⟨rfl, rfl⟩ ?_ (takes_itemBegunBy? hkind) rfl)
      exact SequenceReader.text_start kind r.itemLevel false
    · exact reacts_onNoItem h rfl

/-- What a block makes of a signal where an item may begin. -/
theorem reacts_onItemStart {r : BlockReader} (h : r.Placed) (hphase : r.phase = .itemStart) :
    r.Reacts config signal (r.onItemStart signal) := by
  unfold onItemStart
  split
  · rename_i leaf hinline
    exact h.reacts_inline hinline
  · exact reacts_onItemChar h hphase _
  · have hreleased := h.releaseHeld
    refine h.reacts_release ?_
    dsimp only
    split
    · exact hreleased.toRests.reacts_complete _
    · exact (reacts_onAfterItem (hreleased.setPhase rfl .afterItem) rfl).from rfl rfl

/-- A line that belongs to a block begins with its white space. -/
theorem Rests.beginLine {r : BlockReader} (h : r.Rests) (hline : r.line = none)
    (hheld : r.held = []) (level : IndentLevel) :
    (r.beginLine level).Placed ∧ (r.beginLine level).text = r.text := by
  rw [BlockReader.beginLine]
  generalize (!decide (level.units = r.itemLevel ∧ level.exact)) = isInvalid
  have hplaced := h.placeIndent hline isInvalid
  have hheld' : (r.placeIndent isInvalid).held = [] := hheld
  refine ⟨⟨{ (hplaced.setPhase hheld' .itemStart).toRests with }, hplaced.going,
    hplaced.placed⟩, ?_⟩
  exact h.text_placeIndent hline hheld isInvalid

/-- A line with content belongs to a block or to a construct around it. -/
theorem reacts_onContent {r : BlockReader} (h : r.Rests) (hline : r.line = none)
    (hheld : r.held = []) : r.Reacts config signal (onContent config r signal) := by
  have hgoOn (r' : BlockReader) (h' : r'.Rests) (hline' : r'.line = none) (hheld' : r'.held = [])
      (hmode : r'.mode = r.mode) (htext : r'.text = r.text) (level : IndentLevel)
      (notices : Notices) : r.Reacts config signal
        { (r'.beginLine level).onItemStart signal with notices } := by
    obtain ⟨hplaced, hsame⟩ := h'.beginLine hline' hheld' level
    exact ((reacts_onItemStart hplaced rfl).from hmode (hsame.trans htext)).withNotices notices
  have hending (parent : Nat) (hmode : r.mode = .indented parent) (level : IndentLevel) :
      r.Reacts config signal
        ⟨{ r with indent := none }.dedent ⟨r.indent, level⟩, .complete, {}⟩ := by
    have hended : ({ r with indent := none }.dedent ⟨r.indent, level⟩ : BlockReader).Rests :=
      { h with
        indent := fun hne => absurd rfl hne
        done := rfl
        line := fun _ => ⟨hheld, rfl, by simp [dedent, hmode, Layer.IsOutermost]⟩ }
    refine (hended.reacts_complete {}).from rfl ?_
    simp [text, dedent, hline, hheld, textOfLine]
  unfold onContent
  dsimp only
  split
  · rename_i parent hmode hlevel
    split
    · exact hending parent hmode _
    · have hfixed : ({ r with level := some (measure config r.indent).units } :
          BlockReader).Rests := { h with }
      exact hgoOn _ hfixed hline hheld rfl rfl _ _
  · rename_i parent own hmode hlevel
    split
    · exact hending parent hmode _
    · exact hgoOn r h hline hheld rfl rfl _ _
  · exact hgoOn r h hline hheld rfl rfl _ _
  · exact hgoOn r h hline hheld rfl rfl _ _

/-- What a block makes of a signal after the white space of a line. -/
theorem reacts_onAfterIndent {r : BlockReader} (h : r.Rests) (hline : r.line = none)
    (hheld : r.held = []) : r.Reacts config signal (onAfterIndent config r signal) := by
  have hplaced := h.placeIndent hline false
  have hheld' : (r.placeIndent false).held = [] := hheld
  have htext := h.text_placeIndent hline hheld false
  unfold onAfterIndent
  split
  · exact (hplaced.reacts_newLine hheld').from rfl htext
  · exact (hplaced.reacts_carriageReturn hheld').from rfl htext
  · exact hplaced.reacts_comment.from rfl htext
  · exact (hplaced.toRests.reacts_complete _).from rfl htext
  · exact reacts_onContent h hline hheld

/-- What a block makes of a signal at the beginning of a line. -/
theorem reacts_onLineStart {r : BlockReader} (h : r.Placed) (hphase : r.phase = .lineStart)
    (hheld : r.held = []) : r.Reacts config signal (onLineStart config r signal) := by
  have hnext := h.setPhase hheld .afterIndent
  have hcontent : r.Reacts config signal
      (onAfterIndent config { r with phase := .afterIndent } signal) :=
    (reacts_onAfterIndent hnext.toRests h.going hheld).from rfl rfl
  unfold onLineStart
  split
  · rename_i c
    split
    · rename_i hspace
      have hbegins := LeafReader.begins_blank .indentation hspace
      have htakes : Reader.Takes config (.char c) 4 (.leaf (.blank .indentation "")) :=
        (Reader.takes_leaf hbegins).mono (by omega)
      exact h.reacts_enter ⟨rfl, hphase⟩ rfl htakes rfl
    · exact hcontent
  · exact hcontent

/-- Only a block at the beginning of an item holds something back. -/
theorem Rests.held_eq_nil {r : BlockReader} (h : r.Rests) (hphase : r.phase ≠ .itemStart) :
    r.held = [] := by
  cases hheld : r.held with
  | nil => rfl
  | cons t rest => exact absurd (h.held (by simp [hheld])).2 hphase

/-- The white space of a line is placed before anything else. -/
theorem Rests.placed {r : BlockReader} (h : r.Rests) (hline : r.line = none)
    (hphase : r.phase ≠ .afterIndent) : r.Placed := by
  refine ⟨h, hline, ?_⟩
  cases hindent : r.indent with
  | none => rfl
  | some t => exact absurd (h.indent (by simp [hindent])) hphase

/-- A block answers every signal. -/
theorem answers {r : BlockReader} (h : r.Rests) : Reader.Answers config signal (.block r) := by
  refine yields_ok.2 ?_
  change r.Reacts config signal (onSignal config r signal)
  unfold onSignal
  split
  · exact h.reacts_complete {}
  · rename_i hdone
    have hline : r.line = none := by
      rw [h.done, Bool.not_eq_true, Option.isSome_eq_false_iff, Option.isNone_iff_eq_none] at hdone
      exact hdone
    cases hphase : r.phase with
    | header =>
      exact reacts_onHeader (h.placed hline (by simp [hphase])) (h.held_eq_nil (by simp [hphase]))
    | lineStart =>
      exact reacts_onLineStart (h.placed hline (by simp [hphase])) hphase
        (h.held_eq_nil (by simp [hphase]))
    | afterIndent => exact reacts_onAfterIndent h hline (h.held_eq_nil (by simp [hphase]))
    | itemStart => exact reacts_onItemStart (h.placed hline (by simp [hphase])) hphase
    | afterItem =>
      exact reacts_onAfterItem (h.placed hline (by simp [hphase]))
        (h.held_eq_nil (by simp [hphase]))

end Signals

/-! ### Deliveries -/

/-- The receipt of a block fits what was delivered to it. -/
abbrev Fits (mode : BlockMode) (text : String) (budget : Nat) (receipt : Receipt BlockReader) :
    Prop :=
  (receipt.map Reader.block).Fits (.block mode) text budget

/-- A block at rest takes a single step to end. -/
theorem Rests.fits {r : BlockReader} (h : r.Rests) {mode : BlockMode} (hmode : r.mode = mode)
    {text : String} {budget : Nat} {notices : Notices} (htext : r.text = text)
    (hbudget : 1 ≤ budget) : Fits mode text budget { state := r, notices } :=
  ⟨congrArg Layer.block hmode, h, by simp [Receipt.map, htext], hbudget⟩

/-- No expression begins with a token that is held back. -/
theorem IsHeld.canStartWith_eq_false {token : Tree} (h : IsHeld token) (ctx : Context) :
    ctx.canStartWith token = false := by
  unfold Context.canStartWith
  split
  · rename_i hkind
    rcases h with h | h | h
    · simp [Tree.isTrivia, hkind, LeafKind.isTrivia] at h
    · simp [Tree.isInvalid, hkind] at h
    · simp [Tree.keyword?, hkind, LeafKind.keyword?] at h
  · rename_i kw hkind
    rcases h with h | h | h
    · simp [Tree.isTrivia, hkind, LeafKind.isTrivia] at h
    · simp [Tree.isInvalid, hkind] at h
    · obtain rfl : kw = .staticKw := by simpa [Tree.keyword?, hkind, LeafKind.keyword?] using h
      cases ctx.operators <;> simp [Keyword.isLiteral]
  · rfl

/-- An item that is still being begun. -/
structure Begun (item : SequenceReader) (text : String) (receipt : Receipt SequenceReader) :
    Prop where
  going : receipt.state.Going
  opened : receipt.opened = []
  text_eq : receipt.state.text = item.text ++ text
  remaining : receipt.state.remaining <:+ item.remaining

/-- A token that is held back is placed in the item, and opens nothing. -/
theorem Begun.seedNext {item : SequenceReader} {text : String} {receipt : Receipt SequenceReader}
    (h : Begun item text receipt) {token : Tree} (htoken : IsHeld token) :
    Yields (seedNext receipt token) (Begun item (text ++ token.text)) := by
  refine (SequenceReader.seed_yields h.going token).bind fun seeded hseeded => ?_
  refine yields_pure.2 ?_
  cases hseeded with
  | placed hgoing hopened htext hremaining =>
    refine ⟨hgoing, by simp [h.opened, hopened], ?_, hremaining.trans h.remaining⟩
    simp [htext, h.text_eq, String.append_assoc]
  | seeded ctx hstart hfits =>
    rw [htoken.canStartWith_eq_false] at hstart
    cases hstart

/-- The tokens that are held back are placed in the item one after another. -/
theorem Begun.foldlM {item : SequenceReader} {tokens : List Tree}
    (htokens : ∀ t ∈ tokens, IsHeld t) {text : String} {receipt : Receipt SequenceReader}
    (h : Begun item text receipt) :
    Yields (tokens.foldlM BlockReader.seedNext receipt)
      (Begun item (text ++ Tree.textOfTokens tokens)) := by
  induction tokens generalizing text receipt with
  | nil => simpa using h
  | cons t rest ih =>
    rw [List.foldlM_cons]
    refine (h.seedNext (htokens t List.mem_cons_self)).bind fun seeded hseeded => ?_
    simpa [String.append_assoc] using ih (fun t ht => htokens t (List.mem_cons_of_mem _ ht)) hseeded

/-- The word that begins an item is placed in it, or begins an expression inside it. -/
theorem Begun.seedWord {item : SequenceReader} {text : String} {receipt : Receipt SequenceReader}
    (h : Begun item text receipt) (word : Tree) :
    Yields (BlockReader.seedNext receipt word)
      (SequenceReader.Fits (item.text ++ text ++ word.text) 9) := by
  refine (SequenceReader.seed_yields h.going word).bind fun seeded hseeded => ?_
  have hreserve : SequenceReader.blockReserve receipt.state.remaining ≤ 2 := by
    rw [SequenceReader.blockReserve]
    split <;> decide
  have hfits := hseeded.fits.mono (show 7 + SequenceReader.blockReserve _ ≤ 9 by omega)
  rw [h.text_eq] at hfits
  exact yields_pure.2 (hfits.of_eq rfl (by simp [Receipt.map, h.opened]))

/-- An item takes the tokens that were held back, and the word that begins it. -/
theorem seedItem_yields (kind : NodeKind) (level : Nat) {tokens : List Tree}
    (htokens : ∀ t ∈ tokens, IsHeld t) (word : Tree) :
    Yields (seedItem (.start kind level false) (tokens ++ [word]))
      (SequenceReader.Fits (Tree.textOfTokens tokens ++ word.text) 9) := by
  have hstart : Begun (.start kind level false) "" { state := .start kind level false } :=
    ⟨(SequenceReader.rests_start kind level false).toGoing rfl, rfl, by simp,
      List.suffix_refl _⟩
  rw [seedItem, List.foldlM_append]
  refine (hstart.foldlM htokens).bind fun receipt hreceipt => ?_
  simpa using hreceipt.seedWord word

/-- An item that is opened takes the rest of what a block was given. -/
theorem opens_fits {r : BlockReader} {item : Receipt SequenceReader} {text itemText : String}
    (hhosts : r.Hosts .sequence) (hitem : SequenceReader.Fits itemText 9 item)
    (htext : r.text ++ itemText = text) :
    Fits r.mode text 11 { state := r, opened := .sequence item.state :: item.opened } := by
  have hnested := hitem.nested
  have hsame := hitem.text_eq
  have hcost := hitem.cost_le
  simp only [Receipt.map, Reader.text_sequence] at hnested hsame hcost
  refine ⟨rfl, ⟨hhosts, hnested⟩, ?_, ?_⟩
  · simp only [Receipt.map, Reader.text_block, Reader.textOfAll_cons, Reader.text_sequence, hsame,
      htext]
  · simp only [Receipt.map, Reader.costOfAll_cons, Reader.cost, Reader.credit] at hcost ⊢
    omega

/-- A word that begins nothing is an extra. -/
theorem rejectWord_fits {r : BlockReader} (h : r.Placed) (word : Tree) {budget : Nat}
    (hbudget : 1 ≤ budget) :
    Fits r.mode (r.text ++ word.text) budget { state := r.rejectWord word } := by
  have hreleased := h.releaseHeld.pushExtras [word.invalidated]
  have htext : (r.releaseHeld.pushExtras [word.invalidated]).text = r.text ++ word.text := by
    simp [h.releaseHeld.text_pushExtras rfl, h.text_releaseHeld]
  exact (hreleased.setPhase rfl .afterItem).toRests.fits rfl htext hbudget

/-- A block begins an item with what it held back and a word. -/
theorem beginItem_yields {r : BlockReader} (h : r.Placed) (kind : NodeKind) (word : Tree) :
    Yields (r.beginItem kind word) (Fits r.mode (r.text ++ word.text) 11) := by
  have hreleased :
      ∃ r', (if kind = .memberVariable ∨ kind = .method then r else r.releaseHeld) = r' ∧
      r'.Placed ∧ r'.mode = r.mode ∧ r'.text = r.text := by
    split
    · exact ⟨r, rfl, h, rfl, rfl⟩
    · exact ⟨_, rfl, h.releaseHeld, rfl, h.text_releaseHeld⟩
  obtain ⟨r', heq, hplaced, hmode, htext⟩ := hreleased
  have hhosts : ({ r' with held := [], goal := .item } : BlockReader).Hosts .sequence :=
    ⟨{ hplaced.toRests with
        held := fun hne => absurd rfl hne
        tokens := nofun
        line := fun hne => absurd hplaced.going hne }, hplaced.going, hplaced.placed, rfl, rfl⟩
  rw [beginItem, heq, ← hmode, ← htext]
  refine (seedItem_yields kind r'.itemLevel hplaced.tokens word).bind fun item hitem => ?_
  refine yields_pure.2 (opens_fits hhosts hitem ?_)
  rw [hplaced.text_eq, hhosts.toPlaced.text_eq]
  simp [String.append_assoc]

/-- The last child of a block that is no extra is an item. -/
theorem Rests.last_item {r : BlockReader} (h : r.Rests) {before : List Entry} {role : Role}
    {t : Tree} (hkept : (Form.splitTrailing r.form).1 = before ++ [(role, t)]) :
    role = .item ∧ t.EndsInChain := by
  have hmem : (role, t) ∈ r.form := by
    rw [← Form.append_extras_of_splitTrailing r.form, hkept]
    simp
  rcases h.form (role, t) hmem with hextra | hitem
  · exact absurd hextra (Form.ne_extra_of_splitTrailing hkept)
  · exact hitem

/-- A new branch takes the word that begins it. -/
theorem seedBranch_yields (kind : NodeKind) (level : Nat) (word : Tree) :
    Yields (SequenceReader.seed (.start kind level false) word)
      (SequenceReader.Fits word.text 9) := by
  have hgoing : (SequenceReader.start kind level false).Going :=
    (SequenceReader.rests_start kind level false).toGoing rfl
  refine (SequenceReader.seed_yields hgoing word).mono fun branch hbranch => ?_
  have hreserve : SequenceReader.blockReserve
      (SequenceReader.start kind level false).remaining ≤ 2 := by
    rw [SequenceReader.blockReserve]
    split <;> decide
  have hfits := hbranch.fits.mono (show 7 + SequenceReader.blockReserve _ ≤ 9 by omega)
  simpa using hfits

/-- A block begins a further branch of the `if` that ends it. -/
theorem beginBranch_yields {r : BlockReader} (h : r.Placed) (hheld : r.held = [])
    (kind : NodeKind) (word : Tree) :
    Yields (r.beginBranch kind word) (Fits r.mode (r.text ++ word.text) 11) := by
  have hreject : Yields (pure { state := r.rejectWord word } : Except Misfit (Receipt BlockReader))
      (Fits r.mode (r.text ++ word.text) 11) :=
    yields_pure.2 (rejectWord_fits h word (by omega))
  have hall := Tree.text_splitTrailing r.form
  rw [beginBranch]
  rcases hsplit : Form.splitTrailing r.form with ⟨kept, trailing⟩
  rw [hsplit] at hall
  dsimp only at hall ⊢
  rcases List.eq_nil_or_concat kept with rfl | ⟨before, ⟨role, t⟩, rfl⟩
  · exact hreject
  · rw [List.concat_eq_append] at hsplit hall ⊢
    obtain ⟨rfl, ht⟩ := h.last_item (congrArg Prod.fst hsplit)
    rw [Branch.updateLast?_append_item]
    cases hupdate : Branch.updateTail? (· ++ Form.extras trailing) t with
    | none => exact hreject
    | some t' =>
      obtain ⟨htext, hchain⟩ :=
        Branch.text_updateTail? (Branch.adds_extras trailing) t ht hupdate
      have hhosts : ({ r with form := before ++ [(.item, t')], goal := .branch } :
          BlockReader).Hosts .sequence := by
        refine ⟨{ h.toRests with form := ?_ }, h.going, h.placed, rfl, hheld, before, t', rfl⟩
        intro entry hentry
        rcases List.mem_append.1 hentry with hbefore | hlast
        · refine h.form entry ?_
          rw [← Form.append_extras_of_splitTrailing r.form, hsplit]
          simp [hbefore]
        · rw [List.mem_singleton] at hlast
          subst hlast
          exact .inr ⟨rfl, hchain⟩
      refine (seedBranch_yields kind r.itemLevel word).bind fun branch hbranch => ?_
      refine yields_pure.2 (opens_fits hhosts hbranch ?_)
      rw [h.text_eq, hhosts.toPlaced.text_eq, ← hall]
      simp [htext, hheld, String.append_assoc]

/-- A word that was given up on has no place. -/
theorem isInvalid_invalidated {word : Tree} {kw : Keyword} (h : word.keyword? = some kw) :
    word.invalidated.isInvalid := by
  cases word with
  | leaf kind text extent => rfl
  | node kind form extent => cases h

/-- A block of members holds back a `static`. -/
theorem holdBack_fits {r : BlockReader} (h : r.Placed) (hkind : r.kind = .members)
    (hphase : r.phase = .itemStart) {word : Tree} (hword : word.keyword? = some .staticKw)
    {budget : Nat} (hbudget : 1 ≤ budget) :
    Fits r.mode (r.text ++ word.text) budget
      { state := { r with
          held := r.held ++ [if r.held.isEmpty then word else word.invalidated] } } := by
  have htoken : ∃ token, (if r.held.isEmpty then word else word.invalidated) = token ∧
      IsHeld token ∧ token.text = word.text := by
    split
    · exact ⟨word, rfl, .inr (.inr hword), rfl⟩
    · exact ⟨_, rfl, .inr (.inl (isInvalid_invalidated hword)), Tree.text_invalidated word⟩
  obtain ⟨token, heq, hheld, htext⟩ := htoken
  rw [heq]
  have hplaced : ({ r with held := r.held ++ [token] } : BlockReader).Placed := by
    refine ⟨{ h.toRests with
      held := fun _ => ⟨hkind, hphase⟩
      tokens := fun t ht => ?_
      line := fun hne => absurd h.going hne }, h.going, h.placed⟩
    rcases List.mem_append.1 ht with ht | ht
    · exact h.tokens t ht
    · rw [List.mem_singleton] at ht
      subst ht
      exact hheld
  refine hplaced.toRests.fits rfl ?_ hbudget
  rw [hplaced.text_eq, h.text_eq]
  simp [htext, String.append_assoc]

/-- The first word of an item is held back, begins an item or a branch, or is rejected. -/
theorem onWord_yields {r : BlockReader} (h : r.Placed) (hphase : r.phase = .itemStart)
    (word : Tree) : Yields (r.onWord word) (Fits r.mode (r.text ++ word.text) 11) := by
  have hreject : Yields (pure { state := r.rejectWord word } : Except Misfit (Receipt BlockReader))
      (Fits r.mode (r.text ++ word.text) 11) :=
    yields_pure.2 (rejectWord_fits h word (by omega))
  have hheld (hkind : r.kind = .statements) : r.held = [] := by
    cases hheld : r.held with
    | nil => rfl
    | cons t rest =>
      have hmembers := (h.held (by simp [hheld])).1
      rw [hkind] at hmembers
      cases hmembers
  unfold onWord
  dsimp only
  split
  · exact hreject
  · split
    · rename_i hstatic
      exact yields_pure.2 (holdBack_fits h hstatic.1 hphase hstatic.2 (by omega))
    · split
      · rename_i helif
        exact beginBranch_yields h (hheld helif.1) .ifStatement word
      · split
        · rename_i helse
          exact beginBranch_yields h (hheld helse.1) .elseBranch word
        · split
          · exact beginItem_yields h _ word
          · exact hreject

/-- What takes up a text at the end of a block that holds nothing back. -/
structure Took (r : BlockReader) (text : String) (r' : BlockReader) : Prop extends r'.Placed where
  held_eq : r'.held = []
  mode_eq : r'.mode = r.mode
  text_eq : r'.text = r.text ++ text

/-- A complete item comes last. -/
theorem onItem_yields {r : BlockReader} (h : r.Placed) (hheld : r.held = []) {item : Tree}
    (hitem : item.EndsInChain) : Yields (r.onItem item) (r.Took item.text) := by
  have hitems : r.kind.nodeKind.hasItems := by cases r.kind <;> rfl
  have hplaced (phase : BlockPhase) (extendsOnly : Bool) :
      r.Took item.text
        { r with form := r.form ++ [(.item, item)], phase, extendsOnly } := by
    have hadded : ({ r with form := r.form ++ [(.item, item)], phase, extendsOnly } :
        BlockReader).Placed := by
      refine ⟨{ (h.setPhase hheld phase).toRests with form := ?_ }, h.going, h.placed⟩
      intro entry hentry
      rcases List.mem_append.1 hentry with hentry | hentry
      · exact h.form entry hentry
      · rw [List.mem_singleton] at hentry
        subst hentry
        exact .inr ⟨rfl, hitem⟩
    refine ⟨hadded, hheld, rfl, ?_⟩
    rw [hadded.text_eq, h.text_eq]
    simp [hheld]
  unfold onItem
  rw [Form.addItem_of_hasItems item r.form hitems]
  dsimp only [bind, Except.bind]
  split
  · exact yields_pure.2 (hplaced _ _)
  · exact yields_pure.2 (hplaced _ _)
  · exact yields_pure.2 (hplaced _ _)

/-- A complete branch comes last in the `if` that ends the block. -/
theorem onBranch_yields {r : BlockReader} (h : r.Placed) (hheld : r.held = [])
    {before : List Entry} {t : Tree} (hform : r.form = before ++ [(.item, t)]) {branch : Tree}
    (hbranch : branch.EndsInChain) : Yields (r.onBranch branch) (r.Took branch.text) := by
  have hlast : ∀ entry ∈ r.form, entry.1 = .extra ∨ (entry.1 = .item ∧ entry.2.EndsInChain) :=
    h.form
  have hplaced (form : List Entry)
      (hentries : ∀ entry ∈ form, entry.1 = .extra ∨ (entry.1 = .item ∧ entry.2.EndsInChain))
      (htext : Tree.textOfForm form = Tree.textOfForm r.form ++ branch.text) :
      r.Took branch.text { r with form, phase := .afterItem } := by
    have hadded : ({ r with form, phase := .afterItem } : BlockReader).Placed :=
      ⟨{ (h.setPhase hheld .afterItem).toRests with form := hentries }, h.going, h.placed⟩
    refine ⟨hadded, hheld, rfl, ?_⟩
    rw [hadded.text_eq, h.text_eq]
    simp [hheld, htext]
  have hrole : NodeKind.ifStatement.checkRole (.slot .elseBranch) = .ok () := rfl
  rw [hform] at hlast
  rw [onBranch, hrole, hform, Branch.updateLast?_append_item]
  refine yields_pure.2 ?_
  cases hupdate : Branch.updateTail? (Form.setSlot .ifStatement .elseBranch branch) t with
  | none =>
    refine hplaced _ ?_ (by simp [hform, String.append_assoc])
    intro entry hentry
    rcases List.mem_append.1 hentry with hentry | hentry
    · exact hlast entry hentry
    · exact .inl (Form.role_of_mem_extras hentry)
  | some t' =>
    have ht := (hlast (.item, t) (by simp)).resolve_left nofun
    obtain ⟨htext, hchain⟩ :=
      Branch.text_updateTail? (Branch.adds_else hbranch) t ht.2 hupdate
    refine hplaced _ ?_ (by simp [hform, htext, String.append_assoc])
    intro entry hentry
    rcases List.mem_append.1 hentry with hentry | hentry
    · exact hlast entry (List.mem_append_left _ hentry)
    · rw [List.mem_singleton] at hentry
      subst hentry
      exact .inr ⟨rfl, hchain⟩

/-- The beginning of a line ends the block or begins a line of it. -/
theorem onLine_fits {r : BlockReader} (h : r.Placed) (hheld : r.held = []) (line : LineStart)
    {budget : Nat} (hbudget : 1 ≤ budget) :
    Fits r.mode (r.text ++ textOfLine (some line)) budget (r.onLine line) := by
  have hbegun : ({ r with indent := line.indent, phase := .afterIndent } : BlockReader).Rests :=
    { h.toRests with
      held := fun hne => absurd hheld hne
      indent := fun _ => rfl
      line := fun hne => absurd h.going hne }
  have hgoOn (notices : Notices) : Fits r.mode (r.text ++ textOfLine (some line)) budget
      { state := { r with indent := line.indent }.beginLine line.level, notices } := by
    obtain ⟨hplaced, htext⟩ := hbegun.beginLine h.going hheld line.level
    refine hplaced.toRests.fits rfl ?_ hbudget
    rw [htext, h.text_eq]
    simp [text, h.going, hheld, textOfLine]
  have hdedent (hmode : ¬ (Layer.block r.mode).IsOutermost) :
      Fits r.mode (r.text ++ textOfLine (some line)) budget { state := r.dedent line } := by
    have hended : (r.dedent line).Rests :=
      { h.toRests with
        done := rfl
        line := fun _ => ⟨hheld, h.placed, hmode⟩ }
    refine hended.fits rfl ?_ hbudget
    rw [h.text_eq]
    simp [text, dedent, hheld, h.placed]
  unfold onLine
  dsimp only
  split
  · rename_i hmode
    exact hdedent (by simp [hmode, Layer.IsOutermost])
  · rename_i parent hmode
    split
    · exact hdedent (by simp [hmode, Layer.IsOutermost])
    · exact hgoOn _
  · exact hgoOn _
  · exact hgoOn _

@[simp]
theorem pushExtras_nil (r : BlockReader) : r.pushExtras [] = r := by
  simp [pushExtras]

@[simp]
theorem placeTrivia_nil (r : BlockReader) : r.placeTrivia [] = r := by
  rw [placeTrivia]
  split <;> simp

/-- The white space of a line waits until it is known what the line is. -/
theorem holdIndent_fits {r : BlockReader} (h : r.Placed) (hheld : r.held = []) (token : Tree)
    {budget : Nat} (hbudget : 1 ≤ budget) :
    Fits r.mode (r.text ++ token.text) budget
      { state := { r with indent := some token, phase := .afterIndent } } := by
  have hrests : ({ r with indent := some token, phase := .afterIndent } : BlockReader).Rests :=
    { h.toRests with
      held := fun hne => absurd hheld hne
      indent := fun _ => rfl
      line := fun hne => absurd h.going hne }
  refine hrests.fits rfl ?_ hbudget
  rw [h.text_eq]
  simp [text, hheld, h.going]

/-- Trivia and text without a place are placed, or stay with what is held back. -/
theorem placeTrivia_fits {r : BlockReader} (h : r.Placed) {token : Tree}
    (htoken : r.held = [] ∨ (token.isTrivia || token.isInvalid) = true) {budget : Nat}
    (hbudget : 1 ≤ budget) :
    Fits r.mode (r.text ++ token.text) budget { state := r.placeTrivia [token] } := by
  have hplaced : (r.placeTrivia [token]).Placed := by
    refine h.placeTrivia (htoken.imp id fun htrivia t ht => ?_)
    rw [List.mem_singleton] at ht
    subst ht
    exact htrivia
  have hmode : (r.placeTrivia [token]).mode = r.mode := by
    rw [placeTrivia]
    split <;> rfl
  refine hplaced.toRests.fits hmode ?_ hbudget
  simp [h.text_placeTrivia]

/-- A leaf is placed, held back, or begins an item. -/
theorem onLeaf_yields {r : BlockReader} (h : r.Placed) {goal : BlockGoal} {layer : Layer}
    (hgoal : ({ r with goal } : BlockReader).GoalFits layer) (hlayer : layer.isLeaf) {token : Tree}
    (htoken : layer.isTrivia → (token.isTrivia || token.isInvalid) = true) :
    Yields (r.onToken goal token) (Fits r.mode (r.text ++ token.text) 11) := by
  have hindented (hindent : goal = .indent) : r.held = [] := by
    subst hindent
    refine h.held_eq_nil ?_
    rw [show r.phase = .lineStart from hgoal.2]
    decide
  unfold onToken
  split
  · rename_i hindent
    exact yields_pure.2 (holdIndent_fits h (hindented hindent.1) token (by omega))
  · split
    · rename_i htrivia
      exact yields_pure.2 (placeTrivia_fits h (.inr htrivia) (by omega))
    · cases goal with
      | trivia => exact yields_pure.2 (placeTrivia_fits h (.inr (htoken hgoal)) (by omega))
      | indent => exact yields_pure.2 (placeTrivia_fits h (.inl (hindented rfl)) (by omega))
      | word => exact onWord_yields h hgoal.2 token
      | item =>
        rw [hgoal.1] at hlayer
        cases hlayer
      | branch =>
        rw [hgoal.1] at hlayer
        cases hlayer

/-- A leaf is delivered alone. -/
theorem onDelivery_leaf {r : BlockReader} {layer : Layer} (h : r.Hosts layer)
    (hlayer : layer.isLeaf) {token : Option Tree}
    (htoken : layer.isTrivia → ∀ t ∈ token, (t.isTrivia || t.isInvalid) = true) :
    Yields (r.onDelivery { token })
      (Fits r.mode (r.text ++ Tree.textOfTokens token.toList) 11) := by
  have hplaced := h.toPlaced.setGoal .trivia
  have hsame : ({ r with goal := .trivia } : BlockReader).text = r.text := rfl
  rw [onDelivery, placeTrivia_nil, ← hsame]
  cases token with
  | none =>
    have hkept : Fits r.mode ({ r with goal := .trivia } : BlockReader).text 11
        { state := { r with goal := .trivia } } :=
      hplaced.toRests.fits rfl rfl (by omega)
    simpa [onToken?, onHandback?, onLine?, bind, Except.bind, pure, Except.pure] using hkept
  | some token =>
    refine (onLeaf_yields hplaced h.goal hlayer fun htrivia => htoken htrivia token rfl).bind
      fun receipt hreceipt => ?_
    rw [Option.toList_some, Tree.textOfTokens_cons, Tree.textOfTokens_nil, String.append_empty]
    refine yields_pure.2 (hreceipt.of_eq ?_ ?_) <;> simp [Receipt.map, onHandback?, onLine?]

/-- What is handed on to a block has no place in it. -/
theorem onHandback?_took {r : BlockReader} (h : r.Placed) (hheld : r.held = [])
    (handback : Option Tree) :
    r.Took (Tree.textOfTokens handback.toList) (r.onHandback? handback) := by
  cases handback with
  | none => exact ⟨h, hheld, rfl, by simp [onHandback?]⟩
  | some token =>
    have htext : (r.pushExtras [token.invalidated]).text = r.text ++ token.text := by
      simp [h.text_pushExtras hheld]
    refine ⟨(h.pushExtras [token.invalidated]).setPhase hheld .afterItem, hheld, rfl, ?_⟩
    rw [Option.toList_some, Tree.textOfTokens_cons, Tree.textOfTokens_nil, String.append_empty]
    exact htext

/-- What comes after the token of a delivery has no place, or begins a line. -/
theorem afterToken_fits {r : BlockReader} (h : r.Placed) (hheld : r.held = []) (d : Delivery)
    {budget : Nat} (hbudget : 1 ≤ budget) :
    Fits r.mode (r.text ++ Tree.textOfTokens d.trailing ++ textHandedOn d.handback d.line) budget
      (((r.pushExtras d.trailing).onHandback? d.handback).onLine? d.line) := by
  have htook := onHandback?_took (h.pushExtras d.trailing) hheld d.handback
  have htext := htook.text_eq
  rw [h.text_pushExtras hheld] at htext
  have hmode : ((r.pushExtras d.trailing).onHandback? d.handback).mode = r.mode := htook.mode_eq
  rw [textHandedOn, ← String.append_assoc, ← htext, ← hmode]
  cases d.line with
  | none => exact htook.toRests.fits rfl (by simp) hbudget
  | some line => exact onLine_fits htook.toPlaced htook.held_eq line hbudget

/-- A block hosts no other states than leaves, items and branches. -/
theorem Hosts.item_or_branch {r : BlockReader} {layer : Layer} (h : r.Hosts layer)
    (hlayer : ¬ layer.isLeaf) : layer = .sequence ∧ r.held = [] ∧
      (r.goal = .item ∨ r.goal = .branch ∧ ∃ before t, r.form = before ++ [(.item, t)]) := by
  have hgoal := h.goal
  rw [GoalFits] at hgoal
  split at hgoal
  · exact absurd (Layer.isLeaf_of_isTrivia hgoal) hlayer
  · exact absurd hgoal.1 hlayer
  · rw [hgoal.1] at hlayer
    exact absurd rfl hlayer
  · rename_i heq
    exact ⟨hgoal.1, hgoal.2, .inl heq⟩
  · rename_i heq
    exact ⟨hgoal.1, hgoal.2.1, .inr ⟨heq, hgoal.2.2⟩⟩

/-- A complete item or branch comes last. -/
theorem onInner_yields {r : BlockReader} {layer : Layer} (h : r.Hosts layer)
    (hlayer : ¬ layer.isLeaf) {kind : NodeKind} {form : List Entry}
    (hchain : (Tree.ofForm kind form).EndsInChain) :
    Yields (onToken { r with goal := .trivia } r.goal (.ofForm kind form)) fun receipt =>
      receipt.opened = [] ∧
        ({ r with goal := .trivia } : BlockReader).Took (Tree.ofForm kind form).text
          receipt.state := by
  have hplaced := h.toPlaced.setGoal .trivia
  obtain ⟨_, hheld, hgoal⟩ := h.item_or_branch hlayer
  have hleaf : (Tree.ofForm kind form).isTrivia = false ∧
      (Tree.ofForm kind form).isInvalid = false := ⟨rfl, rfl⟩
  unfold onToken
  rw [if_neg (by simp [hleaf.1]), if_neg (by simp [hleaf.1, hleaf.2])]
  rcases hgoal with hgoal | ⟨hgoal, before, t, hform⟩
  · rw [hgoal]
    refine (onItem_yields hplaced hheld hchain).bind fun r' hr' => ?_
    exact yields_pure.2 ⟨rfl, hr'⟩
  · rw [hgoal]
    refine (onBranch_yields hplaced hheld hform hchain).bind fun r' hr' => ?_
    exact yields_pure.2 ⟨rfl, hr'⟩

/-- The beginning of a line opens nothing. -/
theorem opened_onLine? (r : BlockReader) (line : Option LineStart) :
    (r.onLine? line).opened = [] := by
  cases line with
  | none => rfl
  | some line =>
    unfold onLine? onLine
    dsimp only
    split <;> rfl

/-- A complete item or branch is delivered with what comes after it. -/
theorem onDelivery_inner {r : BlockReader} {layer : Layer} {d : Delivery} (h : r.Hosts layer)
    (hlayer : ¬ layer.isLeaf) (hd : d.From layer) :
    Yields (r.onDelivery d) (Fits r.mode (r.text ++ d.text) 1) := by
  obtain ⟨hleading, kind, form, htoken, hitems, helse⟩ :=
    hd.sequence (h.item_or_branch hlayer).1
  have hchain : (Tree.ofForm kind form).EndsInChain := Tree.endsInChain_ofForm hitems helse
  rw [onDelivery, hleading, placeTrivia_nil, htoken]
  refine (onInner_yields h hlayer hchain).bind fun receipt hreceipt => ?_
  obtain ⟨hopened, htook⟩ := hreceipt
  have hfits := afterToken_fits htook.toPlaced htook.held_eq d (Nat.le_refl 1)
  have hmode : receipt.state.mode = r.mode := htook.mode_eq
  have htext : receipt.state.text ++ Tree.textOfTokens d.trailing
      ++ textHandedOn d.handback d.line = r.text ++ d.text := by
    have hsame : ({ r with goal := .trivia } : BlockReader).text = r.text := rfl
    rw [htook.text_eq, hsame]
    simp [Delivery.text, hleading, htoken, String.append_assoc]
  rw [htext, hmode] at hfits
  refine yields_pure.2 (hfits.of_eq rfl ?_)
  simp [Receipt.map, hopened, opened_onLine?]

/-- A block takes every delivery of a state that it hosts. -/
theorem onDelivery_yields {r : BlockReader} {layer : Layer} {d : Delivery} (h : r.Hosts layer)
    (hd : d.From layer) :
    Yields (r.onDelivery d)
      (Fits r.mode (r.text ++ d.text) ((Reader.block r).cost + d.credit layer)) := by
  have hcost : (Reader.block r).cost = 1 := rfl
  rw [hcost, Delivery.credit]
  by_cases hleaf : layer.isLeaf
  · obtain ⟨leading, token, trailing, handback, line⟩ := d
    obtain ⟨rfl, rfl, rfl, rfl⟩ := hd.leaf hleaf
    have htext : ({ token } : Delivery).text = Tree.textOfTokens token.toList := by
      simp [Delivery.text]
    rw [htext, if_pos hleaf]
    exact onDelivery_leaf h hleaf hd.trivia
  · rw [if_neg hleaf]
    exact (onDelivery_inner h hleaf hd).mono fun receipt hreceipt => hreceipt.mono (by omega)

/-- A block delivers its text and the line that ended it. -/
theorem finish_eq {r : BlockReader} (h : r.Rests) :
    r.finish.From (.block r.mode) ∧ r.finish.text = r.text ∧ r.finish.handback = none := by
  have htokens := Tree.textOfTokens_map_of_text text_releasedToken r.held
  have hline : r.finish.line = r.line := by
    simp only [finish]
    split <;> rfl
  refine ⟨⟨.inl rfl, nofun, nofun, nofun, fun _ _ => ⟨rfl, rfl, _, _, rfl⟩, fun houtermost => ?_⟩,
    ?_, rfl⟩
  · refine ⟨rfl, ?_, _, _, rfl⟩
    rw [hline]
    cases hline : r.line with
    | none => rfl
    | some line => exact absurd houtermost (h.line (by simp [hline])).2.2
  · cases hline : r.line with
    | none =>
      simp [finish, Delivery.text, textHandedOn, releaseHeld, pushExtras, placeIndent, text, hline,
        htokens]
    | some line =>
      obtain ⟨hheld, hindent, _⟩ := h.line (by simp [hline])
      simp [finish, Delivery.text, textHandedOn, releaseHeld, pushExtras, text, hline, hheld,
        hindent]

end BlockReader

end ScriptTree
