import ScriptTree.Proofs.Returns.Leaves

/-!
# Line breaks of the two spellings

A state that leaves a line feed to others leaves a carriage return to them in the same way. A state
that takes a line feed takes the carriage return before it, and then the line feed, with the same
result. There is one exception: in a string of one line a backslash takes whatever comes next.
-/

namespace ScriptTree

attribute [local instance] ReaderSpelling.returns

namespace StringScan

/-- Whether the next character is taken as it is, although the string ends with its line. -/
def isEscaping (scan : StringScan) : Bool :=
  scan.phase == .escape && !scan.triple

/-- What a string makes of a line break in the two spellings. -/
inductive Turn (scan : StringScan) : Prop where
  /-- The line break is left to others. -/
  | left (next : StringScan) (h : scan.feed '\n' = (next, .stop))
      (h' : scan.feed '\r' = (next, .stop))
  /-- The line break is taken. -/
  | taken (next between : StringScan) (h : scan.feed '\n' = (next, .accept))
      (h' : scan.feed '\r' = (between, .accept)) (hnext : between.feed '\n' = (next, .accept))

/-- No quote is a character of a line break. -/
theorem ne_quote_of_break {scan : StringScan} (hquote : isQuote scan.quote) {c : Char}
    (hc : c = '\n' ∨ c = '\r') : c ≠ scan.quote := by
  intro heq
  rw [← heq] at hquote
  rcases hc with rfl | rfl <;> cases hquote

/-- The body of a string goes on over both spellings of a line break, or over neither. -/
theorem feedBody_break {scan : StringScan} (hquote : isQuote scan.quote) {c : Char}
    (hc : c = '\n' ∨ c = '\r') :
    scan.feedBody c = ({ scan with phase := .body }, if scan.triple then .accept else .stop) := by
  have hescape : c ≠ '\\' := by rcases hc with rfl | rfl <;> decide
  rw [feedBody, if_neg hescape, if_neg (ne_quote_of_break hquote hc)]
  cases scan.triple <;> simp [hc]

/-- The body of a string in triple quotes goes on over a line feed. -/
theorem feed_newLine_of_triple {scan : StringScan} (hquote : isQuote scan.quote)
    (htriple : scan.triple = true) :
    ({ scan with phase := .body } : StringScan).feed '\n' =
      ({ scan with phase := .body }, .accept) := by
  have hbody := feedBody_break (show isQuote ({ scan with phase := .body } : StringScan).quote
    from hquote) (.inl rfl)
  rwa [if_pos htriple] at hbody

/-- A string whose body comes next goes on over both spellings of a line break, or over neither. -/
theorem turn_of_feedBody {scan : StringScan} (hquote : isQuote scan.quote)
    (hfeed : ∀ c, c = '\n' ∨ c = '\r' → scan.feed c = scan.feedBody c) : scan.Turn := by
  have hline := (hfeed '\n' (.inl rfl)).trans (feedBody_break hquote (.inl rfl))
  have hreturn := (hfeed '\r' (.inr rfl)).trans (feedBody_break hquote (.inr rfl))
  cases htriple : scan.triple with
  | false =>
    rw [if_neg (Bool.eq_false_iff.1 htriple)] at hline hreturn
    exact .left _ hline hreturn
  | true =>
    rw [if_pos htriple] at hline hreturn
    exact .taken _ _ hline hreturn (feed_newLine_of_triple hquote htriple)

/-- A string makes the same of a line break in the two spellings, unless a backslash takes it. -/
theorem turn {scan : StringScan} (hquote : isQuote scan.quote) (h : scan.isEscaping = false) :
    scan.Turn := by
  have hother {c : Char} (hc : c = '\n' ∨ c = '\r') := ne_quote_of_break hquote hc
  have hunquoted (hfeed : ∀ c, c ≠ scan.quote → scan.feed c = scan.feedBody c) : scan.Turn :=
    turn_of_feedBody hquote fun c hc => hfeed c (hother hc)
  cases hphase : scan.phase with
  | start =>
    exact .left scan (by simp [feed, hphase, feedOpening, isQuote])
      (by simp [feed, hphase, feedOpening, isQuote])
  | afterMark =>
    exact .left scan (by simp [feed, hphase, feedOpening, isQuote])
      (by simp [feed, hphase, feedOpening, isQuote])
  | openedOnce => exact hunquoted fun c hc => by simp [feed, hphase, hc]
  | openedTwice =>
    exact .left { scan with phase := .done } (by simp [feed, hphase, hother])
      (by simp [feed, hphase, hother])
  | body => exact turn_of_feedBody hquote fun c _ => by simp [feed, hphase]
  | escape =>
    have htriple : scan.triple = true := by simpa [isEscaping, hphase] using h
    exact .taken _ _ (by simp [feed, hphase, htriple]) (by simp [feed, hphase, htriple])
      (feed_newLine_of_triple hquote htriple)
  | closedOnce => exact hunquoted fun c hc => by simp [feed, hphase, hc]
  | closedTwice => exact hunquoted fun c hc => by simp [feed, hphase, hc]
  | done => exact .left scan (by simp [feed, hphase]) (by simp [feed, hphase])

end StringScan

namespace LeafReader

/-- Whether the leaf makes the same of a line break in the two spellings without taking it: all
do but strings with a backslash, and backslashes that join lines. -/
def TakesBreaks : LeafReader → Prop
  | .string scan _ => scan.isEscaping = false
  | .continuation text => text = ""
  | _ => True

variable {r : LeafReader}

/-- What a leaf makes of a line break in the two spellings. -/
inductive Turn (r : LeafReader) : Prop where
  /-- The line break is left to others. -/
  | left (next : LeafReader) (hsettled : next.IsSettled) (h : r.feed .newLine = (next, .stop))
      (h' : r.withReturns.feed .carriageReturn = (next.withReturns, .stop))
  /-- The line break is taken. -/
  | taken (next between : LeafReader) (hsettled : next.IsSettled)
      (h : r.feed .newLine = (next, .accept))
      (h' : r.withReturns.feed .carriageReturn = (between, .accept))
      (hnext : between.feed .newLine = (next.withReturns, .accept))

/-- White space of any kind ends text without a place. -/
theorem endsInvalid_break : endsInvalid '\n' = true ∧ endsInvalid '\r' = true := by
  decide

/-- A leaf makes the same of a line break in the two spellings. -/
theorem turn (h : r.IsSettled) (htakes : r.TakesBreaks) : r.Turn := by
  cases r with
  | string scan text =>
    cases StringScan.turn h htakes with
    | left next hline hreturn =>
      refine .left (.string next text) ?_ ?_ ?_
      · have hquote := StringScan.isQuote_feed h '\n'
        rwa [hline] at hquote
      · simp [feed_string, Signal.toChar?, scanString, hline]
      · simp [withReturns, feed_string, Signal.toChar?, scanString, hreturn]
    | taken next between hline hreturn hnext =>
      refine .taken (.string next (text.push '\n'))
        (.string between ((Text.withReturns text).push '\r')) ?_ ?_ ?_ ?_
      · have hquote := StringScan.isQuote_feed h '\n'
        rwa [hline] at hquote
      · simp [feed_string, Signal.toChar?, scanString, hline]
      · simp [withReturns, feed_string, Signal.toChar?, scanString, hreturn]
      · simp [withReturns, feed_string, Signal.toChar?, scanString, hnext,
          Text.withReturns_push_newLine]
  | continuation text =>
    obtain rfl : text = "" := htakes
    exact .left (.continuation "") h rfl rfl
  | invalid text =>
    have hempty : text.isEmpty = false := by simpa [IsSettled] using h
    refine .left (.invalid text) h ?_ ?_
    · simp [feed, feedChar, Signal.toChar?, takeIf, hempty, endsInvalid_break.1]
    · simp [withReturns, feed, feedChar, Signal.toChar?, takeIf, hempty, endsInvalid_break.2]
  | nodePath quoted text => cases quoted <;> exact .left _ h rfl rfl
  | _ => exact .left _ h rfl rfl

end LeafReader

/-- A line feed as a single token, and as the two tokens that it corresponds to. -/
theorem Tree.twins_break :
    Tree.Twins [.ofText .newLine "\n"]
      [.ofText .carriageReturn "\r", .ofText .newLine "\n"] :=
  .twice ⟨trivial, rfl, rfl, rfl⟩ .nil

namespace Reader

/-- Whether a state that is innermost makes the same of a line break in the two spellings without
ending at once. -/
def TakesBreaks : Reader → Prop
  | .leaf r => r.TakesBreaks
  | .group r => r.opened = true
  | _ => True

/-- What a state makes of a line break in the two spellings. -/
inductive Turn (config : Config) : Reaction Reader → Reaction Reader → Prop where
  /-- The line break is left to others. -/
  | left {r r' : Reader} (h : r.Twin r') : Turn config ⟨r, .complete, {}⟩ ⟨r', .complete, {}⟩
  /-- A state is opened for the line break. -/
  | opened {r r' inner inner' : Reader} (h : r.Twin r') (hinner : inner.Twin inner')
      (htakes : inner.TakesBreaks) : Turn config ⟨r, .enter inner, {}⟩ ⟨r', .enter inner', {}⟩
  /-- The line break is taken. -/
  | taken {r between r' : Reader} (hnext : between.onSignal config .newLine = .ok ⟨r', .accept, {}⟩)
      (h : r.Twin r') : Turn config ⟨r, .accept, {}⟩ ⟨between, .accept, {}⟩

variable {config : Config}

/-- A leaf makes the same of a line break in the two spellings. -/
theorem turn_leaf {r : LeafReader} (h : r.IsSettled) (htakes : r.TakesBreaks) :
    Agree (Turn config) ((leaf r).onSignal config .newLine)
      ((leaf r.withReturns).onSignal config .carriageReturn) := by
  cases LeafReader.turn h htakes with
  | left next hsettled hline hreturn =>
    simp only [onSignal, hline, hreturn]
    exact .left (.leaf ⟨hsettled, rfl⟩)
  | taken next between hsettled hline hreturn hnext =>
    simp only [onSignal, hline, hreturn]
    have hnext : (leaf between).onSignal config .newLine =
        .ok ⟨.leaf next.withReturns, .accept, {}⟩ := by
      simp only [onSignal, hnext]
      rfl
    exact .taken hnext (.leaf ⟨hsettled, rfl⟩)

end Reader

namespace ExpressionReader

variable {r r' : ExpressionReader} {config : Config}

/-- An expression in brackets takes the characters of a line break as trivia. -/
theorem onSignal_break (hdone : r.done = false) (hbrackets : r.ctx.brackets = true) :
    r.onSignal .newLine = ⟨r.push (.trivia (.ofText .newLine "\n")), .accept, {}⟩ ∧
      r.onSignal .carriageReturn =
        ⟨r.push (.trivia (.ofText .carriageReturn "\r")), .accept, {}⟩ := by
  simp [onSignal, hdone, hbrackets, TriviaStart.at?, TriviaStart.bracketed?]

/-- Other expressions leave a line break to the construct around them. -/
theorem onSignal_break_of_left (h : r.done = true ∨ r.ctx.brackets = false) :
    r.onSignal .newLine = r.complete ∧ r.onSignal .carriageReturn = r.complete := by
  rcases h with h | h <;> simp [onSignal, h, TriviaStart.at?, TriviaStart.inline?]

/-- An expression makes the same of a line break in the two spellings. -/
theorem Twin.turn (h : r.Twin r') :
    Reader.Turn config ((r.onSignal .newLine).map .expression)
      ((r'.onSignal .carriageReturn).map .expression) := by
  have hbrackets' : r'.ctx.brackets = r.ctx.brackets := congrArg _ h.ctx
  by_cases hleft : r.done = true ∨ r.ctx.brackets = false
  · have hleft' : r'.done = true ∨ r'.ctx.brackets = false := by rwa [h.done, hbrackets']
    rw [(onSignal_break_of_left hleft).1, (onSignal_break_of_left hleft').2]
    exact .left (.expression h)
  · obtain ⟨hdone, hbrackets⟩ : r.done = false ∧ r.ctx.brackets = true := by simpa using hleft
    have hdone' : r'.done = false := h.done.trans hdone
    rw [(onSignal_break hdone hbrackets).1,
      (onSignal_break hdone' (hbrackets'.trans hbrackets)).2]
    -- The carriage return is among the pieces when the line feed comes.
    have hnext := (onSignal_break (r := r'.push (.trivia (.ofText .carriageReturn "\r"))) hdone'
      (hbrackets'.trans hbrackets)).1
    have hpushed : Twin (r.push (.trivia (.ofText .newLine "\n")))
        ((r'.push (.trivia (.ofText .carriageReturn "\r"))).push
          (.trivia (.ofText .newLine "\n"))) :=
      h.setPieces (.twice ⟨trivial, rfl, rfl, rfl⟩ h.pieces)
    refine .taken ?_ (.expression hpushed)
    rw [Reader.onSignal, hnext]
    rfl

end ExpressionReader

namespace GroupReader

variable {r r' : GroupReader} {config : Config}

/-- A group in brackets takes the characters of a line break as trivia. -/
theorem onSignal_break (hdone : r.done = false) (hopened : r.opened = true)
    (hbare : r.kind.isBare = false) :
    r.onSignal .newLine = .ok ⟨r.pushExtras [.ofText .newLine "\n"], .accept, {}⟩ ∧
      r.onSignal .carriageReturn =
        .ok ⟨r.pushExtras [.ofText .carriageReturn "\r"], .accept, {}⟩ := by
  simp [onSignal, hdone, hopened, hbare, TriviaStart.at?, TriviaStart.bracketed?, pure, Except.pure]

/-- Other groups leave a line break to the construct around them. -/
theorem onSignal_break_of_left (hopened : r.opened = true)
    (h : r.done = true ∨ r.kind.isBare = true) :
    r.onSignal .newLine = .ok ⟨r, .complete, {}⟩ ∧
      r.onSignal .carriageReturn = .ok ⟨r, .complete, {}⟩ := by
  rcases h with h | h <;>
    simp [onSignal, h, hopened, TriviaStart.at?, TriviaStart.inline?, pure, Except.pure]

/-- The carriage return and the line feed stand where the line feed stands. -/
theorem Twin.pushBreak (h : r.Twin r') :
    (r.pushExtras [.ofText .newLine "\n"]).Twin
      ((r'.pushExtras [.ofText .carriageReturn "\r"]).pushExtras [.ofText .newLine "\n"]) := by
  have hboth : (r'.pushExtras [.ofText .carriageReturn "\r"]).pushExtras [.ofText .newLine "\n"] =
      r'.pushExtras [.ofText .carriageReturn "\r", .ofText .newLine "\n"] := by
    unfold GroupReader.pushExtras
    cases r'.entry <;> simp [Form.extras]
  rw [hboth]
  exact h.pushExtras Tree.twins_break

/-- A group makes the same of a line break in the two spellings. -/
theorem Twin.turn (h : r.Twin r') (hopened : r.opened = true) :
    Agree (Reader.Turn config) ((Reader.group r).onSignal config .newLine)
      ((Reader.group r').onSignal config .carriageReturn) := by
  have hopened' : r'.opened = true := h.opened.trans hopened
  by_cases hleft : r.done = true ∨ r.kind.isBare = true
  · have hleft' : r'.done = true ∨ r'.kind.isBare = true := by rwa [h.done, h.isBare_eq]
    rw [Reader.onSignal, Reader.onSignal, (onSignal_break_of_left hopened hleft).1,
      (onSignal_break_of_left hopened' hleft').2]
    exact .left (.group h)
  · obtain ⟨hdone, hbare⟩ : r.done = false ∧ r.kind.isBare = false := by simpa using hleft
    have hdone' : r'.done = false := h.done.trans hdone
    have hbare' : r'.kind.isBare = false := h.isBare_eq.trans hbare
    rw [Reader.onSignal, Reader.onSignal, (onSignal_break hdone hopened hbare).1,
      (onSignal_break hdone' hopened' hbare').2]
    have hfields (ts : List Tree) : (r'.pushExtras ts).done = r'.done ∧
        (r'.pushExtras ts).opened = r'.opened ∧ (r'.pushExtras ts).kind = r'.kind := by
      unfold GroupReader.pushExtras
      split <;> exact ⟨rfl, rfl, rfl⟩
    obtain ⟨hdone₁, hopened₁, hkind₁⟩ := hfields [.ofText .carriageReturn "\r"]
    have hnext := (onSignal_break (hdone₁.trans hdone') (hopened₁.trans hopened')
      ((congrArg GroupKind.isBare hkind₁).trans hbare')).1
    refine .taken ?_ (.group h.pushBreak)
    rw [Reader.onSignal, hnext]
    rfl

end GroupReader

namespace SequenceReader

variable {r r' : SequenceReader} {config : Config}

/-- A production takes both characters of a line break for the end of a line. -/
theorem onSignal_carriageReturn (r : SequenceReader) :
    r.onSignal .carriageReturn = r.onSignal .newLine := by
  have hstart (s : SequenceReader) (shape : Shape) :
      s.canStart shape .carriageReturn = s.canStart shape .newLine := by
    cases shape <;> rfl
  have hstartable (s : SequenceReader) (parts : List Part) :
      s.startable? .carriageReturn parts = s.startable? .newLine parts := by
    induction parts with
    | nil => rfl
    | cons part rest ih => rw [startable?, startable?, hstart, ih]
  have hpart (s : SequenceReader) (part : Part) (rest : List Part) :
      s.startPart part rest .carriageReturn = s.startPart part rest .newLine := by
    unfold startPart
    cases part.shape <;> rfl
  have hbefore : r.beforePart .carriageReturn = r.beforePart .newLine := rfl
  unfold onSignal
  simp only [TriviaStart.inline?, hbefore, hstartable, hpart]

/-- Only a block begins with the end of a line. -/
theorem canStart_newLine {shape : Shape} (h : r.canStart shape .newLine) :
    ∃ kind, shape = .block kind := by
  cases shape with
  | block kind => exact ⟨kind, rfl⟩
  | _ => cases h

/-- A production makes the same of a line break in the two spellings. -/
theorem Twin.turn (h : r.Twin r') :
    Agree (Reader.Turn config) ((Reader.sequence r).onSignal config .newLine)
      ((Reader.sequence r').onSignal config .carriageReturn) := by
  have hturn : Agree (fun x y => Reader.Turn config (x.map .sequence) (y.map .sequence))
      (r.onSignal .newLine) (r'.onSignal .newLine) := by
    unfold SequenceReader.onSignal
    rw [h.done]
    split
    · exact .left (.sequence h)
    · refine (h.beforePart .newLine).bind fun s s' hs => ?_
      rw [hs.remaining, hs.startable?_eq]
      split
      · rename_i part rest hstart
        obtain ⟨hsuffix, _, hcan⟩ := startable?_spec hstart
        obtain ⟨kind, hshape⟩ := canStart_newLine hcan
        have hactive := hs.setActive (hs.spelled.of_subset hsuffix.subset)
        simp only [SequenceReader.startPart, hshape, SequenceReader.partReader?, hs.level]
        exact .opened (.sequence { hactive with level := rfl })
          (.block (BlockReader.twin_start _ _ _ _)) trivial
      · exact .left (.sequence hs)
  rw [Reader.onSignal, Reader.onSignal, onSignal_carriageReturn]
  exact hturn.map fun _ _ hxy => hxy

end SequenceReader

namespace BlockReader

variable {r r' s s' : BlockReader} {config : Config}

/-- Whether a block takes the end of a line, whatever extras come before it. -/
def TakesLine (config : Config) (r : BlockReader) : Prop :=
  ∀ tokens, onSignal config (r.pushExtras tokens) .newLine =
    { r.pushExtras tokens with phase := .lineStart }.takeExtra .newLine "\n"

theorem takesLine_header (hdone : r.done = false) (hphase : r.phase = .header) :
    TakesLine config r := fun tokens => by
  simp [onSignal, pushExtras, hdone, hphase, onHeader]

theorem takesLine_afterIndent (hdone : r.done = false) (hphase : r.phase = .afterIndent)
    (hindent : r.indent = none) : TakesLine config r := fun tokens => by
  simp [onSignal, pushExtras, hdone, hphase, hindent, onAfterIndent, placeIndent]

/-- No line break separates items. -/
theorem separates_break (kind : BlockKind) :
    kind.separator.startsWith '\n' = false ∧ kind.separator.startsWith '\r' = false := by
  cases kind <;> decide

theorem takesLine_afterItem (hdone : r.done = false) (hphase : r.phase = .afterItem)
    (hmode : r.mode ≠ .inline) : TakesLine config r := fun tokens => by
  simp [onSignal, pushExtras, hdone, hphase, hmode, onAfterItem, TriviaStart.inline?,
    Signal.toChar?, (separates_break r.kind).1]

/-- A block that takes a carriage return takes the line feed after it. -/
theorem Twin.turn_of_takesLine (h : s.Twin s') (htakes : TakesLine config s')
    (hline : BlockReader.onSignal config r .newLine =
      { s with phase := .lineStart }.takeExtra .newLine "\n")
    (hreturn : BlockReader.onSignal config r' .carriageReturn =
      s'.takeExtra .carriageReturn "\r") :
    Reader.Turn config ((BlockReader.onSignal config r .newLine).map .block)
      ((BlockReader.onSignal config r' .carriageReturn).map .block) := by
  have hpushed : Twin ({ s with phase := .lineStart }.pushExtras [.ofText .newLine "\n"])
      ({ s'.pushExtras [.ofText .carriageReturn "\r"] with phase := .lineStart }.pushExtras
        [.ofText .newLine "\n"]) := by
    have hboth := (h.setPhase .lineStart).pushExtras Tree.twins_break
    simpa [BlockReader.pushExtras, Form.extras] using hboth
  rw [hline, hreturn]
  refine .taken ?_ (.block hpushed)
  exact congrArg (fun reaction => Except.ok (Reaction.map Reader.block reaction)) (htakes _)

/-- After an item, a block makes the same of a line break in the two spellings. -/
theorem Twin.turn_afterItem (h : s.Twin s') (hdone : s.done = false)
    (hphase : s.phase = .afterItem)
    (hline : BlockReader.onSignal config r .newLine = s.onAfterItem .newLine)
    (hreturn : BlockReader.onSignal config r' .carriageReturn = s'.onAfterItem .carriageReturn) :
    Reader.Turn config ((BlockReader.onSignal config r .newLine).map .block)
      ((BlockReader.onSignal config r' .carriageReturn).map .block) := by
  have hseparates := separates_break s.kind
  by_cases hmode : s.mode = .inline
  · have hmode' : s'.mode = .inline := h.mode.trans hmode
    rw [hline, hreturn]
    simp only [BlockReader.onAfterItem, TriviaStart.inline?, Signal.toChar?, Option.any_some,
      h.kind, hseparates.1, hseparates.2, hmode, hmode', Bool.false_eq_true, if_false, if_true]
    exact .left (.block h)
  · have hmode' : s'.mode ≠ .inline := by rwa [h.mode]
    refine h.turn_of_takesLine
      (takesLine_afterItem (h.done.trans hdone) (h.phase.trans hphase) hmode') ?_ ?_
    · rw [hline]
      simp [BlockReader.onAfterItem, TriviaStart.inline?, Signal.toChar?, hseparates, hmode]
    · rw [hreturn]
      simp [BlockReader.onAfterItem, TriviaStart.inline?, Signal.toChar?, h.kind, hseparates,
        hmode']

/-- A block on a line ends with the line where an item may begin. -/
theorem onSignal_break_inline (hdone : r.done = false) (hphase : r.phase = .itemStart)
    (hmode : r.mode = .inline) {signal : Signal}
    (hsignal : signal = .newLine ∨ signal = .carriageReturn) :
    onSignal config r signal = r.releaseHeld.complete := by
  rcases hsignal with rfl | rfl <;>
    simp [onSignal, hdone, hphase, onItemStart, TriviaStart.inline?, releaseHeld, pushExtras, hmode]

/-- A block makes the same of a line break in the two spellings. -/
theorem Twin.turn (h : r.Twin r') :
    Reader.Turn config ((BlockReader.onSignal config r .newLine).map .block)
      ((BlockReader.onSignal config r' .carriageReturn).map .block) := by
  cases hdone : r.done with
  | true =>
    have hdone' : r'.done = true := h.done.trans hdone
    simp only [BlockReader.onSignal, hdone, hdone', if_true]
    exact .left (.block h)
  | false =>
    have hdone' : r'.done = false := h.done.trans hdone
    have hplaced := h.placeIndent false
    cases hphase : r.phase with
    | header =>
      have hphase' := h.phase.trans hphase
      exact h.turn_of_takesLine (takesLine_header hdone' hphase')
        (by simp [BlockReader.onSignal, hdone, hphase, BlockReader.onHeader])
        (by simp [BlockReader.onSignal, hdone', hphase', BlockReader.onHeader])
    | lineStart =>
      have hphase' := h.phase.trans hphase
      exact (hplaced.setPhase .afterIndent).turn_of_takesLine
        (takesLine_afterIndent hdone' rfl rfl)
        (by simp [BlockReader.onSignal, hdone, hphase, BlockReader.onLineStart,
          BlockReader.onAfterIndent, BlockReader.placeIndent, BlockReader.pushExtras])
        (by simp [BlockReader.onSignal, hdone', hphase', BlockReader.onLineStart,
          BlockReader.onAfterIndent, BlockReader.placeIndent, BlockReader.pushExtras])
    | afterIndent =>
      have hphase' := h.phase.trans hphase
      exact hplaced.turn_of_takesLine (takesLine_afterIndent hdone' hphase' rfl)
        (by simp [BlockReader.onSignal, hdone, hphase, BlockReader.onAfterIndent])
        (by simp [BlockReader.onSignal, hdone', hphase', BlockReader.onAfterIndent])
    | itemStart =>
      have hphase' := h.phase.trans hphase
      have hreleased := h.releaseHeld
      by_cases hmode : r.mode = .inline
      · have hmode' : r'.mode = .inline := h.mode.trans hmode
        rw [onSignal_break_inline hdone hphase hmode (.inl rfl),
          onSignal_break_inline hdone' hphase' hmode' (.inr rfl)]
        exact .left (.block hreleased)
      · have hmode' : r'.mode ≠ .inline := by rwa [h.mode]
        refine (hreleased.setPhase .afterItem).turn_afterItem hdone rfl ?_ ?_
        · simp [BlockReader.onSignal, hdone, hphase, BlockReader.onItemStart, TriviaStart.inline?,
            BlockReader.releaseHeld, BlockReader.pushExtras, hmode]
        · simp [BlockReader.onSignal, hdone', hphase', BlockReader.onItemStart,
            TriviaStart.inline?, BlockReader.releaseHeld, BlockReader.pushExtras, hmode']
    | afterItem =>
      have hphase' := h.phase.trans hphase
      exact h.turn_afterItem hdone hphase (by simp [BlockReader.onSignal, hdone, hphase])
        (by simp [BlockReader.onSignal, hdone', hphase'])

end BlockReader

namespace Reader

variable {r r' : Reader} {config : Config}

/-- A state makes the same of a line break in the two spellings. -/
theorem Twin.turn (h : r.Twin r') (htakes : r.TakesBreaks) :
    Agree (Turn config) (r.onSignal config .newLine) (r'.onSignal config .carriageReturn) := by
  cases h with
  | leaf h =>
    obtain ⟨hsettled, rfl⟩ := h
    exact turn_leaf hsettled htakes
  | expression h => exact h.turn
  | group h => exact h.turn htakes
  | sequence h => exact h.turn
  | block h => exact h.turn
  | @root r r' h =>
    have hpushed : RootReader.Twin (r.pushExtras [.ofText .newLine "\n"])
        ((r'.pushExtras [.ofText .carriageReturn "\r"]).pushExtras [.ofText .newLine "\n"]) := by
      have hboth := h.pushExtras Tree.twins_break
      simpa [RootReader.pushExtras, Form.extras] using hboth
    exact .taken rfl (.root hpushed)

end Reader

end ScriptTree
