import ScriptTree.Grammar.Block
import ScriptTree.Proofs.Spellings.Sequences

/-!
# Blocks of the two spellings are read alike

Where a line belongs depends on the white space before it, which is measured alike, and the line
breaks between items are extras.
-/

namespace ScriptTree.BlockReader

variable [ReaderSpelling]

/-- The same item takes one more token. -/
theorem seedNext_twin {x y : Receipt SequenceReader} (hxy : Receipt.Twin SequenceReader.Twin x y)
    {token token' : Tree} (ht : token.Twin token') :
    Agree (Receipt.Twin SequenceReader.Twin) (seedNext x token) (seedNext y token') :=
  (hxy.state.seed ht).bind fun _ _ hseeded =>
    ⟨hseeded.state, List.rel_append hxy.opened hseeded.opened, hseeded.notices⟩

omit [ReaderSpelling] in
/-- An item takes trivia as extras. -/
theorem seedNext_of_isTrivia (x : Receipt SequenceReader) {t : Tree} (h : t.isTrivia) :
    seedNext x t = .ok { state := x.state.pushExtras [t], opened := x.opened } := by
  simp [seedNext, SequenceReader.seed, h, bind, Except.bind, pure, Except.pure]

/-- The same item takes several tokens. -/
theorem seedItem_twin {x y : Receipt SequenceReader} (hxy : Receipt.Twin SequenceReader.Twin x y)
    {ts ts' : List Tree} (hts : Tree.Twins ts ts') :
    Agree (Receipt.Twin SequenceReader.Twin) (ts.foldlM seedNext x) (ts'.foldlM seedNext y) := by
  induction hts generalizing x y with
  | nil => exact hxy
  | cons ht _ ih =>
    rw [List.foldlM_cons, List.foldlM_cons]
    exact (seedNext_twin hxy ht).bind fun _ _ hnext => ih hnext
  | @twice _ _ _ as bs h _ ih =>
    obtain ⟨htwice, rfl, rfl, rfl⟩ := h
    rw [List.foldlM_cons, List.foldlM_cons, seedNext_of_isTrivia x rfl,
      seedNext_of_isTrivia y rfl]
    dsimp only [bind, Except.bind]
    rw [List.foldlM_cons, seedNext_of_isTrivia _ rfl]
    refine ih ⟨{ hxy.state with form := ?_ }, hxy.opened, rfl⟩
    have hbreak : Form.Twin (Form.extras [.ofText .newLine "\n"])
        (Form.extras [.ofText .carriageReturn "\r", .ofText .newLine "\n"]) :=
      .twice ⟨htwice, rfl, rfl, rfl⟩ .nil
    simpa [SequenceReader.pushExtras, Form.extras] using hxy.state.form.append hbreak

namespace Twin

variable {r r' : BlockReader} {token token' : Tree} {ts ts' : List Tree}

theorem itemLevel_eq (h : r.Twin r') : r'.itemLevel = r.itemLevel := by
  unfold itemLevel
  rw [h.level, h.mode]

theorem mode_eq_iff (h : r.Twin r') (mode : BlockMode) : r'.mode = mode ↔ r.mode = mode := by
  rw [h.mode]

theorem isEmpty_held_eq (h : r.Twin r') : r'.held.isEmpty = r.held.isEmpty :=
  h.held.isEmpty_eq

theorem pushExtras (h : r.Twin r') (hts : Tree.Twins ts ts') :
    (r.pushExtras ts).Twin (r'.pushExtras ts') :=
  { h with form := h.form.append (Form.twin_extras hts) }

theorem pushExtra (h : r.Twin r') (ht : token.Twin token') :
    (r.pushExtras [token]).Twin (r'.pushExtras [token']) :=
  h.pushExtras (.singleton ht)

theorem setPhase (h : r.Twin r') (phase : BlockPhase) :
    ({ r with phase } : BlockReader).Twin { r' with phase } :=
  { h with phase := rfl }

theorem setGoal (h : r.Twin r') (goal : BlockGoal) :
    ({ r with goal } : BlockReader).Twin { r' with goal } :=
  { h with goal := rfl }

theorem enter (h : r.Twin r') (goal : BlockGoal) {inner inner' : Reader}
    (hinner : inner.Twin inner') :
    Reaction.Twin Twin (r.enter goal inner) (r'.enter goal inner') :=
  ⟨h.setGoal goal, .enter hinner, rfl⟩

theorem enterComment (h : r.Twin r') :
    Reaction.Twin Twin (r.enterTrivia (.comment "")) (r'.enterTrivia (.comment "")) :=
  h.enter .trivia (Reader.twin_leaf rfl)

theorem enterInline (h : r.Twin r') {signal : Signal} {leaf : LeafReader}
    (hleaf : TriviaStart.inline? signal = some leaf) :
    Reaction.Twin Twin (r.enterTrivia leaf) (r'.enterTrivia leaf) :=
  h.enter .trivia (TriviaStart.twin_of_inline? hleaf)

theorem takeExtra (h : r.Twin r') (kind : LeafKind) (text : String) :
    Reaction.Twin Twin (r.takeExtra kind text) (r'.takeExtra kind text) :=
  ⟨h.pushExtra (Tree.twin_ofText_self kind text), .accept, rfl⟩

theorem absorb (h : r.Twin r') : Reaction.Twin Twin r.absorb r'.absorb :=
  ⟨h.setGoal .trivia, .absorb, rfl⟩

theorem complete (h : r.Twin r') : Reaction.Twin Twin r.complete r'.complete :=
  ⟨h, .complete, rfl⟩

theorem placeTrivia (h : r.Twin r') (hts : Tree.Twins ts ts') :
    (r.placeTrivia ts).Twin (r'.placeTrivia ts') := by
  unfold BlockReader.placeTrivia
  rw [h.isEmpty_held_eq]
  split
  · exact h.pushExtras hts
  · exact { h with held := h.held.append hts }

theorem releasedTokens_twin (hts : Tree.Twins ts ts') :
    Tree.Twins (ts.map releasedToken) (ts'.map releasedToken) := by
  refine hts.map (fun t t' ht => ?_) fun a b c h => ?_
  · rw [releasedToken, releasedToken, ht.isTrivia_eq]
    split
    · exact ht
    · exact ht.invalidated
  · obtain ⟨htwice, rfl, rfl, rfl⟩ := h
    exact ⟨htwice, rfl, rfl, rfl⟩

theorem releaseHeld (h : r.Twin r') : r.releaseHeld.Twin r'.releaseHeld := by
  have hempty : Twin { r with held := [] } { r' with held := [] } := { h with held := .nil }
  exact hempty.pushExtras (releasedTokens_twin h.held)

/-- The white space of the line is the same. -/
theorem indent_twin (h : r.Twin r') : Option.Rel Tree.Twin r.indent r'.indent :=
  h.indent.mono fun _ _ hsame => hsame.twin

/-- The same white space is placed, which the twins need not hold yet. -/
theorem placeIndentOf (h : r.Twin r') {indent indent' : Option Tree}
    (hindent : Option.Rel Tree.Twin indent indent') (isInvalid : Bool) :
    ({ r with indent }.placeIndent isInvalid).Twin
      ({ r' with indent := indent' }.placeIndent isInvalid) := by
  have hnone : Twin { r with indent := none } { r' with indent := none } := { h with indent := .none }
  refine hnone.pushExtras (Aligned.toList (hindent.map fun t t' ht => ?_))
  split
  · exact ht.invalidated
  · exact ht

theorem placeIndent (h : r.Twin r') (isInvalid : Bool) :
    (r.placeIndent isInvalid).Twin (r'.placeIndent isInvalid) :=
  h.placeIndentOf h.indent_twin isInvalid

theorem dedent (h : r.Twin r') {line line' : LineStart} (hline : line.Twin line') :
    (r.dedent line).Twin (r'.dedent line') :=
  { h with line := .some hline, done := rfl }

theorem noticesAtEnd_eq (h : r.Twin r') : r'.noticesAtEnd = r.noticesAtEnd := by
  rw [noticesAtEnd, h.mode, h.level, noticesAtEnd]

/-! ### Signals -/

theorem onHeader (h : r.Twin r') (signal : Signal) :
    Reaction.Twin Twin (r.onHeader signal) (r'.onHeader signal) := by
  unfold BlockReader.onHeader
  split
  · exact (h.setPhase .lineStart).takeExtra _ _
  · exact h.takeExtra _ _
  · exact h.enterComment
  · exact ⟨h, .complete, h.noticesAtEnd_eq⟩
  · split
    · rename_i leaf hleaf
      exact h.enterInline hleaf
    · exact h.absorb

theorem onAfterItem (h : r.Twin r') (signal : Signal) :
    Reaction.Twin Twin (r.onAfterItem signal) (r'.onAfterItem signal) := by
  have hpunct : Tree.Twin (.ofPunct r.kind.separator) (.ofPunct r'.kind.separator) := by
    rw [h.kind]
    exact Tree.twin_ofPunct _
  have hseparates : signal.toChar?.any r'.kind.separator.startsWith =
      signal.toChar?.any r.kind.separator.startsWith := by
    rw [h.kind]
  unfold BlockReader.onAfterItem
  split
  · rename_i leaf hleaf
    exact h.enterInline hleaf
  · dsimp only
    rw [hseparates]
    split
    · exact ⟨(h.setPhase .itemStart).pushExtra hpunct, .accept, rfl⟩
    · simp only [h.mode_eq_iff]
      split
      · exact h.complete
      · split
        · exact (h.setPhase .lineStart).takeExtra _ _
        · exact h.takeExtra _ _
        · exact h.enterComment
        · exact h.complete
        · exact h.absorb

theorem onNoItem (h : r.Twin r') : Reaction.Twin Twin r.onNoItem r'.onNoItem := by
  have hreleased := h.releaseHeld
  unfold BlockReader.onNoItem
  simp only [hreleased.mode_eq_iff]
  split
  · exact hreleased.complete
  · exact hreleased.absorb

theorem itemBegunBy?_eq (h : r.Twin r') (c : Char) : r'.itemBegunBy? c = r.itemBegunBy? c := by
  unfold itemBegunBy?
  rw [h.kind, h.extendsOnly, h.itemLevel_eq]

theorem onItemChar (h : r.Twin r') (c : Char) :
    Reaction.Twin Twin (r.onItemChar c) (r'.onItemChar c) := by
  have hkind : r'.kind ≠ .matchCases ↔ r.kind ≠ .matchCases := by rw [h.kind]
  unfold BlockReader.onItemChar
  simp only [hkind, h.itemBegunBy?_eq, h.itemLevel_eq]
  split
  · exact h.enter .word (Reader.twin_leaf rfl)
  · split
    · exact h.releaseHeld.enter .item (.sequence (SequenceReader.twin_start _ _ _))
    · exact h.onNoItem

theorem onItemStart (h : r.Twin r') (signal : Signal) :
    Reaction.Twin Twin (r.onItemStart signal) (r'.onItemStart signal) := by
  have hreleased := h.releaseHeld
  unfold BlockReader.onItemStart
  split
  · rename_i leaf hleaf
    exact h.enterInline hleaf
  · exact h.onItemChar _
  · simp only [hreleased.mode_eq_iff]
    split
    · exact hreleased.complete
    · exact (hreleased.setPhase .afterItem).onAfterItem _

/-- The same line is begun, with white space that the twins need not hold yet. -/
theorem beginLineOf (h : r.Twin r') {indent indent' : Option Tree}
    (hindent : Option.Rel Tree.Twin indent indent') (level : IndentLevel) :
    ({ r with indent }.beginLine level).Twin ({ r' with indent := indent' }.beginLine level) := by
  have hlevel : ({ r' with indent := indent' } : BlockReader).itemLevel =
      ({ r with indent } : BlockReader).itemLevel := h.itemLevel_eq
  unfold BlockReader.beginLine
  dsimp only
  rw [hlevel]
  exact { h.placeIndentOf hindent _ with phase := rfl, extendsOnly := rfl }

theorem beginLine (h : r.Twin r') (level : IndentLevel) :
    (r.beginLine level).Twin (r'.beginLine level) :=
  h.beginLineOf h.indent_twin level

variable {config : Config}

/-- Only what was read differs between twins. -/
theorem exists_eq (h : r.Twin r') :
    ∃ form indent held line, r' = { r with form, indent, held, line } := by
  obtain ⟨kind, form, mode, level, phase, indent, goal, held, extendsOnly, done, line⟩ := r'
  obtain ⟨hkind, _, hmode, hlevel, hphase, _, hgoal, _, hextendsOnly, hdone, _⟩ := h
  exact ⟨form, indent, held, line, by simp_all⟩

/-- The line is indented alike. -/
theorem measure_eq (h : r.Twin r') (hsuits : ReaderSpelling.Suits config) :
    measure config r'.indent = measure config r.indent := by
  rcases h.indent.none_or_some with ⟨hnone, hnone'⟩ | ⟨_, _, hsome, hsome', hsame⟩
  · rw [hnone, hnone']
  · rw [hsome, hsome', hsame.measure_eq hsuits]

theorem onContent (h : r.Twin r') (hsuits : ReaderSpelling.Suits config) (signal : Signal) :
    Reaction.Twin Twin (BlockReader.onContent config r signal)
      (BlockReader.onContent config r' signal) := by
  have hgoOn {s s' : BlockReader} (hs : s.Twin s') (level : IndentLevel) (notices : Notices) :
      Reaction.Twin Twin { (s.beginLine level).onItemStart signal with notices }
        { (s'.beginLine level).onItemStart signal with notices } :=
    ⟨((hs.beginLine level).onItemStart signal).state,
      ((hs.beginLine level).onItemStart signal).step, rfl⟩
  have hplaced : Twin { r with indent := none } { r' with indent := none } :=
    { h with indent := .none }
  have hlevel (level : Option Nat) : Twin { r with level } { r' with level } :=
    { h with level := rfl }
  have hmeasure := h.measure_eq hsuits
  obtain ⟨form', indent', held', line', rfl⟩ := h.exists_eq
  have hending (level : IndentLevel) :=
    hplaced.dedent (show LineStart.Twin ⟨r.indent, level⟩ ⟨indent', level⟩ from
      ⟨h.indent_twin, rfl⟩)
  unfold BlockReader.onContent
  dsimp only at hmeasure ⊢
  rw [h.itemLevel_eq, hmeasure]
  split
  · split
    · exact ⟨hending _, .complete, rfl⟩
    · exact hgoOn (hlevel _) _ _
  · split
    · exact ⟨hending _, .complete, rfl⟩
    · exact hgoOn h _ _
  · exact hgoOn h _ _
  · exact hgoOn h _ _

theorem onAfterIndent (h : r.Twin r') (hsuits : ReaderSpelling.Suits config) (signal : Signal) :
    Reaction.Twin Twin (BlockReader.onAfterIndent config r signal)
      (BlockReader.onAfterIndent config r' signal) := by
  have hplaced := h.placeIndent false
  unfold BlockReader.onAfterIndent
  split
  · exact (hplaced.setPhase .lineStart).takeExtra _ _
  · exact hplaced.takeExtra _ _
  · exact hplaced.enterComment
  · exact ⟨hplaced, .complete, h.noticesAtEnd_eq⟩
  · exact h.onContent hsuits _

theorem onLineStart (h : r.Twin r') (hsuits : ReaderSpelling.Suits config) (signal : Signal) :
    Reaction.Twin Twin (BlockReader.onLineStart config r signal)
      (BlockReader.onLineStart config r' signal) := by
  have hcontent :
      Reaction.Twin Twin (BlockReader.onAfterIndent config { r with phase := .afterIndent } signal)
        (BlockReader.onAfterIndent config { r' with phase := .afterIndent } signal) :=
    (h.setPhase .afterIndent).onAfterIndent hsuits signal
  unfold BlockReader.onLineStart
  split
  · split
    · exact h.enter .indent (Reader.twin_leaf rfl)
    · exact hcontent
  · exact hcontent

/-- The same signal meets with the same reaction. -/
theorem onSignal (h : r.Twin r') (hsuits : ReaderSpelling.Suits config) (signal : Signal) :
    Reaction.Twin Twin (BlockReader.onSignal config r signal)
      (BlockReader.onSignal config r' signal) := by
  unfold BlockReader.onSignal
  rw [h.done, h.phase]
  split
  · exact h.complete
  · split
    · exact h.onHeader signal
    · exact h.onLineStart hsuits signal
    · exact h.onAfterIndent hsuits signal
    · exact h.onItemStart signal
    · exact h.onAfterItem signal

/-! ### Deliveries -/

theorem itemOfWord?_eq (h : r.Twin r') (ht : token.Twin token') :
    r'.itemOfWord? token' = r.itemOfWord? token := by
  have hget : token'.leafText? = some "get" ↔ token.leafText? = some "get" :=
    ht.leafText?_eq_iff (by decide)
  have hset : token'.leafText? = some "set" ↔ token.leafText? = some "set" :=
    ht.leafText?_eq_iff (by decide)
  unfold itemOfWord?
  rw [h.kind, ht.keyword?_eq, h.itemLevel_eq, Context.canStartWith_eq _ ht]
  split
  · rfl
  · rfl
  · split
    · rename_i heq
      rw [hget.1 heq]
      rfl
    · rename_i heq
      rw [hset.1 heq]
      rfl
    · rename_i hnotGet hnotSet
      split
      · rename_i heq
        exact absurd (hget.2 heq) hnotGet
      · rename_i heq
        exact absurd (hset.2 heq) hnotSet
      · rfl
  · rfl

theorem rejectWord (h : r.Twin r') (ht : token.Twin token') :
    (r.rejectWord token).Twin (r'.rejectWord token') :=
  (h.releaseHeld.pushExtra ht.invalidated).setPhase .afterItem

theorem beginItem (h : r.Twin r') (kind : NodeKind) (ht : token.Twin token') :
    Agree (Receipt.Twin Twin) (r.beginItem kind token) (r'.beginItem kind token') := by
  have hheld : Twin (if kind = .memberVariable ∨ kind = .method then r else r.releaseHeld)
      (if kind = .memberVariable ∨ kind = .method then r' else r'.releaseHeld) := by
    split
    · exact h
    · exact h.releaseHeld
  unfold BlockReader.beginItem
  dsimp only
  generalize (if kind = .memberVariable ∨ kind = .method then r else r.releaseHeld) = s at *
  generalize (if kind = .memberVariable ∨ kind = .method then r' else r'.releaseHeld) = s' at *
  rw [hheld.itemLevel_eq]
  refine (seedItem_twin (Receipt.twin_state (SequenceReader.twin_start kind _ false))
    (hheld.held.append (.singleton ht))).bind fun item item' hitem => ?_
  exact ⟨{ hheld with held := .nil, goal := rfl }, .cons (.sequence hitem.state) hitem.opened, rfl⟩

theorem beginBranch (h : r.Twin r') (kind : NodeKind) (ht : token.Twin token') :
    Agree (Receipt.Twin Twin) (r.beginBranch kind token) (r'.beginBranch kind token') := by
  obtain ⟨hkept, htrailing⟩ := h.form.splitTrailing
  have hchange (form form' : List Entry) (hlink : Form.Twin form form') :
      Form.Twin (form ++ Form.extras (Form.splitTrailing r.form).2)
        (form' ++ Form.extras (Form.splitTrailing r'.form).2) :=
    hlink.append (Form.twin_extras htrailing)
  have hform := Branch.updateLast?_twin hchange hkept
  unfold BlockReader.beginBranch
  dsimp only
  rcases hform.none_or_some with ⟨hnone, hnone'⟩ | ⟨_, _, hsome, hsome', hform⟩
  · rw [hnone, hnone']
    exact Receipt.twin_state (h.rejectWord ht)
  · rw [hsome, hsome', h.itemLevel_eq]
    refine ((SequenceReader.twin_start kind _ false).seed ht).bind fun branch branch' hbranch => ?_
    exact ⟨{ h with form := hform, goal := rfl }, .cons (.sequence hbranch.state) hbranch.opened,
      rfl⟩

theorem onWord (h : r.Twin r') (ht : token.Twin token') :
    Agree (Receipt.Twin Twin) (r.onWord token) (r'.onWord token') := by
  have hkind (kind : BlockKind) : r'.kind = kind ↔ r.kind = kind := by rw [h.kind]
  unfold BlockReader.onWord
  dsimp only
  rw [ht.keyword?_eq, h.extendsOnly, h.isEmpty_held_eq, h.itemOfWord?_eq ht]
  simp only [hkind]
  split
  · exact Receipt.twin_state (h.rejectWord ht)
  · split
    · refine Receipt.twin_state
        { h with held := h.held.append (.singleton ?_), extendsOnly := rfl }
      split
      · exact ht
      · exact ht.invalidated
    · split
      · exact h.beginBranch .ifStatement ht
      · split
        · exact h.beginBranch .elseBranch ht
        · split
          · exact h.beginItem _ ht
          · exact Receipt.twin_state (h.rejectWord ht)

theorem onItem (h : r.Twin r') (ht : token.Twin token') :
    Agree Twin (r.onItem token) (r'.onItem token') := by
  unfold BlockReader.onItem
  refine (h.form.addItem (congrArg BlockKind.nodeKind h.kind) ht).bind fun form form' hform => ?_
  have hplaced : Twin { r with form } { r' with form := form' } := { h with form := hform }
  dsimp only
  rw [ht.nodeKind?_eq]
  split
  · exact hplaced.setPhase .itemStart
  · exact { hplaced with phase := rfl, extendsOnly := rfl }
  · exact hplaced.setPhase .afterItem

theorem onBranch (h : r.Twin r') (ht : token.Twin token') :
    Agree Twin (r.onBranch token) (r'.onBranch token') := by
  unfold BlockReader.onBranch
  refine (agree_self _).bind fun _ _ _ => ?_
  have hchange (form form' : List Entry) (hlink : Form.Twin form form') :
      Form.Twin (Form.setSlot .ifStatement .elseBranch token form)
        (Form.setSlot .ifStatement .elseBranch token' form') :=
    hlink.setSlot ht
  have hform := Branch.updateLast?_twin hchange h.form
  dsimp only
  rcases hform.none_or_some with ⟨hnone, hnone'⟩ | ⟨_, _, hsome, hsome', hform⟩
  · rw [hnone, hnone']
    exact { h with form := h.form.append (Form.twin_extra ht), phase := rfl }
  · rw [hsome, hsome']
    exact { h with form := hform, phase := rfl }

/-- The same token comes, which is measured alike if it is the white space of a line. -/
theorem onToken (h : r.Twin r') {goal : BlockGoal} (ht : token.Twin token')
    (hindent : goal = .indent → Tree.SameLevel ReaderSpelling.Suits token token') :
    Agree (Receipt.Twin Twin) (r.onToken goal token) (r'.onToken goal token') := by
  unfold BlockReader.onToken
  rw [ht.isTrivia_eq, ht.isInvalid_eq]
  have htrivia := Receipt.twin_state (h.placeTrivia (.singleton ht))
  split
  · rename_i hgoal
    exact Receipt.twin_state { h with indent := .some (hindent hgoal.1), phase := rfl }
  · split
    · exact htrivia
    · cases goal with
      | trivia => exact htrivia
      | indent => exact htrivia
      | word => exact h.onWord ht
      | item => exact (h.onItem ht).bind fun _ _ hr => Receipt.twin_state hr
      | branch => exact (h.onBranch ht).bind fun _ _ hr => Receipt.twin_state hr

theorem onLine (h : r.Twin r') {line line' : LineStart} (hline : line.Twin line') :
    Receipt.Twin Twin (r.onLine line) (r'.onLine line') := by
  have hdedent := h.dedent hline
  have hgoOn := h.beginLineOf hline.indent line.level
  have hbelow : (line'.level.units < r'.itemLevel) = (line.level.units < r.itemLevel) := by
    rw [hline.level, h.itemLevel_eq]
  unfold BlockReader.onLine
  dsimp only
  simp only [hline.level] at hgoOn hbelow ⊢
  generalize { r with indent := line.indent }.beginLine line.level = s at *
  generalize { r' with indent := line'.indent }.beginLine line.level = s' at *
  simp only [hbelow]
  rw [h.mode]
  split
  · exact Receipt.twin_state hdedent
  · split
    · exact Receipt.twin_state hdedent
    · exact Receipt.twin_state hgoOn
  · exact ⟨hgoOn, .nil, rfl⟩
  · exact Receipt.twin_state hgoOn

theorem onHandback? (h : r.Twin r') {t? t'? : Option Tree} (ht : Option.Rel Tree.Twin t? t'?) :
    (r.onHandback? t?).Twin (r'.onHandback? t'?) := by
  cases ht with
  | some ht => exact (h.pushExtra ht.invalidated).setPhase .afterItem
  | none => exact h

/-- The same delivery meets with the same receipt. -/
theorem onDelivery (h : r.Twin r') {d d' : Delivery} (hd : d.Twin d')
    (hindent : r.goal = .indent →
      Option.Rel (Tree.SameLevel ReaderSpelling.Suits) d.token d'.token) :
    Agree (Receipt.Twin Twin) (r.onDelivery d) (r'.onDelivery d') := by
  have hleading := (h.setGoal .trivia).placeTrivia hd.leading
  have htoken : Agree (Receipt.Twin Twin)
      (({ r with goal := .trivia }.placeTrivia d.leading).onToken? r.goal d.token)
      (({ r' with goal := .trivia }.placeTrivia d'.leading).onToken? r'.goal d'.token) := by
    rw [h.goal]
    rcases hd.token.none_or_some with ⟨hnone, hnone'⟩ | ⟨_, _, hsome, hsome', ht⟩
    · rw [hnone, hnone']
      exact Receipt.twin_state hleading
    · rw [hsome, hsome'] at hindent ⊢
      exact hleading.onToken ht fun hgoal => by
        cases hindent hgoal with
        | some hsame => exact hsame
  refine htoken.bind fun placed placed' hplaced => ?_
  have hhanded := (hplaced.state.pushExtras hd.trailing).onHandback? hd.handback
  have hline : Receipt.Twin Twin
      (((placed.state.pushExtras d.trailing).onHandback? d.handback).onLine? d.line)
      (((placed'.state.pushExtras d'.trailing).onHandback? d'.handback).onLine? d'.line) := by
    rcases hd.line.none_or_some with ⟨hnone, hnone'⟩ | ⟨_, _, hsome, hsome', hline⟩
    · rw [hnone, hnone']
      exact Receipt.twin_state hhanded
    · rw [hsome, hsome']
      exact hhanded.onLine hline
  exact ⟨hline.state, hplaced.opened, hline.notices⟩

/-- The same block is delivered. -/
theorem finish (h : r.Twin r') : r.finish.Twin r'.finish := by
  have hreleased := h.releaseHeld
  have hplaced : Twin
      (if r.releaseHeld.line.isNone then r.releaseHeld.placeIndent false else r.releaseHeld)
      (if r'.releaseHeld.line.isNone then r'.releaseHeld.placeIndent false
        else r'.releaseHeld) := by
    rw [hreleased.line.isNone_eq]
    split
    · exact hreleased.placeIndent false
    · exact hreleased
  unfold BlockReader.finish
  dsimp only
  generalize (if r.releaseHeld.line.isNone then r.releaseHeld.placeIndent false
    else r.releaseHeld) = s at *
  generalize (if r'.releaseHeld.line.isNone then r'.releaseHeld.placeIndent false
    else r'.releaseHeld) = s' at *
  obtain ⟨hkept, htrailing⟩ := hplaced.form.splitTrailing
  have hnode : Tree.Twin (.ofForm s.kind.nodeKind (Form.splitTrailing s.form).1)
      (.ofForm s'.kind.nodeKind (Form.splitTrailing s'.form).1) := by
    rw [hplaced.kind]
    exact Tree.twin_ofForm _ hkept
  exact ⟨.nil, .some hnode, htrailing, .none, hplaced.line⟩

end Twin

end ScriptTree.BlockReader
