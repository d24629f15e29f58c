import ScriptTree.Proofs.RoundTrip.Productions

/-!
# Items of a block

A word at the beginning of a line opens the item that it begins. An item on a single line ends at
the line break. One that announces a block ends together with that block, at the first line that
belongs to a block around it, or with the text.
-/

namespace ScriptTree

open Automaton (Reaches Feeds Delivers ofStack TakesLine AwaitsLine)

variable {config : Config} {kind : BlockKind} {mode : BlockMode} {level : Nat} {form : List Entry}
  {below : List Reader} {w : String} {nodeKind : NodeKind} {t : Tree}

/-- A block of which something is being read that begins on the current line. -/
def blockInside (kind : BlockKind) (mode : BlockMode) (level : Nat) (goal : BlockGoal)
    (form : List Entry) : BlockReader :=
  { blockAt kind mode (some level) .itemStart form with goal }

namespace BlockReader

/-- What a state inside read goes where the state was opened for; the extras after it and the
beginning of a line come next. -/
theorem onDelivery_of_onToken {r r' : BlockReader} {opened : List Reader}
    (h : { r with goal := .trivia }.onToken r.goal t = .ok { state := r', opened })
    (trailing : List Tree) (line? : Option LineStart) :
    (Reader.block r).onDelivery { token := some t, trailing, line := line? } =
      .ok ({ (r'.pushExtras trailing).onLine? line? with opened }.map .block) := by
  simp only [Reader.onDelivery, onDelivery, placeTrivia_nil, onToken?, h, bind, Except.bind]
  rfl

/-- A word opens what it begins. -/
theorem reaches_opened (hconfig : config.IsUnlimited) (hkind : kind ≠ .matchCases)
    (hw : Text.isWord w.toList = true) {r : BlockReader} {opened : List Reader}
    (honWord : (blockAt kind mode (some level) .itemStart form).onWord (wordTree w) =
      .ok { state := r, opened }) :
    Reaches config Signal.EndsWord
      (ofStack (.block (blockAt kind mode (some level) .itemStart form) :: below)) w.toList
      (ofStack (opened.reverse ++ .block r :: below)) := by
  obtain ⟨c, cs, hlist, hc⟩ := Text.exists_cons_of_isWord hw
  obtain ⟨htrivia, hinvalid, _⟩ := wordTree_leafKind? w
  have htoken : (blockAt kind mode (some level) .itemStart form).onToken .word (wordTree w) =
      .ok { state := r, opened } := by
    simp [onToken, htrivia, hinvalid, honWord]
  have hdelivery := onDelivery_of_onToken
    (r := blockInside kind mode level .word form) htoken [] none
  rw [pushExtras_nil] at hdelivery
  have hsignal : (Reader.block (blockAt kind mode (some level) .itemStart form)).onSignal config
      (.char c) = .ok ⟨.block (blockInside kind mode level .word form), .enter (.leaf (.word "")),
        {}⟩ :=
    onSignal_itemStart hkind hc
  have hhands : (Reader.leaf (.word w)).HandsTo config
      (.block (blockInside kind mode level .word form))
      (opened.reverse ++ [.block r]) :=
    ⟨_, _, Reader.finish_leaf_of_token? (LeafReader.token?_word w) config, hdelivery, rfl, rfl⟩
  rw [List.append_cons]
  exact (Automaton.spells_word hw).reaches hconfig hlist hsignal hhands

theorem releaseHeld_blockAt (level? : Option Nat) (phase : BlockPhase) :
    (blockAt kind mode level? phase form).releaseHeld = blockAt kind mode level? phase form := by
  simp [releaseHeld, blockAt, pushExtras]

/-- The word that begins an item. -/
theorem onWord_item {item : SequenceReader} {inner : List Reader}
    (hplain : t.keyword? ∉ [some .staticKw, some .elifKw, some .elseKw])
    (hitem : (blockAt kind mode (some level) .itemStart form).itemOfWord? t = some nodeKind)
    (hseed : (SequenceReader.start nodeKind level false).seed t =
      .ok { state := item, opened := inner }) :
    (blockAt kind mode (some level) .itemStart form).onWord t =
      .ok { state := blockInside kind mode level .item form,
            opened := .sequence item :: inner } := by
  simp only [List.mem_cons, List.not_mem_nil, or_false, not_or] at hplain
  have hbegin : (blockAt kind mode (some level) .itemStart form).beginItem nodeKind t =
      .ok { state := blockInside kind mode level .item form,
            opened := .sequence item :: inner } := by
    have hheld : (blockAt kind mode (some level) .itemStart form).held = [] := rfl
    have hlevel : (blockAt kind mode (some level) .itemStart form).itemLevel = level := rfl
    simp only [beginItem, releaseHeld_blockAt, ite_self, hheld, hlevel, seedItem, seedNext,
      List.nil_append, List.foldlM_cons, List.foldlM_nil, hseed, bind, Except.bind]
    rfl
  have hextends : (blockAt kind mode (some level) .itemStart form).extendsOnly = false := rfl
  simp only [onWord, hextends, hplain, hitem, hbegin]
  simp

/-- Only a block of a single item notices that a line escapes from it. -/
theorem notices_onLine? {r : BlockReader} (hmode : r.mode ≠ .single) (line? : Option LineStart) :
    (r.onLine? line?).notices = {} := by
  cases line? with
  | none => rfl
  | some line =>
    obtain ⟨_, _, mode, _⟩ := r
    cases mode <;> first | rfl | exact absurd rfl hmode

/-- A state inside ends and hands over what it read, with the extras after it and the beginning of
a line. -/
theorem handsTo_of_onToken {r r' : BlockReader} {top : Reader} {trailing : List Tree}
    {line? : Option LineStart}
    (hfinish : top.finish config = .ok { token := some t, trailing, line := line? })
    (h : { r with goal := .trivia }.onToken r.goal t = .ok { state := r' })
    (hmode : r'.mode ≠ .single) :
    top.HandsTo config (.block r) [.block ((r'.pushExtras trailing).onLine? line?).state] :=
  ⟨_, _, hfinish, onDelivery_of_onToken h trailing line?,
    notices_onLine? (r := r'.pushExtras trailing) hmode line?, rfl⟩

/-- An item goes to the end of its block. -/
theorem onToken_item {children : List Entry}
    (hends : nodeKind ≠ .annotationUse ∧ nodeKind ≠ .classNameClause) :
    (blockAt kind mode (some level) .itemStart form).onToken .item (.ofForm nodeKind children) =
      .ok { state := blockAt kind mode (some level) .afterItem
              (form ++ [(Role.item, Tree.ofForm nodeKind children)]) } := by
  have hitems : kind.nodeKind.hasItems := by cases kind <;> rfl
  have hitem : (blockAt kind mode (some level) .itemStart form).onItem (.ofForm nodeKind children) =
      .ok (blockAt kind mode (some level) .afterItem
        (form ++ [(Role.item, Tree.ofForm nodeKind children)])) := by
    have hkind : (blockAt kind mode (some level) .itemStart form).kind = kind := rfl
    have hform : (blockAt kind mode (some level) .itemStart form).form = form := rfl
    have hnode : (Tree.ofForm nodeKind children).nodeKind? = some nodeKind := rfl
    simp only [onItem, hkind, hform, Form.addItem_of_hasItems _ form hitems, hnode]
    cases nodeKind <;> first | rfl | simp at hends
  have hplain : (Tree.ofForm nodeKind children).isTrivia = false ∧
      (Tree.ofForm nodeKind children).isInvalid = false := ⟨rfl, rfl⟩
  simp [onToken, hplain, hitem]

/-- A line break after an item begins the next line. -/
theorem delivers_lineBreak (hmode : mode.HasLinesAt level) :
    Delivers config .newLine
      (ofStack (.block (blockAt kind mode (some level) .afterItem form) :: below))
      (ofStack (.block (blockAt kind mode (some level) .lineStart
        (form ++ [(Role.extra, lineBreak)])) :: below)) := by
  refine Automaton.delivers_accept ?_
  have hinline : mode ≠ .inline := by
    rintro rfl
    exact hmode
  have hseparator : kind.separator.startsWith '\n' = false := by cases kind <;> decide
  simp [Reader.onSignal, onSignal, blockAt, onAfterItem, TriviaStart.inline?, Signal.toChar?,
    hseparator, hinline, takeExtra, pushExtras]
  rfl

/-- What a block delivers when it ends, where the line break after its last item comes with it. -/
theorem finish_lines {r : BlockReader} {lines : List Entry} (hheld : r.held = [])
    (hindent : r.indent = none) (hform : r.form = lines ++ [(Role.extra, lineBreak)])
    (hlines : ∃ before last, lines = before ++ [(Role.item, last)]) :
    r.finish = { token := some (.ofForm r.kind.nodeKind lines), trailing := [lineBreak],
                 line := r.line } := by
  obtain ⟨before, last, rfl⟩ := hlines
  have hsplit : Form.splitTrailing (before ++ [(Role.item, last)] ++ [(Role.extra, lineBreak)]) =
      (before ++ [(Role.item, last)], [lineBreak]) := by
    rw [List.append_assoc]
    exact Form.splitTrailing_append_extras (nofun : Role.item ≠ .extra) last before [lineBreak]
  obtain ⟨_, _, _, _, _, _, _, _, _, _, _⟩ := r
  obtain rfl := hheld
  obtain rfl := hindent
  obtain rfl := hform
  simp only [finish, releaseHeld, pushExtras, placeIndent, List.map_nil, Form.extras_nil,
    List.append_nil, Option.map_none, Option.toList_none, ite_self, hsplit]

end BlockReader

/-- A production whose last part, a block, is being read. -/
def seqAround (kind : NodeKind) (level : Nat) (form : List Entry) (p : Part) : SequenceReader :=
  { seqAt kind level form [p] with active := some (p, []) }

/-- The same production when it has the block, and the line break after the block. -/
def seqBehind (kind : NodeKind) (level : Nat) (form : List Entry) (p : Part) (block : Tree) :
    SequenceReader :=
  seqAt kind level (form ++ [(Role.slot p.slot, block), (Role.extra, lineBreak)]) []

namespace SequenceReader

variable {p : Part} {blockKind : BlockKind} {block : Tree}

/-- The end of a line, where it says nothing about a colon before it. -/
theorem onSignal_newLine {r : SequenceReader} (hdone : r.done = false)
    (hbefore : r.beforePart .newLine = .ok r) :
    r.onSignal .newLine = match r.startable? .newLine r.remaining with
      | some (part, rest) => r.startPart part rest .newLine
      | none => .ok ⟨r, .complete, {}⟩ := by
  simp only [onSignal, hdone, TriviaStart.inline?, hbefore]
  rfl

/-- A block on lines of its own begins with the line break after the colon. -/
theorem delivers_blockStart (hconfig : config.IsUnlimited) (hshape : p.shape = .block blockKind)
    (hmet : (seqAt nodeKind level form [p]).requirementMet p = true)
    (hkind : nodeKind ≠ .memberVariable) :
    Delivers config .newLine (ofStack (.sequence (seqAt nodeKind level form [p]) :: below))
      (ofStack
        (.block (blockAt blockKind (.indented level) none .lineStart [(.extra, lineBreak)]) ::
        .sequence (seqAround nodeKind level form p) :: below)) := by
  obtain ⟨slot, shape, requires⟩ := p
  obtain rfl : shape = .block blockKind := hshape
  have hstart : (seqAt nodeKind level form [⟨slot, .block blockKind, requires⟩]).startable?
      .newLine [⟨slot, .block blockKind, requires⟩] =
        some (⟨slot, .block blockKind, requires⟩, []) :=
    startable?_head hmet rfl
  have hbefore : (seqAt nodeKind level form [⟨slot, .block blockKind, requires⟩]).beforePart
      .newLine = .ok (seqAt nodeKind level form [⟨slot, .block blockKind, requires⟩]) :=
    if_neg fun h => hkind h.2
  have hremaining : (seqAt nodeKind level form [⟨slot, .block blockKind, requires⟩]).remaining =
      [⟨slot, .block blockKind, requires⟩] := rfl
  have htop : (Reader.sequence (seqAt nodeKind level form
      [⟨slot, .block blockKind, requires⟩])).onSignal config .newLine =
        .ok ⟨.sequence (seqAround nodeKind level form ⟨slot, .block blockKind, requires⟩),
          .enter (.block (.onLinesAfter blockKind level)), {}⟩ := by
    simp [Reader.onSignal, onSignal_newLine rfl hbefore, hremaining, hstart, startPart,
      partReader?]
    rfl
  exact Automaton.delivers_enter hconfig htop (Automaton.delivers_accept rfl)

/-- A block ends, and the line break after its last line comes behind it. -/
theorem handsTo_block {top : Reader} {line? : Option LineStart}
    (hfinish : top.finish config =
      .ok { token := some block, trailing := [lineBreak], line := line? })
    (hplain : block.isTrivia = false ∧ block.isInvalid = false)
    (hshape : p.shape = .block blockKind)
    (hplace : Form.place nodeKind p.slot block form = .ok (form ++ [(Role.slot p.slot, block)])) :
    top.HandsTo config (.sequence (seqAround nodeKind level form p))
      [.sequence ((seqBehind nodeKind level form p block).onLine? line?)] := by
  have htoken : (seqAt nodeKind level form [p]).onToken (some (p, [])) block =
      .ok { state := seqAt nodeKind level (form ++ [(Role.slot p.slot, block)]) [] } :=
    onToken_inner hplain.1 hplain.2 (by rw [hshape]; rfl) hplace
  have hdelivery := onDelivery_ended
    (r := seqAround nodeKind level form p) htoken [lineBreak] line?
  refine .of_onDelivery hfinish (hdelivery.trans ?_)
  simp [pushExtras, seqBehind, seqAt]

/-- A production that has its block delivers it as its last child. -/
theorem finish_seqBehind (line? : Option LineStart) :
    ((seqBehind nodeKind level form p block).onLine? line?).finish =
      { token := some (.ofForm nodeKind (form ++ [(Role.slot p.slot, block)])),
        trailing := [lineBreak], line := line? } := by
  have hsplit : Form.splitTrailing (form ++ [(Role.slot p.slot, block), (Role.extra, lineBreak)]) =
      (form ++ [(Role.slot p.slot, block)], [lineBreak]) :=
    Form.splitTrailing_append_extras (nofun : Role.slot p.slot ≠ .extra) block form [lineBreak]
  cases line? <;> simp [finish, onLine?, seqBehind, seqAt, hsplit]

/-- Nothing is missing from a production that has its block. -/
theorem isBodyMissing_seqBehind
    (hblock : ∀ q ∈ Production.parts nodeKind, q.isBlock = true → q.slot = p.slot) :
    (seqBehind nodeKind level form p block).isBodyMissing = false := by
  rw [isBodyMissing, List.any_eq_false]
  intro q hq
  have hslot := hblock q hq
  split
  · rename_i hshape
    have hisBlock : q.isBlock = true := by rw [Part.isBlock, hshape]
    simp [hslot hisBlock, seqBehind, seqAt, Form.isFilled]
  · exact Bool.false_ne_true

/-- A production that was ended by the beginning of a line leaves every signal to the block
around it. -/
theorem onSignal_ended (r : SequenceReader) (line : LineStart) (signal : Signal) :
    (Reader.sequence (r.onLine? (some line))).onSignal config signal =
      .ok ⟨.sequence (r.onLine? (some line)), .complete, {}⟩ := by
  simp [Reader.onSignal, onSignal, onLine?]
  rfl

/-- A production of which nothing is missing ends with the text. -/
theorem onSignal_endOfText {r : SequenceReader} (hdone : r.done = false)
    (hmissing : r.isBodyMissing = false) :
    (Reader.sequence r).onSignal config .endOfText = .ok ⟨.sequence r, .complete, {}⟩ := by
  simp [Reader.onSignal, onSignal, TriviaStart.inline?, hdone, hmissing]
  rfl

end SequenceReader

/-- Where the lines of a block inside come to an end, the block around the construct is handed what
comes next. -/
theorem Automaton.AwaitsLine.of_body {a : Automaton} {p : Part} {blockKind : BlockKind}
    {lines : List Entry} {outer outer' : BlockReader} (hconfig : config.IsUnlimited)
    (hinner : AwaitsLine config (level + 1) a
      (blockAt blockKind (.indented level) (some (level + 1)) .afterItem
        (lines ++ [(Role.extra, lineBreak)]))
      (.sequence (seqAround nodeKind level form p) :: .block outer :: below))
    (hlines : ∃ before last, lines = before ++ [(Role.item, last)])
    (hshape : p.shape = .block blockKind)
    (hplace : Form.place nodeKind p.slot (Tree.ofForm blockKind.nodeKind lines) form =
      .ok (form ++ [(Role.slot p.slot, Tree.ofForm blockKind.nodeKind lines)]))
    (hblock : ∀ q ∈ Production.parts nodeKind, q.isBlock = true → q.slot = p.slot)
    (htoken : { outer with goal := .trivia }.onToken outer.goal
      (.ofForm nodeKind (form ++ [(Role.slot p.slot, Tree.ofForm blockKind.nodeKind lines)])) =
        .ok { state := outer' }) (hmode : outer'.mode ≠ .single) :
    AwaitsLine config level a (outer'.pushExtras [lineBreak]) below := by
  have hclose {line? : Option LineStart} {signal : Signal} {r r' : BlockReader} {d : Automaton}
      (hr : (Reader.block r).onSignal config signal = .ok ⟨.block r', .complete, {}⟩)
      (hfinish : r'.finish = { token := some (.ofForm blockKind.nodeKind lines),
                               trailing := [lineBreak], line := line? })
      (hseq : (Reader.sequence ((seqBehind nodeKind level form p
          (.ofForm blockKind.nodeKind lines)).onLine? line?)).onSignal config signal =
        .ok ⟨.sequence ((seqBehind nodeKind level form p
          (.ofForm blockKind.nodeKind lines)).onLine? line?), .complete, {}⟩)
      (hd : Delivers config signal
        (ofStack (.block ((outer'.pushExtras [lineBreak]).onLine? line?).state :: below)) d) :
      Delivers config signal (ofStack (.block r :: .sequence (seqAround nodeKind level form p) ::
        .block outer :: below)) d := by
    have hhands : (Reader.sequence ((seqBehind nodeKind level form p
        (.ofForm blockKind.nodeKind lines)).onLine? line?)).HandsTo config (.block outer)
          [.block ((outer'.pushExtras [lineBreak]).onLine? line?).state] :=
      BlockReader.handsTo_of_onToken (congrArg Except.ok (SequenceReader.finish_seqBehind line?))
        htoken hmode
    have hhandsInner : (Reader.block r').HandsTo config
        (.sequence (seqAround nodeKind level form p)) [.sequence ((seqBehind nodeKind level form p
          (.ofForm blockKind.nodeKind lines)).onLine? line?)] :=
      SequenceReader.handsTo_block (congrArg Except.ok hfinish) ⟨rfl, rfl⟩ hshape hplace
    exact Automaton.delivers_complete hconfig hr hhandsInner
      (Automaton.delivers_complete hconfig hseq hhands hd)
  constructor
  case line =>
    intro m hm c d hc hd
    have hlt : m < level + 1 := Nat.lt_succ_of_le hm
    have hinside : BlockMode.HasLinesAt (level + 1) (.indented level) := rfl
    refine hinner.line m (Nat.le_succ_of_le hm) c d hc ?_
    rw [BlockReader.onLine_of_lt hinside hlt]
    exact hclose rfl (BlockReader.finish_lines rfl rfl rfl hlines)
      (SequenceReader.onSignal_ended _ (lineAt m) _) hd
  case endOfText =>
    intro d hd
    refine hinner.endOfText d ?_
    exact hclose BlockReader.onSignal_endOfText (BlockReader.finish_lines rfl rfl rfl hlines)
      (SequenceReader.onSignal_endOfText rfl (SequenceReader.isBodyMissing_seqBehind hblock)) hd

end ScriptTree
