import ScriptTree.Proofs.RoundTrip.Items

/-!
# Blocks line by line

What reads as lines of a block adds its children to the block, wherever the block stands and
whatever it has read before.
-/

namespace ScriptTree

open Automaton (Reaches Feeds Delivers ofStack TakesLine AwaitsLine Begins)
open SequenceReader (Heads)
open Production (after)

variable {config : Config} {kind blockKind : BlockKind} {mode : BlockMode} {level : Nat}
  {form lines lines' : List Entry} {cs ds : List Char} {below : List Reader} {word : Keyword}
  {nodeKind : NodeKind} {a : Automaton}

/-- The characters are read as lines of a block of the given level, with the given children. -/
def ReadsLines (config : Config) (level : Nat) (kind : BlockKind) (cs : List Char)
    (lines : List Entry) : Prop :=
  ∀ (mode : BlockMode) (form : List Entry) (below : List Reader) (a : Automaton),
    mode.HasLinesAt level →
    TakesLine config level a
      (ofStack (.block (blockAt kind mode (some level) .itemStart (form ++ indentForm level)) ::
        below)) →
    ∃ b, Feeds config a cs b ∧ AwaitsLine config level b
      (blockAt kind mode (some level) .afterItem (form ++ lines ++ [(Role.extra, lineBreak)])) below

/-- Lines after one another. -/
theorem ReadsLines.append (h : ReadsLines config level kind cs lines)
    (h' : ReadsLines config level kind ds lines') :
    ReadsLines config level kind (cs ++ ds) (lines ++ (Role.extra, lineBreak) :: lines') := by
  intro mode form below a hmode ha
  obtain ⟨b, hfeeds, hawaits⟩ := h mode form below a hmode ha
  have hline := hawaits.line level (Nat.le_refl level)
  rw [BlockReader.onLine_eq hmode] at hline
  obtain ⟨b', hfeeds', hawaits'⟩ :=
    h' mode (form ++ lines ++ [(Role.extra, lineBreak)]) below b hmode hline
  exact ⟨b', hfeeds.append hfeeds', by simpa using hawaits'⟩

/-- The lines of a block of their own, from its first line on. -/
theorem ReadsLines.inner (h : ReadsLines config (level + 1) kind cs lines)
    (hconfig : config.IsUnlimited) (hkind : kind ≠ .matchCases) (below : List Reader) :
    ∃ b, Feeds config (ofStack (.block (blockAt kind (.indented level) none .lineStart
        [(.extra, lineBreak)]) :: below)) cs b ∧
      AwaitsLine config (level + 1) b (blockAt kind (.indented level) (some (level + 1)) .afterItem
        ((.extra, lineBreak) :: lines ++ [(Role.extra, lineBreak)])) below :=
  h (.indented level) [(.extra, lineBreak)] below _ rfl (BlockReader.takesLine_first hconfig hkind)

/-- An item on a line of its own. -/
theorem readsLines_item (hconfig : config.IsUnlimited) (hkind : kind ≠ .matchCases) {t : Tree}
    (hcs : ∃ c rest, cs = c :: rest ∧ Text.isWordStart c = true)
    (hread : ∀ mode form below, mode.HasLinesAt level → Reaches config Signal.IsNewLine
      (ofStack (.block (blockAt kind mode (some level) .itemStart form) :: below)) cs
      (ofStack (.block (blockAt kind mode (some level) .afterItem (form ++ [(Role.item, t)])) ::
        below))) :
    ReadsLines config level kind (tabs level ++ (cs ++ ['\n']))
      (indentForm level ++ [(Role.item, t)]) := by
  intro mode form below a hmode ha
  obtain ⟨c, rest, rfl, hc⟩ := hcs
  have hbreak : Feeds config (ofStack (.block (blockAt kind mode (some level) .afterItem
      (form ++ indentForm level ++ [(Role.item, t)])) :: below)) ['\n']
      (ofStack (.block (blockAt kind mode (some level) .lineStart
        (form ++ indentForm level ++ [(Role.item, t)] ++ [(Role.extra, lineBreak)])) :: below)) :=
    .cons (BlockReader.delivers_lineBreak hmode) (.nil _)
  have hline := (hread mode (form ++ indentForm level) below hmode).feeds hbreak
    (Automaton.begins_cons rfl)
  refine ⟨_, ha.feeds hc hline, ?_⟩
  rw [← List.append_assoc]
  exact BlockReader.awaitsLine_lineStart hconfig hmode hkind

/-- A line that announces a block, up to the first line of the block. -/
theorem feeds_heading (hconfig : config.IsUnlimited) (hkind : kind ≠ .matchCases) {slot : Slot}
    {outer : BlockReader}
    (hword : (blockAt kind mode (some level) .itemStart lines).onWord (keywordTree word) =
      .ok { state := outer
            opened := [.sequence (seqAt nodeKind level [(.slot .keyword, keywordTree word)]
              (Production.partsAfterKeyword nodeKind))] })
    (hheads : Heads config nodeKind level word cs form slot blockKind)
    (hcs : Begins Signal.EndsWord cs) (hnode : nodeKind ≠ .memberVariable) :
    Feeds config (ofStack (.block (blockAt kind mode (some level) .itemStart lines) :: below))
      (word.spelling.toList ++ (cs ++ ['\n']))
      (ofStack
        (.block (blockAt blockKind (.indented level) none .lineStart [(.extra, lineBreak)]) ::
        .sequence (seqAround nodeKind level (form ++ [(Role.slot .colon, Tree.ofPunct .colon)])
          (after .colon slot (.block blockKind))) :: .block outer :: below)) := by
  have honWord : (blockAt kind mode (some level) .itemStart lines).onWord
      (wordTree word.spelling) = _ := (congrArg _ (wordTree_spelling word)).trans hword
  have hopened : Reaches config Signal.EndsWord
      (ofStack (.block (blockAt kind mode (some level) .itemStart lines) :: below))
      word.spelling.toList
      (ofStack (.sequence (seqAt nodeKind level [(.slot .keyword, keywordTree word)]
        (Production.partsAfterKeyword nodeKind)) :: .block outer :: below)) :=
    BlockReader.reaches_opened hconfig hkind (Keyword.isWord_spelling word) honWord
  have hmet : (seqAt nodeKind level (form ++ [(Role.slot .colon, Tree.ofPunct .colon)])
      [after .colon slot (.block blockKind)]).requirementMet
        (after .colon slot (.block blockKind)) = true := by
    simp [SequenceReader.requirementMet, after, seqAt, Form.isFilled]
  have hbreak : Feeds config (ofStack (.sequence (seqAt nodeKind level
      (form ++ [(Role.slot .colon, Tree.ofPunct .colon)]) [after .colon slot (.block blockKind)]) ::
        .block outer :: below)) ['\n'] _ :=
    .cons (SequenceReader.delivers_blockStart hconfig rfl hmet hnode) (.nil _)
  exact hopened.feeds ((hheads.feeds _).append hbreak) hcs.append

/-- A line that announces a block, and the lines of the block. -/
theorem exists_announced (hconfig : config.IsUnlimited) (hkind : kind ≠ .matchCases)
    {slot : Slot} {before : List Entry} {outer outer' : BlockReader}
    (ha : TakesLine config level a
      (ofStack (.block (blockAt kind mode (some level) .itemStart before) :: below)))
    (hword : (blockAt kind mode (some level) .itemStart before).onWord (keywordTree word) =
      .ok { state := outer
            opened := [.sequence (seqAt nodeKind level [(.slot .keyword, keywordTree word)]
              (Production.partsAfterKeyword nodeKind))] })
    (hheads : Heads config nodeKind level word cs form slot blockKind)
    (hcs : Begins Signal.EndsWord cs) (hnode : nodeKind ≠ .memberVariable)
    (hblockKind : blockKind ≠ .matchCases)
    (hbody : ReadsLines config (level + 1) blockKind ds lines)
    (hlines : ∃ before last, lines = before ++ [(Role.item, last)])
    (htoken : { outer with goal := .trivia }.onToken outer.goal
      (.ofForm nodeKind (form ++ announcedForm slot blockKind lines)) = .ok { state := outer' })
    (hmode : outer'.mode ≠ .single) :
    ∃ b, Feeds config a (tabs level ++ (word.spelling.toList ++ (cs ++ '\n' :: ds))) b ∧
      AwaitsLine config level b (outer'.pushExtras [lineBreak]) below := by
  obtain ⟨c, rest, hlist, hc⟩ := Text.exists_cons_of_isWord (Keyword.isWord_spelling word)
  obtain ⟨b, hfeeds, hawaits⟩ := hbody.inner hconfig hblockKind
    (.sequence (seqAround nodeKind level (form ++ [(Role.slot .colon, Tree.ofPunct .colon)])
      (after .colon slot (.block blockKind))) :: .block outer :: below)
  have hline := (feeds_heading hconfig hkind hword hheads hcs hnode).append hfeeds
  rw [hlist, List.cons_append, List.cons_append] at hline
  refine ⟨b, ?_, ?_⟩
  · rw [hlist]
    simpa using ha.feeds hc hline
  · obtain ⟨init, last, rfl⟩ := hlines
    refine hawaits.of_body hconfig ⟨(.extra, lineBreak) :: init, last, rfl⟩ rfl (hheads.place _)
      hheads.block ?_ hmode
    simpa [announcedForm, bodyTree, after] using htoken

/-! ### Items -/

/-- In a block of the kind the reserved word opens an item of the kind of node. -/
structure BlockReader.Opens (kind : BlockKind) (level : Nat) (word : Keyword)
    (nodeKind : NodeKind) : Prop where
  plain : word ∉ [.staticKw, .elifKw, .elseKw]
  item : ∀ mode form, (blockAt kind mode (some level) .itemStart form).itemOfWord?
    (keywordTree word) = some nodeKind
  seed : (SequenceReader.start nodeKind level false).seed (keywordTree word) =
    .ok { state := seqAt nodeKind level [(.slot .keyword, keywordTree word)]
            (Production.partsAfterKeyword nodeKind) }
  ends : nodeKind ≠ .annotationUse ∧ nodeKind ≠ .classNameClause

theorem BlockReader.Opens.onWord_eq (h : BlockReader.Opens kind level word nodeKind)
    (mode : BlockMode) (before : List Entry) :
    (blockAt kind mode (some level) .itemStart before).onWord (keywordTree word) =
      .ok { state := blockInside kind mode level .item before
            opened := [.sequence (seqAt nodeKind level [(.slot .keyword, keywordTree word)]
              (Production.partsAfterKeyword nodeKind))] } :=
  BlockReader.onWord_item (by simpa using h.plain) (h.item mode before) h.seed

/-- An item that announces a block. -/
theorem readsLines_announced (hconfig : config.IsUnlimited) (hkind : kind ≠ .matchCases)
    {slot : Slot} (hopens : BlockReader.Opens kind level word nodeKind)
    (hheads : Heads config nodeKind level word cs form slot blockKind)
    (hcs : Begins Signal.EndsWord cs) (hnode : nodeKind ≠ .memberVariable)
    (hblockKind : blockKind ≠ .matchCases)
    (hbody : ReadsLines config (level + 1) blockKind ds lines)
    (hlines : ∃ before last, lines = before ++ [(Role.item, last)]) :
    ReadsLines config level kind (tabs level ++ (word.spelling.toList ++ (cs ++ '\n' :: ds)))
      (indentForm level ++
        [(Role.item, Tree.ofForm nodeKind (form ++ announcedForm slot blockKind lines))]) := by
  intro mode before below a hmode ha
  have hword := hopens.onWord_eq mode (before ++ indentForm level)
  have hsingle : mode ≠ .single := by
    rintro rfl
    exact hmode
  obtain ⟨b, hfeeds, hawaits⟩ := exists_announced hconfig hkind ha hword hheads hcs hnode hblockKind
    hbody hlines (BlockReader.onToken_item hopens.ends) hsingle
  refine ⟨b, hfeeds, ?_⟩
  simpa [BlockReader.pushExtras, blockAt, blockInside] using hawaits

/-- An item ends with the line when none of its parts may begin there. -/
theorem reaches_lineEnd (hconfig : config.IsUnlimited) {remaining : List Part} {slot : Slot}
    {last : Tree} {before : List Entry} (form : List Entry)
    (hends : nodeKind ≠ .annotationUse ∧ nodeKind ≠ .classNameClause)
    (hmode : mode ≠ .single)
    (hbefore :
      (seqAt nodeKind level (form ++ [(Role.slot slot, last)]) remaining).beforePart .newLine =
        .ok (seqAt nodeKind level (form ++ [(Role.slot slot, last)]) remaining))
    (hstart : (seqAt nodeKind level (form ++ [(Role.slot slot, last)]) remaining).startable?
      .newLine remaining = none) :
    Reaches config Signal.IsNewLine
      (ofStack (.sequence (seqAt nodeKind level (form ++ [(Role.slot slot, last)]) remaining) ::
        .block (blockInside kind mode level .item before) :: below)) []
      (ofStack (.block (blockAt kind mode (some level) .afterItem
        (before ++ [(Role.item, Tree.ofForm nodeKind (form ++ [(Role.slot slot, last)]))])) ::
          below)) := by
  have htop : ∀ signal, Signal.IsNewLine signal →
      (Reader.sequence (seqAt nodeKind level (form ++ [(Role.slot slot, last)]) remaining)).onSignal
        config signal = .ok ⟨.sequence (seqAt nodeKind level (form ++ [(Role.slot slot, last)])
          remaining), .complete, {}⟩ := by
    rintro signal rfl
    have hremaining :
        (seqAt nodeKind level (form ++ [(Role.slot slot, last)]) remaining).remaining =
          remaining := rfl
    rw [Reader.onSignal, SequenceReader.onSignal_newLine rfl hbefore, hremaining, hstart]
    rfl
  have hsplit : Form.splitTrailing (form ++ [(Role.slot slot, last)]) =
      (form ++ [(Role.slot slot, last)], []) :=
    Form.splitTrailing_append_extras (by simp) last form []
  have hfinish : (Reader.sequence (seqAt nodeKind level (form ++ [(Role.slot slot, last)])
      remaining)).finish config =
        .ok { token := some (.ofForm nodeKind (form ++ [(Role.slot slot, last)])) } := by
    simp [Reader.finish, SequenceReader.finish, seqAt, hsplit]
  have hhands := BlockReader.handsTo_of_onToken (r := blockInside kind mode level .item before)
    hfinish (BlockReader.onToken_item hends) hmode
  rw [BlockReader.pushExtras_nil] at hhands
  exact Automaton.reaches_complete hconfig htop hhands

theorem BlockMode.HasLinesAt.ne_single (h : mode.HasLinesAt level) : mode ≠ .single := by
  rintro rfl
  exact h

/-- A reserved word opens an item. -/
theorem BlockReader.Opens.reaches (hopens : BlockReader.Opens kind level word nodeKind)
    (hconfig : config.IsUnlimited) (hkind : kind ≠ .matchCases) {before : List Entry} :
    Reaches config Signal.EndsWord
      (ofStack (.block (blockAt kind mode (some level) .itemStart before) :: below))
      word.spelling.toList
      (ofStack (.sequence (seqAt nodeKind level [(.slot .keyword, keywordTree word)]
        (Production.partsAfterKeyword nodeKind)) ::
          .block (blockInside kind mode level .item before) :: below)) := by
  have honWord := (congrArg (blockAt kind mode (some level) .itemStart before).onWord
    (wordTree_spelling word)).trans (hopens.onWord_eq mode before)
  exact BlockReader.reaches_opened hconfig hkind (Keyword.isWord_spelling word) honWord

/-- The end of a line ends a word. -/
theorem Signal.endsWord_of_isNewLine (signal : Signal) (h : signal.IsNewLine) :
    signal.EndsWord := by
  rw [show signal = .newLine from h]
  trivial

/-- A statement of a single reserved word. -/
theorem readsLines_simple (hconfig : config.IsUnlimited) (s : SimpleStatement) :
    ReadsLines config level .statements (tabs level ++ (s.word.spelling.toList ++ ['\n']))
      (indentForm level ++
        [(Role.item, Tree.ofForm s.kind [(.slot .keyword, keywordTree s.word)])]) := by
  have hopens : BlockReader.Opens .statements level s.word s.kind := by
    cases s <;> exact ⟨by decide, fun _ _ => rfl, rfl, nofun, nofun⟩
  have hend : s.kind ≠ .memberVariable ∧ ∀ r : SequenceReader,
      r.startable? .newLine (Production.partsAfterKeyword s.kind) = none := by
    cases s <;> exact ⟨nofun, fun _ => rfl⟩
  refine readsLines_item hconfig (by decide)
    (Text.exists_cons_of_isWord (Keyword.isWord_spelling s.word)) fun mode form below hmode => ?_
  refine ((hopens.reaches hconfig (by decide)).mono Signal.endsWord_of_isNewLine).trans_nil ?_
  exact reaches_lineEnd hconfig [] hopens.ends hmode.ne_single (if_neg fun h => hend.1 h.2)
    (hend.2 _)

/-- A variable without a value. -/
theorem readsLines_variable (hconfig : config.IsUnlimited) (name : Name) :
    ReadsLines config level .members (tabs level ++ (named .varKw name ++ ['\n']))
      (indentForm level ++
        [(Role.item, Tree.ofForm .memberVariable (namedForm .varKw .name name))]) := by
  have hopens : BlockReader.Opens .members level .varKw .memberVariable :=
    ⟨by decide, fun _ _ => rfl, rfl, nofun, nofun⟩
  obtain ⟨c, rest, hlist, hc⟩ := Text.exists_cons_of_isWord (Keyword.isWord_spelling .varKw)
  refine readsLines_item hconfig (by decide) ⟨c, rest ++ ' ' :: name.text.toList, ?_, hc⟩
    fun mode form below hmode => ?_
  · rw [named, hlist, List.cons_append]
  have hblank : Begins Signal.EndsWord (' ' :: name.text.toList) :=
    (Automaton.begins_blank _).mono Signal.endsWord_of_isBlank
  have hname : Reaches config Signal.EndsWord (ofStack (.sequence (seqAt .memberVariable level
      [(.slot .keyword, keywordTree .varKw)] (Production.partsAfterKeyword .memberVariable)) ::
        .block (blockInside .members mode level .item form) :: below)) (' ' :: name.text.toList)
      (ofStack (.sequence (seqAt .memberVariable level (namedForm .varKw .name name)
        ((Production.partsAfterKeyword .memberVariable).drop 1)) ::
          .block (blockInside .members mode level .item form) :: below)) :=
    SequenceReader.reaches_name hconfig rfl rfl (by simp [Form.Appends]; decide)
  have hread := (hopens.reaches hconfig (by decide)).trans hname hblank
  refine (hread.mono Signal.endsWord_of_isNewLine).trans_nil ?_
  exact reaches_lineEnd hconfig [(.slot .keyword, keywordTree .varKw), (.extra, blank)]
    hopens.ends hmode.ne_single rfl rfl

/-- A name that stands alone. -/
theorem readsLines_expression (hconfig : config.IsUnlimited) (name : Name) :
    ReadsLines config level .statements (tabs level ++ (name.text.toList ++ ['\n']))
      (indentForm level ++ [(Role.item, Tree.ofForm .expressionStatement
        [(.slot .expression, .ofText .identifier name.text)])]) := by
  have hname : wordTree name.text = .ofText .identifier name.text := by
    rw [wordTree, name.notReserved]
  refine readsLines_item hconfig (by decide) (Text.exists_cons_of_isWord name.isWord)
    fun mode form below hmode => ?_
  have hword : (blockAt .statements mode (some level) .itemStart form).onWord (wordTree name.text) =
      .ok { state := blockInside .statements mode level .item form
            opened := [.sequence (seqAround .expressionStatement level []
                (Production.part .expression (.expression .statement))),
              exprReader (.statement level) 0
                (Expr.primary (.name name)).pieces.reverse] } := by
    have hkeyword : (Tree.ofText .identifier name.text).keyword? = none := rfl
    rw [hname]
    exact BlockReader.onWord_item (by simp [hkeyword]) rfl rfl
  have hplace : Form.place .expressionStatement .expression (Expr.primary (.name name)).tree [] =
      .ok ([] ++ [(Role.slot .expression, (Expr.primary (.name name)).tree)]) :=
    Form.place_of_appends _ rfl (Form.appends_nil _ _)
  have hdelivery : (Reader.sequence (seqAround .expressionStatement level []
      (Production.part .expression (.expression .statement)))).onDelivery
        { token := some (Expr.primary (.name name)).tree } =
          .ok { state := .sequence (seqAt .expressionStatement level
                  ([] ++ [(Role.slot .expression, (Expr.primary (.name name)).tree)]) []) } :=
    SequenceReader.onDelivery_of_onToken (SequenceReader.onToken_inner rfl rfl rfl hplace)
  have hclosed : Reaches config Signal.IsNewLine
      (ofStack (exprReader (.statement level) 0 (Expr.primary (.name name)).pieces.reverse ::
        .sequence (seqAround .expressionStatement level []
          (Production.part .expression (.expression .statement))) ::
        .block (blockInside .statements mode level .item form) :: below)) []
      (ofStack (.sequence (seqAt .expressionStatement level
          ([] ++ [(Role.slot .expression, (Expr.primary (.name name)).tree)]) []) ::
        .block (blockInside .statements mode level .item form) :: below)) := by
    have hvalid : (Expr.primary (.name name)).isValid true 0 = true := rfl
    refine (Expr.reaches_end hconfig hvalid hdelivery).mono ?_
    rintro signal rfl
    rfl
  have hread := ((BlockReader.reaches_opened hconfig (by decide) name.isWord hword).mono
    Signal.endsWord_of_isNewLine).trans_nil hclosed
  have hlast : (Expr.primary (.name name)).tree = .ofText .identifier name.text := by
    rw [Expr.tree, Primary.tree]
  rw [← hlast]
  exact hread.trans_nil
    (reaches_lineEnd hconfig [] ⟨by decide, by decide⟩ hmode.ne_single rfl rfl)

end ScriptTree
