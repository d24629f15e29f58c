import ScriptTree.Proofs.RoundTrip.Program
import ScriptTree.Proofs.RoundTrip.Tokens

/-!
# Lines of nested blocks

A line that is indented less than the innermost block ends that block and the construct around it,
and so on, until a block is reached whose level it has. What is read of nested blocks at the
beginning of a line is therefore compared with the block that would be left if all of them had
ended: both go on with the line in the same way.
-/

namespace ScriptTree

open Automaton (Reaches Feeds Delivers ofStack)
open Text (isWordStart)

/-- The beginning of a line of the given level. -/
def lineAt (level : Nat) : LineStart :=
  ⟨indent? level, ⟨level, true⟩⟩

/-- A block that has read the given children. -/
def blockAt (kind : BlockKind) (mode : BlockMode) (level : Option Nat) (phase : BlockPhase)
    (form : List Entry) : BlockReader :=
  { kind, mode, level, phase, form }

/-- The level at which the lines of a block stand. -/
def BlockMode.HasLinesAt (level : Nat) : BlockMode → Prop
  | .root => level = 0
  | .indented parent => level = parent + 1
  | _ => False

/-- Line breaks. -/
def Signal.IsNewLine (signal : Signal) : Prop :=
  signal = .newLine

namespace Automaton

variable {config : Config} {signal : Signal} {a a' b d : Automaton} {top top' next next' : Reader}
  {below : List Reader}

/-- Signals are taken in the same way where the first step is the same. -/
theorem Delivers.of_step_eq (h : Delivers config signal a d)
    (hstep : a.step config signal = b.step config signal) : Delivers config signal b d := by
  cases h with
  | taken h => exact .taken (hstep ▸ h)
  | passed h hrest => exact .passed (hstep ▸ h) hrest

/-- States that react in the same way take a signal in the same way. -/
theorem Delivers.of_onSignal_eq (h : Delivers config signal (ofStack (top :: below)) d)
    (hsignal : top.onSignal config signal = top'.onSignal config signal) :
    Delivers config signal (ofStack (top' :: below)) d := by
  refine h.of_step_eq ?_
  simp only [step, ofStack, hsignal]

/-- States that end with the same delivery leave a signal to the state around them in the same
way. -/
theorem Delivers.of_finish_eq (h : Delivers config signal (ofStack (top :: below)) d)
    (htop : top.onSignal config signal = .ok ⟨next, .complete, {}⟩)
    (htop' : top'.onSignal config signal = .ok ⟨next', .complete, {}⟩)
    (hfinish : next.finish config = next'.finish config) :
    Delivers config signal (ofStack (top' :: below)) d := by
  refine h.of_step_eq ?_
  cases below <;>
    simp only [step, ofStack, htop, htop', ParseError.ofTree_ok, bind, Except.bind,
      perform, pop, hfinish]

/-- After the tabs of a line, the first character of a word is taken as from `b`. -/
def TakesLine (config : Config) (level : Nat) (a b : Automaton) : Prop :=
  ∀ (c : Char) (d : Automaton), isWordStart c = true → Delivers config (.ofChar c) b d →
    Feeds config a (tabs level ++ [c]) d

/-- The beginning of a line up to a level, and the end of the text, are taken as if the given block
were handed them. -/
structure AwaitsLine (config : Config) (level : Nat) (a : Automaton) (r : BlockReader)
    (below : List Reader) : Prop where
  line : ∀ m ≤ level, TakesLine config m a (ofStack (.block (r.onLine (lineAt m)).state :: below))
  endOfText : ∀ d, Delivers config .endOfText (ofStack (.block r :: below)) d →
    Delivers config .endOfText a d

/-- A line that begins with a word is read as from where its tabs lead. -/
theorem TakesLine.feeds {level : Nat} (h : TakesLine config level a b) {cs : List Char} {c : Char}
    (hc : isWordStart c = true) (hfeeds : Feeds config b (c :: cs) d) :
    Feeds config a (tabs level ++ c :: cs) d := by
  cases hfeeds with
  | cons hfirst hrest => simpa using (h c _ hc hfirst).append hrest

end Automaton

open Automaton (TakesLine AwaitsLine)

namespace BlockReader

variable {config : Config} {kind : BlockKind} {mode : BlockMode} {level m : Nat}
  {level? : Option Nat} {phase : BlockPhase} {form : List Entry} {c : Char} {below : List Reader}

/-- Tabs are measured by their number. -/
theorem measure_indent? (config : Config) (level : Nat) :
    measure config (indent? level) = ⟨level, true⟩ := by
  rw [measure, indent?]
  split
  · rename_i h
    rw [h]
    exact IndentLevel.ofChars_replicate_tab config.indentationSize config.spacesAsIndentation 0
  · simpa [indentTree, Tree.ofText, Tree.leafText?, tabs] using
      IndentLevel.ofChars_replicate_tab config.indentationSize config.spacesAsIndentation level

/-- A line of the block's own level goes on with the block. -/
theorem beginLine_eq (kind : BlockKind) (mode : BlockMode) (level : Nat) (phase : BlockPhase)
    (form : List Entry) :
    { blockAt kind mode (some level) phase form with indent := indent? level }.beginLine
      ⟨level, true⟩ = blockAt kind mode (some level) .itemStart (form ++ indentForm level) := by
  simp [beginLine, placeIndent, blockAt, itemLevel, pushExtras, indentForm]

theorem onLine_eq (hmode : mode.HasLinesAt level) :
    (blockAt kind mode (some level) phase form).onLine (lineAt level) =
      { state := blockAt kind mode (some level) .itemStart (form ++ indentForm level) } := by
  have hline := beginLine_eq kind mode level phase form
  cases mode with
  | root => simpa [onLine, lineAt, blockAt] using hline
  | indented parent => simpa [onLine, lineAt, blockAt, itemLevel] using hline
  | _ => exact False.elim hmode

/-- A line that is indented less ends the block. -/
theorem onLine_of_lt (hmode : mode.HasLinesAt level) (hlt : m < level) :
    (blockAt kind mode (some level) phase form).onLine (lineAt m) =
      { state := (blockAt kind mode (some level) phase form).dedent (lineAt m) } := by
  cases mode with
  | root =>
    obtain rfl : level = 0 := hmode
    exact absurd hlt (Nat.not_lt_zero m)
  | indented parent => simp [onLine, lineAt, blockAt, itemLevel, hlt]
  | _ => exact False.elim hmode

/-- A word begins an item. -/
theorem onItemStart_char (hkind : kind ≠ .matchCases) (hc : isWordStart c = true) :
    (blockAt kind mode (some level) phase form).onItemStart (.char c) =
      ⟨{ blockAt kind mode (some level) phase form with goal := .word }, .enter (.leaf (.word "")),
        {}⟩ := by
  have hblank : TriviaStart.inline? (.char c) = none :=
    TriviaStart.inline?_char (Text.isInlineSpace_of_isWordStart hc)
  simp [blockAt, onItemStart, hblank, onItemChar, hkind, hc, enter]

theorem onSignal_itemStart (hkind : kind ≠ .matchCases) (hc : isWordStart c = true) :
    (Reader.block (blockAt kind mode (some level) .itemStart form)).onSignal config (.char c) =
      .ok ⟨.block { blockAt kind mode (some level) .itemStart form with goal := .word },
        .enter (.leaf (.word "")), {}⟩ := by
  have hitem : onSignal config (blockAt kind mode (some level) .itemStart form) (.char c) =
      (blockAt kind mode (some level) .itemStart form).onItemStart (.char c) := rfl
  rw [Reader.onSignal, hitem, onItemStart_char hkind hc]
  rfl

/-- A character after the white space of a line. -/
theorem onSignal_afterIndent (r : BlockReader) (hdone : r.done = false)
    (hphase : r.phase = .afterIndent) :
    (Reader.block r).onSignal config (.char c) =
      .ok ((onContent config r (.char c)).map .block) := by
  simp [Reader.onSignal, onSignal, hdone, hphase, onAfterIndent]

/-- The content of a line of the block's own level. -/
theorem onSignal_content (hmode : mode.HasLinesAt level) (hkind : kind ≠ .matchCases)
    (hc : isWordStart c = true) :
    (Reader.block { blockAt kind mode (some level) .afterIndent form with
      indent := indent? level }).onSignal config (.char c) =
        (Reader.block (blockAt kind mode (some level) .itemStart
          (form ++ indentForm level))).onSignal config (.char c) := by
  have hcontent : onContent config { blockAt kind mode (some level) .afterIndent form with
      indent := indent? level } (.char c) =
        { (blockAt kind mode (some level) .itemStart
            (form ++ indentForm level)).onItemStart (.char c) with notices := {} } := by
    rw [← beginLine_eq kind mode level .afterIndent form]
    cases mode with
    | root => simp only [onContent, measure_indent?]; rfl
    | indented parent => simp [onContent, measure_indent?, blockAt]
    | _ => exact False.elim hmode
  rw [onSignal_afterIndent _ rfl rfl, hcontent, onItemStart_char hkind hc,
    onSignal_itemStart hkind hc]
  rfl

/-- The content of the first line of a block fixes the level of the block. -/
theorem onSignal_firstContent (hkind : kind ≠ .matchCases) (hc : isWordStart c = true) :
    (Reader.block { blockAt kind (.indented level) none .afterIndent form with
      indent := indent? (level + 1) }).onSignal config (.char c) =
        (Reader.block (blockAt kind (.indented level) (some (level + 1)) .itemStart
          (form ++ indentForm (level + 1)))).onSignal config (.char c) := by
  have hcontent : onContent config { blockAt kind (.indented level) none .afterIndent form with
      indent := indent? (level + 1) } (.char c) =
        { (blockAt kind (.indented level) (some (level + 1)) .itemStart
          (form ++ indentForm (level + 1))).onItemStart (.char c) with notices := {} } := by
    rw [← beginLine_eq kind (.indented level) (level + 1) .afterIndent form]
    simp [onContent, measure_indent?, blockAt]
  rw [onSignal_afterIndent _ rfl rfl, hcontent, onItemStart_char hkind hc,
    onSignal_itemStart hkind hc]
  rfl

/-- The content of a line that is indented less. -/
theorem onSignal_lessContent (hmode : mode.HasLinesAt level) (hlt : m < level) :
    (Reader.block { blockAt kind mode (some level) .afterIndent form with
      indent := indent? m }).onSignal config (.char c) =
        .ok ⟨.block ((blockAt kind mode (some level) .afterIndent form).dedent (lineAt m)),
          .complete, {}⟩ := by
  cases mode with
  | root =>
    obtain rfl : level = 0 := hmode
    exact absurd hlt (Nat.not_lt_zero m)
  | indented parent =>
    have hcontent : onContent config
        { blockAt kind (.indented parent) (some level) .afterIndent form with
          indent := indent? m } (.char c) =
          ⟨(blockAt kind (.indented parent) (some level) .afterIndent form).dedent (lineAt m),
            .complete, {}⟩ := by
      simp [onContent, measure_indent?, blockAt, hlt, lineAt]
    rw [onSignal_afterIndent _ rfl rfl, hcontent]
    rfl
  | _ => exact False.elim hmode

/-- The white space of a line is read before its content. -/
theorem takesLine_lineStart (hconfig : config.IsUnlimited) (kind : BlockKind) (mode : BlockMode)
    (level? : Option Nat) (form : List Entry) :
    TakesLine config m
      (ofStack (.block (blockAt kind mode level? .lineStart form) :: below))
      (ofStack (.block { blockAt kind mode level? .afterIndent form with indent := indent? m } ::
        below)) := by
  intro c d hc hd
  have hchar : Signal.ofChar c = .char c :=
    Signal.ofChar_of_isWordContinue (Text.isWordContinue_of_isWordStart hc)
  have hblank : Text.isInlineSpace c = false := Text.isInlineSpace_of_isWordStart hc
  cases m with
  | zero =>
    refine .cons (hd.of_onSignal_eq ?_) (.nil _)
    rw [hchar]
    simp [Reader.onSignal, onSignal, blockAt, onLineStart, hblank, indent?]
  | succ m =>
    have htop : (Reader.block (blockAt kind mode level? .lineStart form)).onSignal config
        (.char '\t') = .ok ⟨.block { blockAt kind mode level? .lineStart form with goal := .indent },
          .enter (.leaf (.blank .indentation "")), {}⟩ := by
      have htab : Text.isInlineSpace '\t' = true := by decide
      simp [Reader.onSignal, onSignal, blockAt, onLineStart, htab, enter, Reaction.map]
    have hdelivery : (Reader.block { blockAt kind mode level? .lineStart form with
        goal := .indent }).onDelivery { token := some (indentTree (m + 1)) } =
          .ok { state := .block { blockAt kind mode level? .afterIndent form with
            indent := indent? (m + 1) } } := by
      have htrivia : (indentTree (m + 1)).isTrivia = true := rfl
      simp [Reader.onDelivery, onDelivery, blockAt, placeTrivia, pushExtras, onToken?, onToken,
        htrivia, indent?]
      rfl
    have hlist : (String.ofList (tabs (m + 1))).toList = '\t' :: tabs m := by
      rw [String.toList_ofList]
      rfl
    have hspells : Automaton.Spells (.blank .indentation) Signal.EndsBlank
        (String.ofList (tabs (m + 1))) := by
      refine Automaton.spells_blank _ fun c hc => ?_
      rw [String.toList_ofList] at hc
      rw [List.eq_of_mem_replicate hc]
      decide
    have hreaches : Reaches config Signal.EndsBlank
        (ofStack (.block (blockAt kind mode level? .lineStart form) :: below))
        (String.ofList (tabs (m + 1))).toList _ :=
      hspells.reaches hconfig hlist htop (.of_onDelivery rfl hdelivery)
    obtain ⟨between, hfeeds, hdelivers⟩ := hreaches
    rw [String.toList_ofList] at hfeeds
    refine hfeeds.append (.cons (hdelivers _ _ ?_ hd) (.nil _))
    rw [hchar]
    exact hblank

/-- The text may end after an item. -/
theorem onSignal_endOfText :
    (Reader.block (blockAt kind mode level? .afterItem form)).onSignal config .endOfText =
      .ok ⟨.block (blockAt kind mode level? .afterItem form), .complete, {}⟩ := by
  have hafter : (blockAt kind mode level? .afterItem form).onAfterItem .endOfText =
      ⟨blockAt kind mode level? .afterItem form, .complete, {}⟩ := by
    simp [onAfterItem, TriviaStart.inline?, Signal.toChar?, complete]
  simp [Reader.onSignal, onSignal, blockAt, Reaction.map] at hafter ⊢
  rw [hafter]
  exact ⟨rfl, rfl, rfl⟩

/-- The text may end at the beginning of a line. -/
theorem onSignal_endOfText_lineStart :
    (Reader.block (blockAt kind mode (some level) .lineStart form)).onSignal config .endOfText =
      .ok ⟨.block (blockAt kind mode (some level) .afterIndent form), .complete, {}⟩ := by
  simp [Reader.onSignal, onSignal, blockAt, onLineStart, onAfterIndent, placeIndent, pushExtras,
    noticesAtEnd, Reaction.map]

/-- At the beginning of a line the block itself decides whether the line belongs to it. -/
theorem awaitsLine_lineStart (hconfig : config.IsUnlimited) (hmode : mode.HasLinesAt level)
    (hkind : kind ≠ .matchCases) :
    AwaitsLine config level
      (ofStack (.block (blockAt kind mode (some level) .lineStart form) :: below))
      (blockAt kind mode (some level) .afterItem form) below := by
  constructor
  · intro m hm c d hc hd
    refine takesLine_lineStart hconfig kind mode (some level) form c d hc ?_
    rw [Signal.ofChar_of_isWordContinue (Text.isWordContinue_of_isWordStart hc)] at hd ⊢
    rcases Nat.lt_or_eq_of_le hm with hlt | rfl
    · rw [onLine_of_lt hmode hlt] at hd
      exact hd.of_finish_eq rfl (onSignal_lessContent hmode hlt) rfl
    · rw [onLine_eq hmode] at hd
      exact hd.of_onSignal_eq (onSignal_content hmode hkind hc).symm
  · intro d hd
    exact hd.of_finish_eq onSignal_endOfText onSignal_endOfText_lineStart rfl

/-- The first line of a block. -/
theorem takesLine_first (hconfig : config.IsUnlimited) (hkind : kind ≠ .matchCases) :
    TakesLine config (level + 1)
      (ofStack (.block (blockAt kind (.indented level) none .lineStart form) :: below))
      (ofStack (.block (blockAt kind (.indented level) (some (level + 1)) .itemStart
        (form ++ indentForm (level + 1))) :: below)) := by
  intro c d hc hd
  refine takesLine_lineStart hconfig kind (.indented level) none form c d hc ?_
  rw [Signal.ofChar_of_isWordContinue (Text.isWordContinue_of_isWordStart hc)] at hd ⊢
  exact hd.of_onSignal_eq (onSignal_firstContent hkind hc).symm

end BlockReader

end ScriptTree
