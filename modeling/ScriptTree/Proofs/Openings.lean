import ScriptTree.Proofs.Invariant

/-!
# States that begin with a signal

A state is opened on a signal only where the signal begins it: the leaf, the group or the trivia
that is opened then takes the signal.
-/

namespace ScriptTree

namespace LeafReader

@[simp]
theorem isLeaf_layer (r : LeafReader) : r.layer.isLeaf := by
  cases r with
  | blank kind text =>
    rw [layer]
    split <;> rfl
  | _ => rfl

/-- A reader of trivia, or of text without a place, delivers just that. -/
theorem isTrivia_of_layer {r : LeafReader} (h : r.layer.isTrivia) {t : Tree}
    (ht : r.token? = some t) : (t.isTrivia || t.isInvalid) = true := by
  cases r with
  | blank kind text =>
    have hkind : kind.isTrivia = true := by
      rw [layer] at h
      split at h
      · assumption
      · cases h
    cases ht
    simp [Tree.isTrivia, hkind, Tree.ofText, Tree.leafKind?, Tree.kind, TokenKind.leaf?]
  | comment text =>
    cases ht
    rfl
  | continuation text =>
    cases ht
    split <;> rfl
  | invalid text =>
    rw [token?] at ht
    split at ht <;> cases ht
    rfl
  | _ => cases h

/-- The reader of the same leaf before anything was read of it. -/
def shape : LeafReader → LeafReader
  | .blank kind _ => .blank kind ""
  | .comment _ => .comment ""
  | .continuation _ => .continuation ""
  | .word _ => .word ""
  | .number _ _ => .number .start ""
  | .string _ _ => .string .start ""
  | .nodePath _ _ => .nodePath none ""
  | .operator _ => .operator ""
  | .dots _ => .dots 0
  | .invalid _ => .invalid ""

/-- Offering a character to the scanner of a string leaves the reader what it is. -/
theorem shape_scanString (scan : StringScan) (text : String) (c : Char)
    {reader : StringScan → String → LeafReader} {shape : LeafReader}
    (h : ∀ scan text, (reader scan text).shape = shape) :
    (scanString scan text c reader).1.shape = shape := by
  rw [scanString]
  split <;> exact h _ _

/-- Taking a character on a condition leaves the reader what it is. -/
theorem shape_takeIf (fits : Bool) {taken kept : LeafReader} (h : taken.shape = kept.shape) :
    (takeIf fits taken kept).1.shape = kept.shape := by
  cases fits with
  | true => exact h
  | false => rfl

/-- Taking a character leaves the reader what it is. -/
theorem shape_feedChar (r : LeafReader) (c : Char) : (r.feedChar c).1.shape = r.shape := by
  cases r with
  | string scan text => exact shape_scanString scan text c fun _ _ => rfl
  | nodePath quoted text =>
    rw [feedChar, feedPath]
    split
    · exact shape_scanString _ text c fun _ _ => rfl
    · exact shape_takeIf _ rfl
  | comment text => rfl
  | continuation text => rfl
  | number scan text =>
    rw [feedChar]
    split <;> rfl
  | dots count =>
    rw [feedChar]
    split <;> rfl
  | _ => exact shape_takeIf _ rfl

/-- Taking a signal leaves the reader what it is. -/
theorem shape_feed (r : LeafReader) (signal : Signal) : (r.feed signal).1.shape = r.shape := by
  unfold feed
  split
  · rfl
  · exact shape_feedChar r _
  · split
    · exact shape_scanString _ _ _ fun _ _ => rfl
    · rfl
  · split
    · exact shape_feedChar _ _
    · rfl
  · rfl
  · rfl
  · exact shape_takeIf _ rfl
  · exact shape_takeIf _ rfl
  · split <;> rfl
  · exact shape_feedChar (.nodePath (some _) _) '#'
  · exact shape_feedChar (.nodePath (some _) _) '\\'
  · rfl
  · exact shape_feedChar r _
  · rfl

@[simp]
theorem layer_shape (r : LeafReader) : r.shape.layer = r.layer := by
  cases r <;> rfl

/-- Taking a signal leaves the reader in its layer. -/
theorem layer_feed (r : LeafReader) (signal : Signal) : (r.feed signal).1.layer = r.layer := by
  rw [← layer_shape, shape_feed, layer_shape]

/-- A leaf that nothing was read of, and that begins with the signal. -/
structure Begins (r : LeafReader) (signal : Signal) : Prop where
  isOpen : r.IsOpen
  text_eq : r.text = ""
  verdict_ne : (r.feed signal).2 ≠ .stop

theorem begins_word {c : Char} (h : Text.isWordStart c) : (word "").Begins (.char c) :=
  ⟨trivial, rfl, by simp [feed, feedChar, takeIf, h]⟩

theorem begins_operator (c : Char) : (operator "").Begins (.char c) :=
  ⟨trivial, rfl, by simp [feed, feedChar, takeIf]⟩

theorem begins_nodePath (c : Char) : (nodePath none "").Begins (.char c) :=
  ⟨trivial, rfl, by simp [feed, feedChar, feedPath, takeIf]⟩

theorem begins_dots : (dots 0).Begins (.char '.') :=
  ⟨Nat.zero_le 1, rfl, by simp [feed, feedChar]⟩

theorem begins_number {c : Char} (h : Text.isDigit c ∨ c = '.') :
    (number .start "").Begins (.char c) := by
  refine ⟨trivial, rfl, ?_⟩
  have hfeed : (NumberScan.start.feed c).isSome := by
    rcases h with h | rfl
    · simp only [NumberScan.feed]
      split
      · rfl
      · rfl
    · rfl
  obtain ⟨scan, hscan⟩ := Option.isSome_iff_exists.1 hfeed
  simp [feed, feedChar, hscan]

theorem begins_string {c : Char} (h : StringScan.canStart c) :
    (string .start "").Begins (.char c) := by
  refine ⟨trivial, rfl, ?_⟩
  simp only [StringScan.canStart, Bool.or_eq_true, beq_iff_eq] at h
  rcases h with ((rfl | rfl) | rfl) | rfl <;> decide

theorem begins_blank {c : Char} (kind : LeafKind) (h : Text.isInlineSpace c) :
    (blank kind "").Begins (.char c) :=
  ⟨trivial, rfl, by simp [feed, feedChar, takeIf, h]⟩

theorem begins_comment : (comment "").Begins .commentStart :=
  ⟨trivial, rfl, by simp [feed]⟩

theorem begins_continuation : (continuation "").Begins .escape :=
  ⟨trivial, rfl, by simp [feed, takeIf]⟩

end LeafReader

/-- Every quote begins a string. -/
theorem StringScan.canStart_of_isQuote {c : Char} (h : isQuote c) : canStart c := by
  simp only [isQuote, canStart, Bool.or_eq_true] at h ⊢
  exact .inl (.inl h)

/-- Every mark but the two points is a single character. -/
theorem Punct.spelling_of_startsWith {mark : Punct} {c : Char} (h : mark.startsWith c)
    (hmark : mark ≠ .doubleDot) : mark.spelling = String.singleton c := by
  cases mark with
  | doubleDot => exact absurd rfl hmark
  | _ =>
    simp only [Punct.startsWith, Punct.spelling, beq_iff_eq] at h
    obtain rfl := Option.some.inj h
    rfl

/-- The brackets of a group are single characters, and its node has a place for them. -/
theorem GroupKind.declares_of_brackets {kind : GroupKind} {opening closing : Punct}
    (h : kind.brackets? = some (opening, closing)) :
    (opening ≠ .doubleDot ∧ kind.nodeKind.declares .opening) ∧
      closing ≠ .doubleDot ∧ kind.nodeKind.declares .closing := by
  cases kind <;> cases h <;> decide

namespace TriviaStart

/-- Trivia inside a line begin with a character, and take it. -/
theorem begins_of_inline? {signal : Signal} {leaf : LeafReader} (h : inline? signal = some leaf) :
    leaf.Begins signal ∧ signal.toChar?.isSome := by
  cases signal with
  | char c =>
    simp only [inline?] at h
    split at h
    · rename_i hspace
      cases h
      exact ⟨LeafReader.begins_blank .space hspace, rfl⟩
    · cases h
  | escape =>
    cases h
    exact ⟨LeafReader.begins_continuation, rfl⟩
  | _ => cases h

/-- What trivia a signal begins: a token of the signal's own text, or a reader that takes it. -/
def Suits (signal : Signal) : TriviaStart → Prop
  | .token t => t.text = signal.text
  | .reader leaf => leaf.Begins signal

/-- Trivia begin with a character, whether inside brackets or not. -/
theorem suits_of_at? {brackets : Bool} {signal : Signal} {start : TriviaStart}
    (h : at? brackets signal = some start) : start.Suits signal ∧ signal.toChar?.isSome := by
  have hinline (h : (inline? signal).map .reader = some start) :
      start.Suits signal ∧ signal.toChar?.isSome := by
    obtain ⟨leaf, hleaf, rfl⟩ := Option.map_eq_some_iff.1 h
    exact begins_of_inline? hleaf
  rw [at?] at h
  split at h
  · cases signal with
    | newLine =>
      cases h
      exact ⟨by simp [Suits, Signal.text, Signal.toChar?], rfl⟩
    | carriageReturn =>
      cases h
      exact ⟨by simp [Suits, Signal.text, Signal.toChar?], rfl⟩
    | commentStart =>
      cases h
      exact ⟨LeafReader.begins_comment, rfl⟩
    | _ => exact hinline h
  · exact hinline h

end TriviaStart

namespace SequenceReader

/-- A production of which nothing was read yet is at rest. -/
theorem rests_start (kind : NodeKind) (level : Nat) (brackets : Bool) :
    (start kind level brackets).Rests where
  hands := .nothing false
  items := by simp [start]
  order := ⟨[], rfl, by simp [start]⟩
  required := by simp [start]
  block := fun _ hpart _ hremaining => absurd hpart hremaining
  inactive := rfl

@[simp]
theorem text_start (kind : NodeKind) (level : Nat) (brackets : Bool) :
    (start kind level brackets).text = "" := by
  simp [text, start]

end SequenceReader

namespace Reader

variable {config : Config} {signal : Signal}

/-- The state that is opened may take the signal in some other way. -/
theorem Taken.mono {takes takes' : Reader → Prop} {r : Reader} {reaction : Reaction Reader}
    (h : r.Taken signal takes reaction) (himp : ∀ inner, takes inner → takes' inner) :
    r.Taken signal takes' reaction := by
  obtain ⟨state, step, notices⟩ := reaction
  cases step with
  | enter inner =>
    obtain ⟨hlayer, hhosts, htext, htakes⟩ := h
    exact ⟨hlayer, hhosts, htext, himp inner htakes⟩
  | _ => exact ⟨h.layer_eq, h.step⟩

/-- More steps do not hurt. -/
theorem Takes.mono {n m : Nat} {r : Reader} (h : Takes config signal n r) (hle : n ≤ m) :
    Takes config signal m r := by
  induction m generalizing n r with
  | zero =>
    obtain rfl : n = 0 := by omega
    exact h
  | succ m ih =>
    cases n with
    | zero => exact False.elim h
    | succ n =>
      exact Yields.mono h fun reaction hreaction =>
        hreaction.mono fun inner hinner => ih hinner (by omega)

/-- Only the text of a state matters to what it makes of a signal, and that it costs no more. -/
theorem Reacts.of_text {n : Nat} {r r' : Reader} {reaction : Reaction Reader}
    (h : r'.Reacts config signal n reaction) (hlayer : r'.layer = r.layer)
    (htext : r'.text = r.text) (hcredit : r'.credit ≤ r.credit) (hcost : r'.cost ≤ r.cost) :
    r.Reacts config signal n reaction := by
  cases h with
  | taken h hchar =>
    refine .taken ⟨h.layer_eq.trans hlayer, ?_⟩ hchar
    rw [← htext]
    exact h.step
  | left h =>
    exact .left ⟨h.layer_eq.trans hlayer, h.step_eq, h.ends, h.text_eq.trans htext,
      Nat.le_trans h.credit_le hcredit⟩
  | detoured inner h hchar =>
    exact .detoured inner ⟨h.layer_eq.trans hlayer, h.step_eq, h.hosts, h.rests,
      h.text_eq.trans htext, Nat.lt_of_lt_of_le h.cost_lt hcost, h.not_leaf⟩ hchar

/-- More steps do not hurt a reaction. -/
theorem Reacts.mono {n m : Nat} {r : Reader} {reaction : Reaction Reader}
    (h : r.Reacts config signal n reaction) (hle : n ≤ m) :
    r.Reacts config signal m reaction := by
  cases h with
  | taken h hchar => exact .taken (h.mono fun inner hinner => hinner.mono hle) hchar
  | left h => exact .left h
  | detoured inner h hchar => exact .detoured inner h hchar

/-- Taking a character is an answer. -/
theorem Takes.answers {r : Reader} (h : Takes config signal 5 r) (hchar : signal.toChar?.isSome) :
    Answers config signal r :=
  Yields.mono h fun _ hreaction => .taken hreaction hchar

/-- A leaf that does not stop at a signal takes it. -/
theorem takes_of_verdict {r : LeafReader} (h : r.IsOpen) (hne : (r.feed signal).2 ≠ .stop) :
    Takes config signal 1 (.leaf r) := by
  have hkeeps := LeafReader.keeps_feed h signal
  have hlayer := LeafReader.layer_feed r signal
  rcases hfeed : r.feed signal with ⟨next, verdict⟩
  simp only [hfeed, LeafReader.Keeps] at hkeeps hlayer hne
  simp only [Takes, onSignal, hfeed, yields_ok]
  cases verdict with
  | accept => exact ⟨hlayer, hkeeps⟩
  | done => exact ⟨hlayer, hkeeps⟩
  | stop => exact absurd rfl hne

/-- A leaf that begins with the signal takes it. -/
theorem takes_leaf {r : LeafReader} (h : r.Begins signal) : Takes config signal 1 (.leaf r) :=
  takes_of_verdict h.isOpen h.verdict_ne

/-- A bracket opens its group. -/
theorem takes_group {kind : GroupKind} {c : Char} (ctx : Context) (h : kind.opensWith c) :
    Takes config (.char c) 1 (.group (.start kind ctx)) := by
  obtain ⟨⟨opening, closing⟩, hbrackets, hopens⟩ := (Option.any_eq_true _ _).1 h
  obtain ⟨⟨hsingle, hdeclares⟩, _⟩ := GroupKind.declares_of_brackets hbrackets
  have hspelling := Punct.spelling_of_startsWith hopens hsingle
  have hplace := Form.place_of_appends (Tree.ofPunct opening) hdeclares (Form.appends_nil _ _)
  have hbare : kind.isBare = false := by simp [GroupKind.isBare, hbrackets]
  have hreacts : (GroupReader.start kind ctx).onSignal (.char c) = .ok
      ⟨{ GroupReader.start kind ctx with
          form := [(.slot .opening, .ofPunct opening)], opened := true }, .accept, {}⟩ := by
    simp only [GroupReader.onSignal, GroupReader.start, hbare, hbrackets, hplace]
    rfl
  simp only [Takes, onSignal, hreacts, Except.map, yields_ok, Reaction.map]
  refine ⟨rfl, ?_, ?_⟩
  · exact {
      hands := .nothing false
      opened := rfl
      unclosed := by simp
      single := by simp
      dictionary := by simp [GroupReader.start]
      entry := by simp [GroupReader.start]
      value := by simp [GroupReader.start]
      idle := rfl }
  · simp [text, GroupReader.text, GroupReader.sealedForm, GroupReader.start, hspelling,
      Signal.text, Signal.toChar?]

/-- A production whose first part is a name begins with a word. -/
theorem takes_named {kind : NodeKind} (hkind : kind = .parameter ∨ kind = .enumValue)
    (level : Nat) (brackets : Bool) {c : Char} (h : Text.isWordStart c) :
    Takes config (.char c) 2 (.sequence (.start kind level brackets)) := by
  have hrests := SequenceReader.rests_start kind level brackets
  obtain ⟨rest, hparts⟩ : ∃ rest, Production.parts kind = ⟨.name, .name, none⟩ :: rest := by
    rcases hkind with rfl | rfl <;> exact ⟨_, rfl⟩
  have hhosts (active : Option (Part × List Part)) (hactive : active = none ∨
      active = some (⟨.name, .name, none⟩, rest)) (leaf : LeafReader) :
      ({ SequenceReader.start kind level brackets with active } : SequenceReader).Hosts
        leaf.layer := by
    refine ⟨{ hrests.toSound with }, rfl, fun _ => leaf.isLeaf_layer, ?_⟩
    intro part rest' heq
    rcases hactive with rfl | rfl
    · cases heq
    · cases heq
      exact ⟨⟨[], hparts.symm⟩, rfl, fun _ => leaf.isLeaf_layer, nofun⟩
  have htext (active : Option (Part × List Part)) :
      ({ SequenceReader.start kind level brackets with active } : SequenceReader).text = "" :=
    SequenceReader.text_start kind level brackets
  cases hinline : TriviaStart.inline? (.char c) with
  | some leaf =>
    have hbegins := (TriviaStart.begins_of_inline? hinline).1
    have hreacts : (SequenceReader.start kind level brackets).onSignal (.char c) = .ok
        ⟨{ SequenceReader.start kind level brackets with active := none },
          .enter (.leaf leaf), {}⟩ := by
      simp only [SequenceReader.onSignal, SequenceReader.start, hinline]
      rfl
    have htakes : Takes config (.char c) 1 (.leaf leaf) := takes_leaf hbegins
    refine ⟨_, congrArg (Except.map _) hreacts, rfl, hhosts none (.inl rfl) leaf, ?_, htakes⟩
    simp [Reaction.map, htext, hbegins.text_eq]
  | none =>
    have hreacts : (SequenceReader.start kind level brackets).onSignal (.char c) = .ok
        ⟨{ SequenceReader.start kind level brackets with
            active := some (⟨.name, .name, none⟩, rest) }, .enter (.leaf (.word "")), {}⟩ := by
      simp [SequenceReader.onSignal, SequenceReader.start, hinline, hparts,
        SequenceReader.beforePart, SequenceReader.startable?, SequenceReader.requirementMet,
        SequenceReader.canStart, SequenceReader.startPart, SequenceReader.partReader?, h, bind,
        Except.bind, pure, Except.pure]
    have htakes : Takes config (.char c) 1 (.leaf (.word "")) :=
      takes_leaf (LeafReader.begins_word h)
    refine ⟨_, congrArg (Except.map _) hreacts, rfl, hhosts _ (.inr rfl) (.word ""), ?_, htakes⟩
    simp [Reaction.map, htext, LeafReader.text]

/-- A leaf answers every signal. -/
theorem answers_leaf {r : LeafReader} (h : r.IsBegun) : Answers config signal (.leaf r) := by
  by_cases hstop : (r.feed signal).2 = .stop
  · have hkeeps := LeafReader.keeps_feed h.isOpen signal
    have hlayer := LeafReader.layer_feed r signal
    rcases hfeed : r.feed signal with ⟨next, verdict⟩
    simp only [hfeed] at hstop
    subst hstop
    simp only [hfeed, LeafReader.Keeps] at hkeeps hlayer
    simp only [Answers, onSignal, hfeed, yields_ok]
    exact .left ⟨hlayer, rfl, (hkeeps.1 h).isWhole, hkeeps.2, Nat.le_refl _⟩
  · refine ((takes_of_verdict h.isOpen hstop).mono (show 1 ≤ 5 by omega)).answers ?_
    cases signal with
    | endOfText => exact absurd rfl hstop
    | _ => rfl

end Reader

end ScriptTree
