import ScriptTree.Grammar.Block
import ScriptTree.Proofs.Spellings.Trees
import Mathlib.Data.List.Forall2

/-!
# Reading states of the two spellings

Two reading states are twins if they differ in nothing but the spelling of what they have read.
What states answer and deliver are twins in the same sense.
-/

namespace ScriptTree

/-- A leaf reader as it is opened. -/
def LeafReader.IsFresh : LeafReader → Prop
  | .blank _ text | .comment text | .continuation text | .word text | .operator text => text = ""
  | .number scan text => scan = .start ∧ text = ""
  | .string scan text => scan = .start ∧ text = ""
  | .nodePath quoted text => quoted = none ∧ text = ""
  | .dots count => count = 0
  | .invalid text => ∃ c, text = String.singleton c

section

variable [Spelling]

/-- White space of a line that is measured alike in the two spellings. -/
structure Tree.SameLevel (Suits : Config → Prop) (t t' : Tree) : Prop where
  twin : t.Twin t'
  measure_eq {config : Config} (h : Suits config) :
    BlockReader.measure config (some t') = BlockReader.measure config (some t)

end

/-- A way to spell texts differently, with what readers of single leaves make of it. -/
class ReaderSpelling extends Spelling where
  /-- The settings under which white space is measured alike. -/
  Suits : Config → Prop
  /-- The signals that are the same in the two spellings. -/
  IsPlain : Signal → Prop
  /-- The same leaf, of which the two spellings were read so far. -/
  LeafTwin : LeafReader → LeafReader → Prop
  /-- The same text after the end of the outermost state. -/
  Leftover : String → String → Prop
  isPlain_endOfText : IsPlain .endOfText
  leafTwin_fresh {r : LeafReader} (h : r.IsFresh) : LeafTwin r r
  leafTwin_feed {r r' : LeafReader} {signal : Signal} (h : LeafTwin r r')
    (hsignal : IsPlain signal) :
    LeafTwin (r.feed signal).1 (r'.feed signal).1 ∧ (r'.feed signal).2 = (r.feed signal).2
  isCutShort_eq {r r' : LeafReader} (h : LeafTwin r r') : r'.isCutShort = r.isCutShort
  token?_twin {r r' : LeafReader} (h : LeafTwin r r') : Option.Rel Tree.Twin r.token? r'.token?
  token?_sameLevel {kind : LeafKind} {text : String} {r' : LeafReader}
    (h : LeafTwin (.blank kind text) r') :
    Option.Rel (Tree.SameLevel Suits) (LeafReader.blank kind text).token? r'.token?
  leftover_empty : Leftover "" ""
  leftover_append {s s' : String} {signal : Signal} (h : Leftover s s')
    (hsignal : IsPlain signal) :
    Leftover (s ++ String.ofList signal.toChar?.toList)
      (s' ++ String.ofList signal.toChar?.toList)
  leftover_respelled {s s' : String} (h : Leftover s s') : Respelled s s'

variable [ReaderSpelling]

/-- The same beginning of a line in the two spellings. -/
structure LineStart.Twin (l l' : LineStart) : Prop where
  indent : Option.Rel Tree.Twin l.indent l'.indent
  level : l'.level = l.level

/-- The same delivery in the two spellings. -/
structure Delivery.Twin (d d' : Delivery) : Prop where
  leading : Tree.Twins d.leading d'.leading
  token : Option.Rel Tree.Twin d.token d'.token
  trailing : Tree.Twins d.trailing d'.trailing
  handback : Option.Rel Tree.Twin d.handback d'.handback
  line : Option.Rel LineStart.Twin d.line d'.line

/-- The same piece in the two spellings. -/
inductive Piece.Twin : Piece → Piece → Prop where
  | operand {t t' : Tree} (h : t.Twin t') : Twin (.operand t) (.operand t')
  | operation (op : Operation) {t t' : Tree} (h : t.Twin t') :
      Twin (.operation op t) (.operation op t')
  | trivia {t t' : Tree} (h : t.Twin t') : Twin (.trivia t) (.trivia t')
  | point {t t' : Tree} (h : t.Twin t') : Twin (.point t) (.point t')
  | negation {t t' : Tree} (h : t.Twin t') : Twin (.negation t) (.negation t')

/-- A line feed among pieces, and the two pieces that it corresponds to. -/
structure Piece.Breaks (a b c : Piece) : Prop where
  twice : Spelling.BreaksTwice
  lineFeed : a = .trivia (.ofText .newLine "\n")
  carriageReturn : b = .trivia (.ofText .carriageReturn "\r")
  lineFeed' : c = .trivia (.ofText .newLine "\n")

/-- The same pieces in the two spellings, in text order. -/
abbrev Piece.Twins (pieces pieces' : List Piece) : Prop :=
  Aligned Piece.Twin Piece.Breaks pieces pieces'

/-- The same pieces in the two spellings, the latest first. -/
abbrev Piece.LatestTwins (pieces pieces' : List Piece) : Prop :=
  Aligned Piece.Twin (fun a b c => Piece.Breaks a c b) pieces pieces'

/-- The same expression in the two spellings. -/
structure ExpressionReader.Twin (r r' : ExpressionReader) : Prop where
  ctx : r'.ctx = r.ctx
  pieces : Piece.LatestTwins r.pieces r'.pieces
  goal : r'.goal = r.goal
  openTernaries : r'.openTernaries = r.openTernaries
  done : r'.done = r.done
  handback : Option.Rel Tree.Twin r.handback r'.handback
  line : Option.Rel LineStart.Twin r.line r'.line

/-- The same group in the two spellings. -/
structure GroupReader.Twin (r r' : GroupReader) : Prop where
  kind : r'.kind = r.kind
  form : Form.Twin r.form r'.form
  ctx : r'.ctx = r.ctx
  opened : r'.opened = r.opened
  expected : r'.expected = r.expected
  goal : r'.goal = r.goal
  entry : Option.Rel Form.Twin r.entry r'.entry
  done : r'.done = r.done
  handback : Option.Rel Tree.Twin r.handback r'.handback
  line : Option.Rel LineStart.Twin r.line r'.line

/-- The words that parts ask for are solid. -/
def Production.Spelled (parts : List Part) : Prop :=
  ∀ part ∈ parts, ∀ text, part.shape = .contextual text → Text.IsSolid text

/-- The same production in the two spellings. -/
structure SequenceReader.Twin (r r' : SequenceReader) : Prop where
  kind : r'.kind = r.kind
  form : Form.Twin r.form r'.form
  remaining : r'.remaining = r.remaining
  spelled : Production.Spelled r.remaining
  active : r'.active = r.active
  activeSpelled : ∀ active ∈ r.active, Production.Spelled (active.1 :: active.2)
  level : r'.level = r.level
  brackets : r'.brackets = r.brackets
  done : r'.done = r.done
  handback : Option.Rel Tree.Twin r.handback r'.handback
  line : Option.Rel LineStart.Twin r.line r'.line

/-- The same block in the two spellings. The white space of its line is measured alike. -/
structure BlockReader.Twin (r r' : BlockReader) : Prop where
  kind : r'.kind = r.kind
  form : Form.Twin r.form r'.form
  mode : r'.mode = r.mode
  level : r'.level = r.level
  phase : r'.phase = r.phase
  indent : Option.Rel (Tree.SameLevel ReaderSpelling.Suits) r.indent r'.indent
  goal : r'.goal = r.goal
  held : Tree.Twins r.held r'.held
  extendsOnly : r'.extendsOnly = r.extendsOnly
  done : r'.done = r.done
  line : Option.Rel LineStart.Twin r.line r'.line

/-- The same standalone expression in the two spellings. -/
structure RootReader.Twin (r r' : RootReader) : Prop where
  form : Form.Twin r.form r'.form
  begun : r'.begun = r.begun

/-- The same reading state in the two spellings. -/
inductive Reader.Twin : Reader → Reader → Prop where
  | leaf {r r' : LeafReader} (h : ReaderSpelling.LeafTwin r r') : Twin (.leaf r) (.leaf r')
  | expression {r r' : ExpressionReader} (h : r.Twin r') : Twin (.expression r) (.expression r')
  | group {r r' : GroupReader} (h : r.Twin r') : Twin (.group r) (.group r')
  | sequence {r r' : SequenceReader} (h : r.Twin r') : Twin (.sequence r) (.sequence r')
  | block {r r' : BlockReader} (h : r.Twin r') : Twin (.block r) (.block r')
  | root {r r' : RootReader} (h : r.Twin r') : Twin (.root r) (.root r')

/-- The same production or expression in the two spellings; a delivery opens no other states. -/
inductive Reader.OpenedTwin : Reader → Reader → Prop where
  | expression {r r' : ExpressionReader} (h : r.Twin r') :
      OpenedTwin (.expression r) (.expression r')
  | sequence {r r' : SequenceReader} (h : r.Twin r') : OpenedTwin (.sequence r) (.sequence r')

/-- The same states that a delivery opens in the two spellings. -/
abbrev Reader.OpenedTwins (rs rs' : List Reader) : Prop :=
  List.Forall₂ Reader.OpenedTwin rs rs'

/-- The same answer in the two spellings. -/
inductive Step.Twin : Step → Step → Prop where
  | accept : Twin .accept .accept
  | acceptAndComplete : Twin .acceptAndComplete .acceptAndComplete
  | complete : Twin .complete .complete
  | enter {inner inner' : Reader} (h : inner.Twin inner') : Twin (.enter inner) (.enter inner')
  | absorb : Twin .absorb .absorb

/-- The same reaction of states that are twins in a given sense. -/
structure Reaction.Twin {σ : Type} (R : σ → σ → Prop) (x y : Reaction σ) : Prop where
  state : R x.state y.state
  step : Step.Twin x.step y.step
  notices : y.notices = x.notices

/-- The same receipt of states that are twins in a given sense. -/
structure Receipt.Twin {σ : Type} (R : σ → σ → Prop) (x y : Receipt σ) : Prop where
  state : R x.state y.state
  opened : Reader.OpenedTwins x.opened y.opened
  notices : y.notices = x.notices

namespace Reader

/-- What a delivery opens are twins. -/
theorem OpenedTwin.twin {r r' : Reader} (h : r.OpenedTwin r') : r.Twin r' := by
  cases h with
  | expression h => exact .expression h
  | sequence h => exact .sequence h

/-- A leaf of which nothing was read. -/
theorem twin_leaf {r : LeafReader} (h : r.IsFresh) : (leaf r).Twin (leaf r) :=
  .leaf (ReaderSpelling.leafTwin_fresh h)

end Reader

namespace Reaction

variable {σ τ : Type} {R : σ → σ → Prop} {S : τ → τ → Prop}

/-- Reactions of states wrapped in larger ones. -/
theorem Twin.map {x y : Reaction σ} {f : σ → τ} (h : Reaction.Twin R x y)
    (hf : ∀ a b, R a b → S (f a) (f b)) : Reaction.Twin S (x.map f) (y.map f) :=
  ⟨hf _ _ h.state, h.step, h.notices⟩

end Reaction

namespace Receipt

variable {σ τ : Type} {R : σ → σ → Prop} {S : τ → τ → Prop}

/-- Receipts of states wrapped in larger ones. -/
theorem Twin.map {x y : Receipt σ} {f : σ → τ} (h : Receipt.Twin R x y)
    (hf : ∀ a b, R a b → S (f a) (f b)) : Receipt.Twin S (x.map f) (y.map f) :=
  ⟨hf _ _ h.state, h.opened, h.notices⟩

/-- A receipt that opens no states. -/
theorem twin_state {a b : σ} (h : R a b) :
    Receipt.Twin R { state := a } { state := b } :=
  ⟨h, .nil, rfl⟩

end Receipt

namespace TriviaStart

/-- Trivia start in the same way in the two spellings, and a reader of trivia has read nothing. -/
theorem twin_of_inline? {signal : Signal} {leaf : LeafReader} (h : inline? signal = some leaf) :
    (Reader.leaf leaf).Twin (.leaf leaf) := by
  cases signal with
  | char c =>
    simp only [inline?] at h
    split at h <;> cases h
    exact Reader.twin_leaf rfl
  | escape =>
    cases h
    exact Reader.twin_leaf rfl
  | _ => cases h

theorem twin_of_bracketed? {signal : Signal} {leaf : LeafReader}
    (h : bracketed? signal = some (.reader leaf)) : (Reader.leaf leaf).Twin (.leaf leaf) := by
  cases signal with
  | commentStart =>
    cases h
    exact Reader.twin_leaf rfl
  | char c =>
    have hmap : (inline? (.char c)).map reader = some (reader leaf) := h
    obtain ⟨_, hinline, heq⟩ := Option.map_eq_some_iff.1 hmap
    cases heq
    exact twin_of_inline? hinline
  | escape =>
    cases h
    exact Reader.twin_leaf rfl
  | _ => cases h

theorem twin_of_at? {brackets : Bool} {signal : Signal} {leaf : LeafReader}
    (h : at? brackets signal = some (.reader leaf)) : (Reader.leaf leaf).Twin (.leaf leaf) := by
  rw [at?] at h
  split at h
  · exact twin_of_bracketed? h
  · obtain ⟨_, hinline, heq⟩ := Option.map_eq_some_iff.1 h
    cases heq
    exact twin_of_inline? hinline

end TriviaStart

end ScriptTree
