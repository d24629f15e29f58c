import ScriptTree.Proofs.Endings.Trimmed
import ScriptTree.Proofs.Leaves

/-!
# Neat reading states

A state is neat if the tokens it holds are trimmed and every token that has a place in its form is
no trivia. A list that waits for a further branch of its last chain is not neat until the branch
comes, because the lines before the branch were moved to the end of the chain.
-/

namespace ScriptTree

/-- The white space of a line is trimmed. -/
def LineStart.Neat (line : LineStart) : Prop :=
  ∀ t ∈ line.indent, t.Trimmed

/-- A delivery of trimmed trees. -/
structure Delivery.Neat (d : Delivery) : Prop where
  leading : ∀ t ∈ d.leading, t.Trimmed
  token : ∀ t ∈ d.token, t.Trimmed
  trailing : ∀ t ∈ d.trailing, t.Trimmed
  handback : ∀ t ∈ d.handback, t.Trimmed
  line : ∀ line ∈ d.line, line.Neat

/-- A piece with a trimmed token, which is no trivia unless the piece is. -/
structure Piece.Neat (piece : Piece) : Prop where
  trimmed : piece.token.Trimmed
  placed : (∀ t, piece ≠ .trivia t) → piece.token.isTrivia = false

structure ExpressionReader.Neat (r : ExpressionReader) : Prop where
  pieces : ∀ piece ∈ r.pieces, piece.Neat
  handback : ∀ t ∈ r.handback, t.Trimmed
  line : ∀ line ∈ r.line, line.Neat

structure GroupReader.Neat (r : GroupReader) : Prop where
  form : Form.Neat r.form
  entry : ∀ entry ∈ r.entry, Form.Waits entry
  handback : ∀ t ∈ r.handback, t.Trimmed
  line : ∀ line ∈ r.line, line.Neat

structure SequenceReader.Neat (r : SequenceReader) : Prop where
  form : Form.Itemless r.form
  handback : ∀ t ∈ r.handback, t.Trimmed
  line : ∀ line ∈ r.line, line.Neat

/-- What a list holds besides its form. -/
structure BlockReader.HoldsTrimmed (r : BlockReader) : Prop where
  held : ∀ t ∈ r.held, t.Trimmed
  indent : ∀ t ∈ r.indent, t.Trimmed
  line : ∀ line ∈ r.line, line.Neat

structure BlockReader.Neat (r : BlockReader) : Prop extends r.HoldsTrimmed where
  form : Form.Neat r.form

/-- A list that is neat once its last chain has got a further branch. -/
structure BlockReader.AwaitsBranch (r : BlockReader) : Prop extends r.HoldsTrimmed where
  form : Branch.Awaits r.form

namespace Reader

/-- A state that holds nothing but trimmed trees, with no trivia where its parts belong. A leaf
holds text. -/
def Neat : Reader → Prop
  | .leaf r => r.text ≠ ""
  | .expression r => r.Neat
  | .group r => r.Neat
  | .sequence r => r.Neat
  | .block r => r.Neat
  | .root r => Form.Neat r.form

/-- A state that is neat unless it is a leaf, which may not have begun yet. -/
def NeatOrLeaf : Reader → Prop
  | .leaf _ => True
  | r => r.Neat

/-- A state that may be open inside another one. -/
def NeatInner : Reader → Prop
  | .root _ => False
  | r => r.NeatOrLeaf

/-- A state that is opened once another one has ended, which is no leaf. -/
def NeatOpened : Reader → Prop
  | .leaf _ => False
  | r => r.NeatInner

/-- A state inside which another one may be open. -/
inductive NeatAround : Reader → Prop
  | neat {r : Reader} (h : r.NeatOrLeaf) : NeatAround r
  | branch {r : BlockReader} (h : r.AwaitsBranch) (hgoal : r.goal = .branch) :
    NeatAround (.block r)

end Reader

/-- A neat state is neat. -/
theorem Reader.Neat.neatOrLeaf {r : Reader} (h : r.Neat) : r.NeatOrLeaf := by
  cases r with
  | leaf r => trivial
  | _ => exact h

/-- What a neat state answers to a signal: it stays neat, and so is the state it opens. -/
structure Reaction.Neat (reaction : Reaction Reader) : Prop where
  state : reaction.state.Neat
  entered : ∀ inner, reaction.step = .enter inner → inner.NeatInner

/-- What a state makes of a delivery: it is neat at the latest once all the states that it opens
have ended. -/
structure Receipt.Neat (receipt : Receipt Reader) : Prop where
  around : receipt.state.NeatAround
  alone : receipt.opened = [] → receipt.state.Neat
  opened : ∀ inner ∈ receipt.opened, inner.NeatOpened

/-- A neat state around the ones that it opens. -/
theorem Receipt.neat_of_state {receipt : Receipt Reader} (h : receipt.state.Neat)
    (hopened : ∀ inner ∈ receipt.opened, inner.NeatOpened) : receipt.Neat :=
  ⟨.neat h.neatOrLeaf, fun _ => h, hopened⟩

/-- A leaf that took text holds text. -/
theorem LeafReader.trimmed_token {r : LeafReader} {t : Tree} (h : r.text ≠ "")
    (ht : r.token? = some t) : t.Trimmed := by
  cases r with
  | word s =>
    rw [token?] at ht
    split at ht <;> cases ht
    · rename_i reserved _
      exact Tree.trimmed_ofText _ (by cases reserved <;> decide)
    · exact Tree.trimmed_ofText _ h
  | nodePath quoted s => cases quoted <;> cases ht <;> exact Tree.trimmed_ofText _ h
  | dots count =>
    cases ht
    exact Tree.trimmed_ofPunct _
  | invalid s =>
    rw [token?] at ht
    split at ht <;> cases ht
    exact Tree.trimmed_ofText _ h
  | _ =>
    cases ht
    exact Tree.trimmed_ofText _ h

/-- A leaf with text is trimmed. -/
theorem LeafReader.neat_token {r : LeafReader} (h : r.text ≠ "") :
    Delivery.Neat { token := r.token? } where
  leading := by simp
  token _ ht := trimmed_token h ht
  trailing := by simp
  handback := by simp
  line := by simp

/-! ### States that are opened -/

theorem ExpressionReader.neat_start (ctx : Context) : ({ ctx } : ExpressionReader).Neat :=
  ⟨by simp, by simp, by simp⟩

theorem GroupReader.neat_start (kind : GroupKind) (ctx : Context) : (start kind ctx).Neat :=
  ⟨Form.neat_nil, by simp [start], by simp [start], by simp [start]⟩

theorem SequenceReader.neat_start (kind : NodeKind) (level : Nat) (brackets : Bool) :
    (start kind level brackets).Neat :=
  ⟨Form.itemless_nil, by simp [start], by simp [start]⟩

theorem SequenceReader.afterKeyword_neat (kind : NodeKind) (level : Nat) {word : Tree}
    (hword : word.Trimmed) (hplaced : word.isTrivia = false) :
    Promises (afterKeyword kind level word) SequenceReader.Neat :=
  (Form.itemless_nil.place hword hplaced).bind fun _ hform =>
    promises_pure.2 ⟨hform, nofun, nofun⟩

theorem BlockReader.neat_start (kind : BlockKind) (mode : BlockMode) (level : Option Nat)
    (phase : BlockPhase) : (start kind mode level phase).Neat :=
  ⟨⟨by simp [start], by simp [start], by simp [start]⟩, Form.neat_nil⟩

end ScriptTree
