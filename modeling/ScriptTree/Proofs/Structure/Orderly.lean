import ScriptTree.Grammar.Root
import ScriptTree.Proofs.Openings
import ScriptTree.Proofs.Structure.Pieces

/-!
# What orderly reading states hold

An orderly state has read nothing but what may stand where it does: trivia and text without a place
among extras, regular trees in slots and among items, and pieces of an expression in order. A state
relies on what a state inside it delivers, and this depends only on what the inner state was opened
to read.
-/

namespace ScriptTree

namespace Tree

variable {t : Tree}

/-- A leaf as it was read: a reserved word is spelled as it should. -/
structure IsRead (t : Tree) : Prop where
  isLeaf : t.IsLeaf
  spelled : ∀ kw ∈ t.keyword?, t.leafText? = some kw.spelling

/-- An identifier or a reserved word, as it was read. -/
structure IsWord (t : Tree) : Prop extends t.IsRead where
  word : t.leafKind? = some .identifier ∨ t.keyword?.isSome

theorem isLeaf_of_isTrivia (h : t.isTrivia) : t.IsLeaf := by
  cases t with
  | leaf kind s extent => rfl
  | node kind form extent => cases h

theorem isLeaf_of_isInvalid (h : t.isInvalid) : t.IsLeaf := by
  cases t with
  | leaf kind s extent => rfl
  | node kind form extent => cases h

theorem isPlainExtra_of_isTrivia (h : t.isTrivia) : t.isPlainExtra := by
  simp [isPlainExtra, h]

/-- What is trivia or has no place may stand among extras. -/
theorem isPlainExtra_of_or (h : (t.isTrivia || t.isInvalid) = true) : t.isPlainExtra := by
  simp [isPlainExtra, h]

/-- What is trivia or has no place is a leaf. -/
theorem isLeaf_of_or (h : (t.isTrivia || t.isInvalid) = true) : t.IsLeaf :=
  (Bool.or_eq_true_iff.1 h).elim isLeaf_of_isTrivia isLeaf_of_isInvalid

/-- What is trivia or has no place is no reserved word. -/
theorem isRead_of_or (h : (t.isTrivia || t.isInvalid) = true) : t.IsRead := by
  refine ⟨isLeaf_of_or h, fun kw hkw => ?_⟩
  cases t with
  | leaf kind s extent => cases kind <;> first | cases h; done | cases hkw
  | node kind form extent => cases h

end Tree

namespace Form

variable {a : Allowance} {t : Tree}

/-- Trivia and text without a place may come anywhere. -/
theorem tidy_trivia (h : (t.isTrivia || t.isInvalid) = true) : Tidy a (extras [t]) :=
  tidy_extra (Tree.isPlainExtra_of_or h) (Tree.isLeaf_of_or h).regular

/-- So may any number of them, read from the end. -/
theorem tidy_reverse {tokens : List Tree}
    (h : ∀ t ∈ tokens, (t.isTrivia || t.isInvalid) = true) : Tidy a (extras tokens.reverse) := by
  refine tidy_extras fun t ht => ?_
  have hplain := h t (List.mem_reverse.1 ht)
  exact ⟨Tree.isPlainExtra_of_or hplain, (Tree.isLeaf_of_or hplain).regular⟩

/-- A leaf that has lost its place may come anywhere. -/
theorem tidy_invalidated (h : t.IsLeaf) : Tidy a (extras [t.invalidated]) :=
  tidy_extra h.isPlainExtra_invalidated h.invalidated.regular

end Form

/-! ### Origins -/

/-- What a state was opened to read, as far as the state around it relies on it. -/
inductive Origin where
  | trivia
  | word
  /-- The longest spelling of an operator. -/
  | symbol
  /-- A leaf that may be an operand. -/
  | literal
  | expression
  | group
  | sequence
  | block (kind : BlockKind)
  | root
  deriving DecidableEq

namespace Origin

/-- Whether a state of the origin reads a single leaf. -/
def isLeaf : Origin → Bool
  | .trivia | .word | .symbol | .literal => true
  | _ => false

/-- What a state of the origin delivers. -/
def Suits : Origin → Tree → Prop
  | .trivia, t => (t.isTrivia || t.isInvalid) = true
  | .word, t => t.IsWord
  | .symbol, t => ∃ text, t = .ofText (LeafReader.operatorLeafKind text) text
  | .literal, t => t.isLooseOperand ∨ t.isInvalid
  | .expression, _ => True
  | .group, t | .sequence, t => t.isLooseOperand
  | .block kind, t => ∃ form, t = .ofForm kind.nodeKind form ∧ Form.slots form = []
  | .root, t => ∃ form, t = .ofForm .expressionStatement form

end Origin

/-- The white space of a line is trivia. -/
def LineStart.IsOrderly (line : LineStart) : Prop :=
  ∀ t ∈ line.indent, t.isTrivia

/-- What a state of an origin hands to the state around it. A leaf is delivered on its own. -/
structure Delivery.FitsFrom (d : Delivery) (o : Origin) : Prop where
  leading : Form.Tidy {} (Form.extras d.leading)
  token : ∀ t ∈ d.token, t.Regular ∧ o.Suits t
  trailing : Form.Tidy {} (Form.extras d.trailing)
  handback : ∀ t ∈ d.handback, t.IsRead
  line : ∀ line ∈ d.line, line.IsOrderly
  alone : o.isLeaf → d.leading = [] ∧ d.trailing = [] ∧ d.handback = none ∧ d.line = none

/-! ### Orderly states -/

/-- White space is trivia. -/
def LeafReader.Orderly : LeafReader → Prop
  | .blank kind _ => kind.isTrivia
  | _ => True

/-- What the leaf is. -/
def LeafReader.origin : LeafReader → Origin
  | .blank _ _ | .comment _ | .continuation _ | .invalid _ => .trivia
  | .word _ => .word
  | .operator _ => .symbol
  | .number _ _ | .string _ _ | .nodePath _ _ | .dots _ => .literal

namespace ExpressionReader

/-- Pieces in order, the latest first, of which none waits for others. -/
def Settled (pieces : List Piece) : Prop :=
  Piece.Ordered {} true pieces.reverse

/-- A piece that waits for a word after the trivia that follow it. -/
inductive Waits : Piece → Prop where
  | point {t : Tree} (h : t.IsLeaf) : Waits (.point t)
  | negation {t : Tree} (h : t.leafText? = some "not") : Waits (.negation t)

/-- Pieces in order, the latest first: the last one but for trivia may wait for others, after an
operand. -/
inductive Fit (pieces : List Piece) : Prop where
  | settled (h : Settled pieces)
  | waiting (gap : List Tree) (piece : Piece) (earlier : List Piece)
      (heq : pieces = gap.map .trivia ++ piece :: earlier)
      (hgap : ∀ t ∈ gap, (t.isTrivia || t.isInvalid) = true) (hpiece : Waits piece)
      (h : Settled earlier) (hoperand : expectsOperand earlier = false)

/-- The invariant of an expression. -/
structure Orderly (r : ExpressionReader) : Prop where
  fit : Fit r.pieces
  handback : ∀ t ∈ r.handback, t.IsRead
  line : ∀ line ∈ r.line, line.IsOrderly

/-- What an expression opens states for. -/
def GoalSuits (r : ExpressionReader) (o : Origin) : Prop :=
  match r.goal with
  | .trivia => o = .trivia
  | .word => o = .word ∧ awaitsMember r.pieces = false
  | .member => o = .word
  | .operand => (o = .literal ∨ o = .group ∨ o = .sequence) ∧ Settled r.pieces ∧
    expectsOperand r.pieces = true
  | .operator => o = .symbol ∧ Settled r.pieces
  | .arguments | .subscript => o = .group ∧ Settled r.pieces ∧ expectsOperand r.pieces = false

/-- An expression with a state of the origin open inside it. -/
structure Receives (r : ExpressionReader) (o : Origin) : Prop extends r.Orderly where
  goal : r.GoalSuits o

end ExpressionReader

/-- The invariant of a group. -/
structure GroupReader.Orderly (r : GroupReader) : Prop where
  form : Form.Plain r.kind.nodeKind r.form
  entry : ∀ entry ∈ r.entry, Form.Plain .keyValue entry
  holds : r.entry.isSome → r.kind.nodeKind.hasItems
  handback : ∀ t ∈ r.handback, t.IsRead
  line : ∀ line ∈ r.line, line.IsOrderly

/-- A group with a state of the origin open inside it. -/
structure GroupReader.Receives (r : GroupReader) (o : Origin) : Prop extends r.Orderly where
  goal : r.goal = .trivia → o = .trivia

/-- The invariant of a production. -/
structure SequenceReader.Orderly (r : SequenceReader) : Prop where
  kind : r.kind.isLoose
  form : Form.Plain r.kind r.form
  handback : ∀ t ∈ r.handback, t.IsRead
  line : ∀ line ∈ r.line, line.IsOrderly

theorem SequenceReader.Orderly.isPlain {r : SequenceReader} (h : r.Orderly) : r.kind.isPlain :=
  NodeKind.isPlain_of_isLoose h.kind

/-- A production with a state of the origin open inside it: a word or an operator for a part that is
one, and trivia for no part. -/
structure SequenceReader.Receives (r : SequenceReader) (o : Origin) : Prop
    extends r.Orderly where
  trivia : r.active = none → o = .trivia
  active : ∀ part rest, r.active = some (part, rest) →
    if part.shape.isLeaf then o = .word ∨ o = .symbol else o.isLeaf = false

/-- The invariant of a block. -/
structure BlockReader.Orderly (r : BlockReader) : Prop where
  form : Form.Tidy {} r.form
  slots : Form.slots r.form = []
  held : ∀ t ∈ r.held, IsHeld t ∧ t.IsRead
  members : r.held ≠ [] → r.kind = .members
  indent : ∀ t ∈ r.indent, t.isTrivia
  line : ∀ line ∈ r.line, line.IsOrderly

mutual

/-- Whether a chain of branches has a place for a further one. -/
def Branch.isOpen : Tree → Bool
  | .node .ifStatement form _ => isOpenAt form
  | _ => false

/-- Whether a link of a chain has a place for a further one, or the chain that goes on in its
`else`. -/
def Branch.isOpenAt : List Entry → Bool
  | [] => true
  | (role, t) :: rest => if role = .slot .elseBranch then isOpen t else isOpenAt rest

end

/-- Whether the last item of a list is a chain with a place for a further branch. -/
def Branch.endsOpen (form : List Entry) : Bool :=
  (Form.items form).getLast?.any isOpen

/-- What a block opens states for. -/
def BlockReader.GoalSuits (r : BlockReader) (o : Origin) : Prop :=
  match r.goal with
  | .trivia | .indent => o = .trivia
  | .word => o = .word
  | .item => o = .sequence ∧ r.held = []
  | .branch => o = .sequence ∧ r.held = [] ∧ Branch.endsOpen r.form

/-- A block with a state of the origin open inside it. -/
structure BlockReader.Receives (r : BlockReader) (o : Origin) : Prop extends r.Orderly where
  goal : r.GoalSuits o

/-- The invariant of a standalone expression, which is begun before its slot is filled. -/
structure RootReader.Orderly (r : RootReader) : Prop where
  form : Form.Plain .expressionStatement r.form
  begun : .expression ∈ Form.slots r.form → r.begun = true

/-- A standalone expression with a state of the origin open inside it. -/
structure RootReader.Receives (r : RootReader) (o : Origin) : Prop extends r.Orderly where
  goal : o = .trivia ∨ o = .expression ∧ r.begun = true ∧ .expression ∉ Form.slots r.form

namespace Reader

/-- What the state was opened to read. -/
def origin : Reader → Origin
  | .leaf r => r.origin
  | .expression _ => .expression
  | .group _ => .group
  | .sequence _ => .sequence
  | .block r => .block r.kind
  | .root _ => .root

/-- A state that holds nothing but what may stand where it does. -/
def Orderly : Reader → Prop
  | .leaf r => r.Orderly
  | .expression r => r.Orderly
  | .group r => r.Orderly
  | .sequence r => r.Orderly
  | .block r => r.Orderly
  | .root r => r.Orderly

/-- An orderly state inside which a state of the given origin is open. -/
def Receives (r : Reader) (o : Origin) : Prop :=
  match r with
  | .leaf _ => False
  | .expression r => r.Receives o
  | .group r => r.Receives o
  | .sequence r => r.Receives o
  | .block r => r.Receives o
  | .root r => r.Receives o

variable {r : Reader} {o : Origin}

/-- A state inside which another one is open is orderly. -/
theorem Receives.orderly (h : r.Receives o) : r.Orderly := by
  cases r with
  | leaf r => exact False.elim h
  | expression r => exact h.toOrderly
  | group r => exact h.toOrderly
  | sequence r => exact h.toOrderly
  | block r => exact h.toOrderly
  | root r => exact h.toOrderly

/-- A state and the states open inside it, the outermost first, are orderly. -/
def Nests : Reader → List Reader → Prop
  | r, [] => r.Orderly
  | r, inner :: more => r.Receives inner.origin ∧ Nests inner more

/-- The outermost of states one inside another is orderly. -/
theorem Nests.orderly {opened : List Reader} (h : Nests r opened) : r.Orderly := by
  cases opened with
  | nil => exact h
  | cons inner more => exact h.1.orderly

end Reader

/-- What an orderly state answers to a signal. -/
def Step.Follows (state : Reader) : Step → Prop
  | .accept | .acceptAndComplete | .complete => state.Orderly
  | .enter inner => state.Receives inner.origin ∧ inner.Orderly
  | .absorb => state.Receives .trivia

/-- What an orderly state makes of a signal. -/
structure Reaction.Follows (reaction : Reaction Reader) (o : Origin) : Prop where
  origin : reaction.state.origin = o
  step : reaction.step.Follows reaction.state

/-- What an orderly state makes of a delivery. -/
structure Receipt.Follows (receipt : Receipt Reader) (o : Origin) : Prop where
  origin : receipt.state.origin = o
  nests : Reader.Nests receipt.state receipt.opened

/-! ### Leaves -/

namespace LeafReader

variable {r : LeafReader}

theorem orderly_shape : r.shape.Orderly ↔ r.Orderly := by
  cases r <;> rfl

@[simp]
theorem origin_shape (r : LeafReader) : r.shape.origin = r.origin := by
  cases r <;> rfl

/-- A leaf reader stays what it is. -/
theorem Orderly.feed (h : r.Orderly) (signal : Signal) :
    (r.feed signal).1.Orderly ∧ (r.feed signal).1.origin = r.origin := by
  rw [← orderly_shape, ← origin_shape, shape_feed, origin_shape]
  exact ⟨orderly_shape.2 h, rfl⟩

/-- A leaf that may be an operand, or that has no place. -/
theorem suits_literal {kind : LeafKind} (s : String) (h : kind.isOperand ∨ kind = .invalid) :
    (Tree.ofText kind s).IsLeaf ∧ Origin.literal.Suits (.ofText kind s) := by
  refine ⟨rfl, h.imp (fun hkind => Bool.and_eq_true_iff.2 ⟨hkind, rfl⟩) ?_⟩
  rintro rfl
  rfl

/-- A leaf reader delivers a leaf of what it was opened to read. -/
theorem Orderly.suits (h : r.Orderly) {t : Tree} (ht : r.token? = some t) :
    t.IsLeaf ∧ r.origin.Suits t := by
  cases r with
  | blank kind s =>
    cases ht
    have hkind : kind.isTrivia = true := h
    exact ⟨rfl, by simp [origin, Origin.Suits, Tree.isTrivia, Tree.ofText, Tree.leafKind?, Tree.kind,
      TokenKind.leaf?, hkind]⟩
  | comment s =>
    cases ht
    exact ⟨rfl, rfl⟩
  | continuation s =>
    cases ht
    refine ⟨rfl, ?_⟩
    change (Tree.isTrivia (.ofText _ s) || Tree.isInvalid (.ofText _ s)) = true
    split <;> rfl
  | invalid s =>
    rw [token?] at ht
    split at ht <;> cases ht
    exact ⟨rfl, rfl⟩
  | word s =>
    rw [token?] at ht
    split at ht <;> cases ht
    · exact ⟨rfl, ⟨⟨rfl, fun kw hkw => by cases hkw; rfl⟩, .inr rfl⟩⟩
    · exact ⟨rfl, ⟨⟨rfl, fun kw hkw => by cases hkw⟩, .inl rfl⟩⟩
  | operator s =>
    cases ht
    exact ⟨rfl, s, rfl⟩
  | number scan s | string scan s =>
    cases ht
    exact suits_literal s (by split <;> simp [LeafKind.isOperand])
  | nodePath quoted s =>
    cases quoted <;>
    · cases ht
      exact suits_literal s (by split <;> simp [LeafKind.isOperand])
  | dots count =>
    cases ht
    exact suits_literal _ (.inl rfl)

/-- A leaf is delivered on its own. -/
theorem Orderly.fitsFrom (h : r.Orderly) :
    Delivery.FitsFrom { token := r.token? } r.origin where
  leading := Form.tidy_nil _
  token _ ht := (h.suits ht).imp_left Tree.IsLeaf.regular
  trailing := Form.tidy_nil _
  handback := nofun
  line := nofun
  alone _ := ⟨rfl, rfl, rfl, rfl⟩

end LeafReader

/-! ### States that are opened -/

/-- Trivia at a signal: a token that is one, or a reader for it. -/
def TriviaStart.Orderly : TriviaStart → Prop
  | .token t => t.isTrivia
  | .reader leaf => leaf.Orderly ∧ leaf.origin = .trivia

namespace TriviaStart

variable {signal : Signal}

theorem orderly_of_inline? {leaf : LeafReader} (h : inline? signal = some leaf) :
    leaf.Orderly ∧ leaf.origin = .trivia := by
  cases signal with
  | char c =>
    simp only [inline?] at h
    split at h <;> cases h
    exact ⟨rfl, rfl⟩
  | escape =>
    cases h
    exact ⟨trivial, rfl⟩
  | _ => cases h

/-- Trivia are trivia, inside brackets or not. -/
theorem orderly_of_at? {brackets : Bool} {start : TriviaStart}
    (h : at? brackets signal = some start) : start.Orderly := by
  have hinline (h : (inline? signal).map reader = some start) : start.Orderly := by
    obtain ⟨leaf, hleaf, rfl⟩ := Option.map_eq_some_iff.1 h
    exact orderly_of_inline? hleaf
  rw [at?] at h
  split at h
  · cases signal with
    | newLine | carriageReturn =>
      cases h
      rfl
    | commentStart =>
      cases h
      exact ⟨trivial, rfl⟩
    | _ => exact hinline h
  · exact hinline h

end TriviaStart

/-- A group of which nothing was read. -/
theorem GroupReader.orderly_start (kind : GroupKind) (ctx : Context) : (start kind ctx).Orderly :=
  ⟨Form.plain_nil _, nofun, nofun, nofun, nofun⟩

/-- An expression of which nothing was read. -/
theorem ExpressionReader.orderly_start (ctx : Context) : ({ ctx } : ExpressionReader).Orderly :=
  ⟨.settled trivial, nofun, nofun⟩

/-- A production of which nothing was read. -/
theorem SequenceReader.orderly_start {kind : NodeKind} (h : kind.isLoose) (level : Nat)
    (brackets : Bool) : (start kind level brackets).Orderly :=
  ⟨h, Form.plain_nil kind, nofun, nofun⟩

/-- A production of which a keyword was read. -/
theorem SequenceReader.afterKeyword_promises {kind : NodeKind} (h : kind.isLoose) (level : Nat)
    {word : Tree} (hword : word.Regular) : Promises (afterKeyword kind level word) Orderly :=
  ((Form.plain_nil kind).place (NodeKind.isPlain_of_isLoose h) hword).bind fun _ hform =>
    promises_pure.2 ⟨h, hform, nofun, nofun⟩

/-- A block of which nothing was read. -/
theorem BlockReader.orderly_start (kind : BlockKind) (mode : BlockMode) (level : Option Nat)
    (phase : BlockPhase) : (start kind mode level phase).Orderly :=
  ⟨Form.tidy_nil _, rfl, nofun, fun h => absurd rfl h, nofun, nofun⟩

end ScriptTree
