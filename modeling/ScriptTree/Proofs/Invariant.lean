import Mathlib.Algebra.GroupWithZero.Nat
import ScriptTree.Parse.Automaton
import ScriptTree.Proofs.Folding
import ScriptTree.Proofs.Leaves

/-!
# The invariant of the reading states

Every reading state holds the text that it took, in order. A state is either innermost and at
rest, ready for any signal, or it hosts the state that is open inside it; which states it may host
depends on what it opened them for. A bound on the steps that a signal may still take comes with
each state.
-/

namespace ScriptTree

/-- The text of the white space with which a line was begun. -/
def textOfLine (line : Option LineStart) : String :=
  Tree.textOfTokens (line.bind LineStart.indent).toList

/-- The text that a state hands on when it ends. -/
def textHandedOn (handback : Option Tree) (line : Option LineStart) : String :=
  Tree.textOfTokens handback.toList ++ textOfLine line

@[simp]
theorem textOfLine_none : textOfLine none = "" := by
  simp [textOfLine]

@[simp]
theorem textHandedOn_none : textHandedOn none none = "" := by
  simp [textHandedOn]

/-- The text of a delivery. -/
def Delivery.text (d : Delivery) : String :=
  Tree.textOfTokens (d.leading ++ d.token.toList ++ d.trailing) ++ textHandedOn d.handback d.line

/-- A state that goes on hands nothing on, and one that ended hands on a token or a line but not
both. -/
structure HandsOn (done : Bool) (handback : Option Tree) (line : Option LineStart) : Prop where
  of_open : done = false → handback = none ∧ line = none
  exclusive : handback = none ∨ line = none

theorem HandsOn.nothing (done : Bool) : HandsOn done none none :=
  ⟨fun _ => ⟨rfl, rfl⟩, .inl rfl⟩

theorem HandsOn.token (token : Tree) : HandsOn true (some token) none :=
  ⟨nofun, .inr rfl⟩

theorem HandsOn.line (line : LineStart) : HandsOn true none (some line) :=
  ⟨nofun, .inl rfl⟩

/-- What stays the same about a state while it is open. -/
inductive Layer where
  /-- White space. -/
  | blank
  /-- Another leaf that is trivia or has no place. -/
  | trivia
  /-- Any other leaf. -/
  | leaf
  | expression
  | group
  | sequence
  | block (mode : BlockMode)
  | root
  deriving DecidableEq

/-- Whether a state of the layer reads a single leaf. -/
def Layer.isLeaf : Layer → Bool
  | .blank | .trivia | .leaf => true
  | _ => false

/-- Whether a state of the layer reads trivia or text without a place. -/
def Layer.isTrivia : Layer → Bool
  | .blank | .trivia => true
  | _ => false

/-- Trivia and text without a place stand in leaves. -/
theorem Layer.isLeaf_of_isTrivia {layer : Layer} (h : layer.isTrivia) : layer.isLeaf := by
  cases layer <;> first | rfl | cases h

/-- Whether a state of the layer may stand for a whole text. -/
def Layer.IsOutermost : Layer → Prop
  | .block .root | .block .single | .root => True
  | _ => False

/-! ### Text -/

/-- The text that an expression holds. -/
def ExpressionReader.text (r : ExpressionReader) : String :=
  textOfPieces r.pieces.reverse ++ textHandedOn r.handback r.line

/-- The text that a group holds. -/
def GroupReader.text (r : GroupReader) : String :=
  Tree.textOfForm r.sealedForm ++ textHandedOn r.handback r.line

/-- The text that a production holds. -/
def SequenceReader.text (r : SequenceReader) : String :=
  Tree.textOfForm r.form ++ textHandedOn r.handback r.line

/-- The text that a block holds. -/
def BlockReader.text (r : BlockReader) : String :=
  Tree.textOfForm r.form ++ Tree.textOfTokens (r.held ++ r.indent.toList) ++ textOfLine r.line

/-- The text that a standalone expression holds. -/
def RootReader.text (r : RootReader) : String :=
  Tree.textOfForm r.form

namespace Form

variable {α : Type}

/-- The roles of the children in order. -/
def roles (form : List (Role × α)) : List Role :=
  form.map Prod.fst

@[simp]
theorem roles_nil : roles ([] : List (Role × α)) = [] := rfl

@[simp]
theorem roles_cons (role : Role) (child : α) (rest : List (Role × α)) :
    roles ((role, child) :: rest) = role :: roles rest := rfl

@[simp]
theorem roles_append (xs ys : List (Role × α)) : roles (xs ++ ys) = roles xs ++ roles ys := by
  simp [roles]

@[simp]
theorem mem_roles_extras {role : Role} {children : List α} :
    role ∈ roles (extras children) ↔ role = .extra ∧ children ≠ [] := by
  cases children with
  | nil => simp
  | cons child rest =>
    simp only [roles, extras, List.map_cons, List.map_map, List.mem_cons, List.mem_map,
      Function.comp_apply, ne_eq, reduceCtorEq, not_false_eq_true, and_true]
    constructor
    · rintro (h | ⟨_, _, h⟩)
      · exact h
      · exact h.symm
    · exact .inl

end Form

/-! ### States at rest and hosts -/

/-- The invariant of an expression. -/
structure ExpressionReader.Rests (r : ExpressionReader) : Prop where
  hands : HandsOn r.done r.handback r.line

/-- An expression with a state of the layer open inside it. A word or an operator may end the
expression, so that nothing else can come with it. -/
structure ExpressionReader.Hosts (r : ExpressionReader) (layer : Layer) : Prop
    extends r.Rests where
  going : r.done = false
  leaf : r.goal = .word ∨ r.goal = .operator → layer.isLeaf

/-- A dictionary entry to which a value may still be added, and before that a sign. -/
structure GroupReader.EntryFits (expected : GroupExpectation) (entry : List Entry) : Prop where
  items : .item ∉ Form.roles entry
  value : .slot .value ∉ Form.roles entry
  signs : expected = .separator →
    .slot .colon ∉ Form.roles entry ∧ .slot .assign ∉ Form.roles entry

/-- The invariant of a group between its brackets. -/
structure GroupReader.Sound (r : GroupReader) : Prop where
  hands : HandsOn r.done r.handback r.line
  opened : r.opened = true
  unclosed : .slot .closing ∉ Form.roles r.form
  single : r.kind.isSingle → .item ∉ Form.roles r.form ∧
    (r.expected = .item → .slot .inner ∉ Form.roles r.form)
  dictionary : r.entry.isSome → r.kind = .dictionary
  entry : ∀ entry ∈ r.entry, EntryFits r.expected entry
  value : r.expected = .value → r.entry.isSome

/-- A group at rest. -/
structure GroupReader.Rests (r : GroupReader) : Prop extends r.Sound where
  idle : r.goal = .trivia

/-- A group with a state open inside it. -/
structure GroupReader.Hosts (r : GroupReader) : Prop extends r.Sound where
  going : r.done = false
  goal_item : r.goal = .item → r.expected = .item
  goal_value : r.goal = .value → r.expected = .value

/-- Whether a part is a block. -/
def Part.isBlock (part : Part) : Bool :=
  match part.shape with
  | .block _ => true
  | _ => false

/-- The invariant of a production: its filled slots are among those that were passed, a part is
filled only when the part that it depends on is, and a block is passed only then as well. -/
structure SequenceReader.Sound (r : SequenceReader) : Prop where
  hands : HandsOn r.done r.handback r.line
  items : .item ∉ Form.roles r.form
  order : ∃ passed, Production.parts r.kind = passed ++ r.remaining ∧
    (Form.slots r.form).Sublist (passed.map Part.slot)
  required : ∀ part ∈ Production.parts r.kind, part.slot ∈ Form.slots r.form →
    r.requirementMet part
  block : ∀ part ∈ Production.parts r.kind, part.isBlock → part ∉ r.remaining →
    r.requirementMet part

/-- A production at rest. -/
structure SequenceReader.Rests (r : SequenceReader) : Prop extends r.Sound where
  inactive : r.active = none

/-- A production with a state of the layer open inside it, for the active part if there is one. -/
structure SequenceReader.Hosts (r : SequenceReader) (layer : Layer) : Prop extends r.Sound where
  going : r.done = false
  trivia : r.active = none → layer.isLeaf
  active : ∀ part rest, r.active = some (part, rest) →
    (part :: rest) <:+ r.remaining ∧ r.requirementMet part ∧
      (part.shape.isLeaf → layer.isLeaf) ∧ (part.isBlock → ∃ mode, layer = .block mode)

mutual

/-- A chain of branches goes on in the last child of each link. -/
def Tree.EndsInChain : Tree → Prop
  | .node .ifStatement form _ => Tree.FormEndsInChain form
  | _ => True

/-- A form holds no items, and its `else` slot is the last entry. -/
def Tree.FormEndsInChain : List Entry → Prop
  | [] => True
  | (role, t) :: rest => role ≠ .item ∧ Tree.FormEndsInChain rest ∧
    (role = .slot .elseBranch → rest = [] ∧ t.EndsInChain)

end

/-- A token that a block may hold back: `static`, with what has no place and trivia after it. -/
def BlockReader.IsHeld (token : Tree) : Prop :=
  token.isTrivia ∨ token.isInvalid ∨ token.keyword? = some .staticKw

/-- The invariant of a block. -/
structure BlockReader.Rests (r : BlockReader) : Prop where
  form : ∀ entry ∈ r.form, entry.1 = .extra ∨ (entry.1 = .item ∧ entry.2.EndsInChain)
  held : r.held ≠ [] → r.kind = .members ∧ r.phase = .itemStart
  tokens : ∀ token ∈ r.held, IsHeld token
  indent : r.indent ≠ none → r.phase = .afterIndent
  done : r.done = r.line.isSome
  line : r.line ≠ none →
    r.held = [] ∧ r.indent = none ∧ ¬ (Layer.block r.mode).IsOutermost

/-- What a block may have opened a state of the layer for. -/
def BlockReader.GoalFits (r : BlockReader) (layer : Layer) : Prop :=
  match r.goal with
  | .trivia => layer.isTrivia
  | .word => layer.isLeaf ∧ r.phase = .itemStart
  | .indent => layer = .blank ∧ r.phase = .lineStart
  | .item => layer = .sequence ∧ r.held = []
  | .branch => layer = .sequence ∧ r.held = [] ∧ ∃ before t, r.form = before ++ [(.item, t)]

/-- A block with a state of the layer open inside it. -/
structure BlockReader.Hosts (r : BlockReader) (layer : Layer) : Prop extends r.Rests where
  going : r.line = none
  placed : r.indent = none
  goal : r.GoalFits layer

/-- The invariant of a standalone expression. -/
structure RootReader.Rests (r : RootReader) : Prop where
  items : .item ∉ Form.roles r.form

/-- Trivia, and text without a place, never become other leaves. -/
def LeafReader.layer : LeafReader → Layer
  | .blank kind _ => if kind.isTrivia then .blank else .leaf
  | .comment _ | .continuation _ | .invalid _ => .trivia
  | _ => .leaf

namespace Reader

/-- What stays the same about a state while it is open. -/
def layer : Reader → Layer
  | .leaf r => r.layer
  | .expression _ => .expression
  | .group _ => .group
  | .sequence _ => .sequence
  | .block r => .block r.mode
  | .root _ => .root

/-- The text that a state holds. -/
def text : Reader → String
  | .leaf r => r.text
  | .expression r => r.text
  | .group r => r.text
  | .sequence r => r.text
  | .block r => r.text
  | .root r => r.text

@[simp]
theorem text_leaf (r : LeafReader) : (leaf r).text = r.text := rfl

@[simp]
theorem text_expression (r : ExpressionReader) : (expression r).text = r.text := rfl

@[simp]
theorem text_group (r : GroupReader) : (group r).text = r.text := rfl

@[simp]
theorem text_sequence (r : SequenceReader) : (sequence r).text = r.text := rfl

@[simp]
theorem text_block (r : BlockReader) : (block r).text = r.text := rfl

@[simp]
theorem text_root (r : RootReader) : (root r).text = r.text := rfl

/-- A state that is innermost and ready for any signal. -/
def Rests : Reader → Prop
  | .leaf r => r.IsBegun
  | .expression r => r.Rests
  | .group r => r.Rests
  | .sequence r => r.Rests
  | .block r => r.Rests
  | .root r => r.Rests

/-- A state inside which a state of the given layer is open. -/
def Hosts (r : Reader) (layer : Layer) : Prop :=
  match r with
  | .leaf _ => False
  | .expression r => r.Hosts layer
  | .group r => r.Hosts
  | .sequence r => r.Hosts layer
  | .block r => r.Hosts layer
  | .root r => r.Rests

/-- A state that may end. -/
def Ends : Reader → Prop
  | .leaf r => r.IsWhole
  | .expression r => HandsOn r.done r.handback r.line
  | .group r => HandsOn r.done r.handback r.line
  | .sequence r => r.Sound
  | .block r => r.Rests
  | .root _ => True

end Reader

/-! ### The bound on steps -/

/-- The steps that a token may cause that comes to a state around the one that read it: it may
open up to three states, each of which takes some steps of its own. -/
def handbackCost : Option Tree → Nat
  | none => 0
  | some _ => 10

namespace SequenceReader

/-- The steps that parts may need besides: a block may be opened that ends at once. -/
def blockReserve (parts : List Part) : Nat :=
  if parts.any Part.isBlock then 2 else 0

/-- The steps that a production needs besides, unless its block is open already. -/
def blockCost (r : SequenceReader) : Nat :=
  if r.active.any fun active => active.1.isBlock then 0 else blockReserve r.remaining

end SequenceReader

namespace Reader

/-- The steps that what a state delivers may cause. -/
def credit : Reader → Nat
  | .leaf _ => 10
  | .expression r => handbackCost r.handback
  | .group r => handbackCost r.handback
  | .sequence r => handbackCost r.handback
  | .block _ | .root _ => 0

/-- The steps that a state may take until a signal leaves it. -/
def cost : Reader → Nat
  | .sequence r => 1 + r.blockCost + handbackCost r.handback
  | r => 1 + r.credit

/-- A state takes a step to end. -/
theorem credit_lt_cost (r : Reader) : r.credit < r.cost := by
  cases r <;> simp only [cost, credit] <;> omega

/-- The text of states one inside another, the outermost first. -/
def textOfAll (rs : List Reader) : String :=
  String.join (rs.map text)

/-- The steps of states that are still to be opened. -/
def costOfAll (rs : List Reader) : Nat :=
  (rs.map fun r => r.cost + 1).sum

@[simp]
theorem textOfAll_nil : textOfAll [] = "" := by
  simp [textOfAll]

@[simp]
theorem textOfAll_cons (r : Reader) (rest : List Reader) :
    textOfAll (r :: rest) = r.text ++ textOfAll rest := by
  simp [textOfAll]

@[simp]
theorem costOfAll_nil : costOfAll [] = 0 := rfl

@[simp]
theorem costOfAll_cons (r : Reader) (rest : List Reader) :
    costOfAll (r :: rest) = r.cost + 1 + costOfAll rest := rfl

/-- A state and the states open inside it, the outermost first: the last one is at rest, and each
of the others hosts the next. -/
def Nested : Reader → List Reader → Prop
  | r, [] => r.Rests
  | r, inner :: more => r.Hosts inner.layer ∧ Nested inner more

/-- A reaction with which the state takes the signal, or opens a state that does. -/
structure Taken (signal : Signal) (takes : Reader → Prop) (r : Reader)
    (reaction : Reaction Reader) : Prop where
  layer_eq : reaction.state.layer = r.layer
  step :
    match reaction.step with
    | .accept => reaction.state.Rests ∧ reaction.state.text = r.text ++ signal.text
    | .acceptAndComplete => reaction.state.Ends ∧ reaction.state.text = r.text ++ signal.text
    | .complete => False
    | .enter inner => reaction.state.Hosts inner.layer ∧
      reaction.state.text ++ inner.text = r.text ∧ takes inner
    | .absorb => reaction.state.Hosts .trivia ∧ reaction.state.text = r.text

/-- Within the given number of steps, the state or one that it opens takes the signal. -/
def Takes (config : Config) (signal : Signal) : Nat → Reader → Prop
  | 0, _ => False
  | n + 1, r => Yields (r.onSignal config signal) (r.Taken signal (Takes config signal n))

/-- A reaction with which the state ends and leaves the signal to others. -/
structure Left (r : Reader) (reaction : Reaction Reader) : Prop where
  layer_eq : reaction.state.layer = r.layer
  step_eq : reaction.step = .complete
  ends : reaction.state.Ends
  text_eq : reaction.state.text = r.text
  credit_le : reaction.state.credit ≤ r.credit

/-- A reaction with which the state opens another one at rest, which costs it some steps. -/
structure Detoured (r : Reader) (reaction : Reaction Reader) (inner : Reader) : Prop where
  layer_eq : reaction.state.layer = r.layer
  step_eq : reaction.step = .enter inner
  hosts : reaction.state.Hosts inner.layer
  rests : inner.Rests
  text_eq : reaction.state.text ++ inner.text = r.text
  cost_lt : reaction.state.cost + inner.cost < r.cost
  not_leaf : ∀ leaf, inner ≠ .leaf leaf

/-- What a state makes of a signal: a character is taken within a few steps, unless the state
leaves it to others or opens a state at rest for it. -/
inductive Reacts (config : Config) (signal : Signal) (n : Nat) (r : Reader)
    (reaction : Reaction Reader) : Prop where
  | taken (h : r.Taken signal (Takes config signal n) reaction) (hchar : signal.toChar?.isSome)
  | left (h : r.Left reaction)
  | detoured (inner : Reader) (h : r.Detoured reaction inner) (hchar : signal.toChar?.isSome)

/-- A state at rest reacts to every signal, so that a character is taken within five steps. -/
def Answers (config : Config) (signal : Signal) (r : Reader) : Prop :=
  Yields (r.onSignal config signal) (r.Reacts config signal 4)

end Reader

/-- What a state of the layer may deliver. A leaf is delivered on its own, and an inner node
without anything before it. -/
structure Delivery.From (d : Delivery) (layer : Layer) : Prop where
  exclusive : d.handback = none ∨ d.line = none
  leaf : layer.isLeaf → d.leading = [] ∧ d.trailing = [] ∧ d.handback = none ∧ d.line = none
  trivia : layer.isTrivia → ∀ t ∈ d.token, (t.isTrivia || t.isInvalid) = true
  sequence : layer = .sequence → d.leading = [] ∧
    ∃ kind form, d.token = some (.ofForm kind form) ∧ .item ∉ Form.roles form ∧
      .slot .elseBranch ∉ Form.roles form
  block : ∀ mode, layer = .block mode → d.leading = [] ∧ d.handback = none ∧
    ∃ kind form, d.token = some (.ofForm kind form)
  outermost : layer.IsOutermost → d.handback = none ∧ d.line = none ∧
    ∃ kind form, d.token = some (.ofForm kind form)

/-- The steps that a delivery from a layer may cause. -/
def Delivery.credit (d : Delivery) (layer : Layer) : Nat :=
  if layer.isLeaf then 10 else handbackCost d.handback

namespace SequenceReader

/-- A production may need two steps for a block. -/
theorem blockCost_le (r : SequenceReader) : r.blockCost ≤ 2 := by
  rw [blockCost, blockReserve]
  split
  · exact Nat.zero_le 2
  · split <;> decide

end SequenceReader

/-- What a state makes of a delivery: the states that it opens stand one inside another, nothing
of the text is lost, and the steps are paid for. -/
structure Receipt.Fits (receipt : Receipt Reader) (layer : Layer) (text : String)
    (budget : Nat) : Prop where
  layer_eq : receipt.state.layer = layer
  nested : Reader.Nested receipt.state receipt.opened
  text_eq : receipt.state.text ++ Reader.textOfAll receipt.opened = text
  cost_le : receipt.state.cost + Reader.costOfAll receipt.opened ≤ budget

/-- More steps may be allowed. -/
theorem Receipt.Fits.mono {receipt : Receipt Reader} {layer : Layer} {text : String}
    {budget budget' : Nat} (h : receipt.Fits layer text budget) (hle : budget ≤ budget') :
    receipt.Fits layer text budget' :=
  ⟨h.layer_eq, h.nested, h.text_eq, Nat.le_trans h.cost_le hle⟩

/-- Only the state and the states that it opens matter. -/
theorem Receipt.Fits.of_eq {receipt receipt' : Receipt Reader} {layer : Layer} {text : String}
    {budget : Nat} (h : receipt.Fits layer text budget) (hstate : receipt'.state = receipt.state)
    (hopened : receipt'.opened = receipt.opened) : receipt'.Fits layer text budget := by
  obtain ⟨state, opened, notices⟩ := receipt
  obtain ⟨state', opened', notices'⟩ := receipt'
  obtain rfl : state' = state := hstate
  obtain rfl : opened' = opened := hopened
  exact ⟨h.layer_eq, h.nested, h.text_eq, h.cost_le⟩

end ScriptTree
