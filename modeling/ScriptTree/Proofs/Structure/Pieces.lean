import ScriptTree.Proofs.Structure.Regular
import ScriptTree.Grammar.Climb

/-!
# Pieces in order

The pieces of an expression come in the order of its grammar: operands and operators alternate, and
trivia stand anywhere. An operator may lack its operand, though. What no operand takes of such pieces
is a tidy run of extras, because the operators among it lose their place.
-/

namespace ScriptTree

namespace Tree

variable {t : Tree}

/-- The token is a leaf. -/
def IsLeaf (t : Tree) : Prop := t.leafKind?.isSome

theorem isLeaf_of_leafText? {text : String} (h : t.leafText? = some text) : t.IsLeaf := by
  cases t with
  | leaf kind s extent => rfl
  | node kind form extent => cases h

theorem isLeaf_of_operator? {op : OperatorKind} (h : t.operator? = some op) : t.IsLeaf := by
  unfold operator? at h
  split at h
  · rename_i hkind
    simp [IsLeaf, hkind]
  · cases h

/-- A leaf is a regular tree. -/
theorem IsLeaf.regular (h : t.IsLeaf) : t.Regular := by
  cases t with
  | leaf kind s extent => exact .leaf kind s extent
  | node kind form extent => cases h

/-- A leaf is no list of lines. -/
theorem IsLeaf.isLines (h : t.IsLeaf) : t.isLines = false := by
  cases t with
  | leaf kind s extent => rfl
  | node kind form extent => cases h

/-- A leaf of any kind is still one after its kind has changed. -/
theorem IsLeaf.withLeafKind (h : t.IsLeaf) (kind : LeafKind) :
    (t.withLeafKind kind).leafKind? = some kind := by
  cases t with
  | leaf kind' s extent => rfl
  | node kind' form extent => cases h

@[simp]
theorem leafText?_withLeafKind (kind : LeafKind) (t : Tree) :
    (t.withLeafKind kind).leafText? = t.leafText? := by
  cases t <;> rfl

theorem IsLeaf.isInvalid_invalidated (h : t.IsLeaf) : t.invalidated.isInvalid = true := by
  rw [isInvalid, invalidated, h.withLeafKind]
  rfl

/-- A leaf without a place may stand among extras. -/
theorem IsLeaf.isPlainExtra_invalidated (h : t.IsLeaf) : t.invalidated.isPlainExtra = true := by
  simp [isPlainExtra, h.isInvalid_invalidated]

theorem IsLeaf.invalidated (h : t.IsLeaf) : t.invalidated.IsLeaf := by
  rw [IsLeaf, Tree.invalidated, h.withLeafKind]
  rfl

/-- A word that has lost its place is known by its text. -/
theorem isLostWord_invalidated {word : String} (h : t.leafText? = some word) :
    t.invalidated.isLostWord word = true := by
  have htext : t.invalidated.leafText? = some word := (leafText?_withLeafKind ..).trans h
  simp [isLostWord, (isLeaf_of_leafText? h).isInvalid_invalidated, htext]

/-- An operand stands at neither end of another one. -/
theorem ends_of_isOperand (h : t.isOperand) : t.leftRanks = [] ∧ t.rightMinima = [] := by
  cases t with
  | leaf kind s extent => simp [leftRanks, rightMinima]
  | node kind form extent =>
    revert h
    cases kind <;> simp [isOperand, Tree.kind, NodeKind.isOperation, leftRanks, rightMinima]

end Tree

namespace Operation

/-- Whether the operator stands before its operand, and not after one. -/
def leads : Operation → Bool
  | .unary _ | .await => true
  | .binary _ | .ternaryIf | .ternaryElse => false

/-- What the leaf of an operator has to be. -/
def Suits : Operation → Tree → Prop
  | .binary op, t => t.operator? = some op ∧ op.binaryPrecedence?.isSome ∧
    (op = .notContainedIn → t.leafText? = some "not")
  | .unary op, t => t.operator? = some op ∧ op.unaryPrecedence?.isSome
  | .await, t | .ternaryIf, t => t.IsLeaf
  | .ternaryElse, t => t.leafText? = some "else"

/-- What may come after the operator. -/
def allowance (op : Operation) : Allowance where
  secondWord := op == .binary .notContainedIn

/-- An operator is a leaf. -/
theorem Suits.isLeaf {op : Operation} {t : Tree} (h : op.Suits t) : t.IsLeaf := by
  cases op with
  | binary op => exact Tree.isLeaf_of_operator? h.1
  | unary op => exact Tree.isLeaf_of_operator? h.1
  | await => exact h
  | ternaryIf => exact h
  | ternaryElse => exact Tree.isLeaf_of_leafText? h

/-- What may come after an operator may come after it has lost its place. -/
theorem Suits.allowance_le {op : Operation} {t : Tree} (h : op.Suits t) (a : Allowance) :
    op.allowance.Le (a.afterExtra t.invalidated) := by
  refine ⟨fun hword => ?_, nofun⟩
  obtain rfl : op = .binary .notContainedIn := by simpa [allowance] using hword
  simp [Allowance.afterExtra, Tree.isLostWord_invalidated (h.2.2 rfl)]

end Operation

namespace Piece

/-- Whether a piece may come next. -/
def Fits (a : Allowance) (expects : Bool) : Piece → Prop
  | .trivia t => a.Admits t ∧ t.Regular
  | .operand t => expects = true ∧ t.isLooseOperand ∧ t.Regular
  | .operation op t => op.leads = expects ∧ op.Suits t
  | .point _ | .negation _ => False

/-- What may come among trivia after a piece. -/
def nextAllowance (a : Allowance) : Piece → Allowance
  | .trivia t => a.afterExtra t
  | .operation op _ => op.allowance
  | _ => {}

/-- Whether an operand is expected after a piece. -/
def nextExpects (expects : Bool) : Piece → Bool
  | .operand _ => false
  | .operation _ _ => true
  | _ => expects

/-- The pieces come in the order of the grammar of expressions; none of them waits for others. -/
def Ordered : Allowance → Bool → List Piece → Prop
  | _, _, [] => True
  | a, expects, piece :: rest =>
    piece.Fits a expects ∧ Ordered (piece.nextAllowance a) (piece.nextExpects expects) rest

variable {a b : Allowance} {expects : Bool} {pieces more : List Piece} {tokens : List Tree}

/-- What stands first decides what may come after it. -/
theorem ordered_append : Ordered a expects (pieces ++ more) ↔
    Ordered a expects pieces ∧
      Ordered (pieces.foldl nextAllowance a) (pieces.foldl nextExpects expects) more := by
  induction pieces generalizing a expects with
  | nil => simp [Ordered]
  | cons piece rest ih => simp only [List.cons_append, Ordered, ih, List.foldl_cons, and_assoc]

/-- More may be allowed. -/
theorem Ordered.of_le (h : Ordered a expects pieces) (hle : a.Le b) : Ordered b expects pieces := by
  induction pieces generalizing a b expects with
  | nil => trivial
  | cons piece rest ih =>
    obtain ⟨hpiece, hrest⟩ := h
    cases piece with
    | trivia t =>
      exact ⟨⟨hpiece.1.of_le hle, hpiece.2⟩,
        ih hrest (Allowance.next_le hle (.extra, t))⟩
    | _ => exact ⟨hpiece, hrest⟩

/-- Trivia at the beginning are a tidy run. -/
theorem ordered_trivia : Ordered a expects (tokens.map .trivia ++ more) ↔
    Form.Tidy a (Form.extras tokens) ∧
      Ordered ((Form.extras tokens).foldl Allowance.next a) expects more := by
  induction tokens generalizing a with
  | nil => simp
  | cons t rest ih =>
    simp only [List.map_cons, List.cons_append, Ordered, Fits, nextAllowance, nextExpects, ih,
      Form.extras_cons, Form.tidy_cons, List.foldl_cons, ne_eq, not_true_eq_false, false_or,
      Allowance.next, and_assoc]

end Piece

namespace Climbed

open Piece

variable {a : Allowance} {expects : Bool} {pieces rest : List Piece} {gap : List Tree}

/-- Whether an operand comes next, with operators before it or not. -/
def startsOperand : List Piece → Bool
  | .operand _ :: _ => true
  | .trivia _ :: rest | .operation (.unary _) _ :: rest | .operation .await _ :: rest =>
    startsOperand rest
  | _ => false

/-- The precedence with which the next operator, if it finds an operand, would take the one before
it. An `if` needs none. -/
def pending? (pieces : List Piece) : Option Nat :=
  match (skipTrivia pieces).2 with
  | .operation (.binary op) _ :: rest => if startsOperand rest then op.binaryPrecedence? else none
  | .operation .ternaryIf _ :: _ => some OperatorKind.ternaryPrecedence
  | _ => none

/-- What may come behind an operand: an operator, or what an operator in vain looked for an operand
in. -/
def Behind (rest : List Piece) : Prop :=
  Ordered {} false rest ∨ Ordered {} true rest ∧ startsOperand rest = false

/-- The trivia that are skipped are those at the beginning. -/
theorem eq_of_skipTrivia (h : skipTrivia pieces = (gap, rest)) :
    pieces = gap.map .trivia ++ rest := by
  induction pieces generalizing gap with
  | nil =>
    cases h
    rfl
  | cons piece more ih =>
    cases piece with
    | trivia t =>
      rw [skipTrivia] at h
      cases h
      rw [List.map_cons, List.cons_append, ← ih rfl]
    | _ =>
      cases h
      rfl

/-- Trivia do not matter for whether an operand comes next. -/
theorem startsOperand_trivia (tokens : List Tree) (rest : List Piece) :
    startsOperand (tokens.map .trivia ++ rest) = startsOperand rest := by
  induction tokens with
  | nil => rfl
  | cons t tokens ih => exact ih

theorem startsOperand_of_skipTrivia (h : skipTrivia pieces = (gap, rest)) :
    startsOperand pieces = startsOperand rest := by
  rw [eq_of_skipTrivia h, startsOperand_trivia]

/-- The trivia that are skipped are a tidy run, and the others stay in order. -/
theorem tidy_of_skipTrivia (h : Ordered a expects pieces)
    (hskip : skipTrivia pieces = (gap, rest)) :
    Form.Tidy a (Form.extras gap) ∧
      Ordered ((Form.extras gap).foldl Allowance.next a) expects rest := by
  rw [eq_of_skipTrivia hskip] at h
  exact ordered_trivia.1 h

/-! ### What is left over -/

/-- A piece that no operand took is tidy where it may come, or where all operands may. -/
theorem tidy_leftover {piece : Piece} (h : piece.Fits a expects)
    (hoperand : (∃ t, piece = .operand t) → a.operands) :
    a.Admits (leftover piece) ∧ (leftover piece).Regular ∧
      (piece.nextAllowance a).Le (a.afterExtra (leftover piece)) := by
  cases piece with
  | trivia t => exact ⟨h.1, h.2, .refl _⟩
  | operand t =>
    have hloose := h.2.1
    rw [Tree.isLooseOperand, Bool.and_eq_true, Bool.not_eq_true'] at hloose
    refine ⟨⟨?_, hloose.2⟩, h.2.2, Allowance.le_of_default _⟩
    simp [leftover, Piece.token, Allowance.admits, hoperand ⟨t, rfl⟩, hloose.1]
  | operation op t =>
    obtain ⟨_, hsuits⟩ := h
    exact ⟨Allowance.admits_extra _ hsuits.isLeaf.isPlainExtra_invalidated,
      hsuits.isLeaf.invalidated.regular, hsuits.allowance_le a⟩
  | point t => exact False.elim h
  | negation t => exact False.elim h

/-- Where operands are allowed, all pieces may be left over. -/
theorem tidy_leftovers (h : Ordered a expects pieces) (hoperands : a.operands) :
    Form.Tidy a (Form.extras (pieces.map leftover)) := by
  induction pieces generalizing a expects with
  | nil => exact Form.tidy_nil a
  | cons piece rest ih =>
    obtain ⟨hpiece, hrest⟩ := h
    obtain ⟨hadmits, hregular, hle⟩ := tidy_leftover hpiece fun _ => hoperands
    exact Form.tidy_cons.2 ⟨.inr hadmits, hregular,
      ih (hrest.of_le hle) (by simp [Allowance.next, Allowance.afterExtra, hoperands])⟩

/-- Operators that found no operand may be left over. -/
theorem tidy_leftovers_of_startsOperand (h : Ordered a true pieces)
    (hstarts : startsOperand pieces = false) :
    Form.Tidy a (Form.extras (pieces.map leftover)) := by
  induction pieces generalizing a with
  | nil => exact Form.tidy_nil a
  | cons piece rest ih =>
    obtain ⟨hpiece, hrest⟩ := h
    have hstep (hmore : Ordered (piece.nextAllowance a) true rest)
        (hstarts : startsOperand rest = false) (hoperand : ¬ ∃ t, piece = .operand t) :
        Form.Tidy a (Form.extras ((piece :: rest).map leftover)) := by
      obtain ⟨hadmits, hregular, hle⟩ := tidy_leftover hpiece fun h => absurd h hoperand
      exact Form.tidy_cons.2 ⟨.inr hadmits, hregular, (ih hmore hstarts).of_le hle⟩
    cases piece with
    | trivia t => exact hstep hrest hstarts (by simp)
    | operand t => cases hstarts
    | point t => exact False.elim hpiece
    | negation t => exact False.elim hpiece
    | operation op t =>
      cases op with
      | unary op => exact hstep hrest hstarts (by simp)
      | await => exact hstep hrest hstarts (by simp)
      | binary op => cases hpiece.1
      | ternaryIf => cases hpiece.1
      | ternaryElse => cases hpiece.1

/-- What stands behind an operand may be left over if no operator goes on with the operand. After an
`else` this holds of operands as well. -/
theorem tidy_leftovers_of_pending? (h : Ordered a false pieces) (hpending : pending? pieces = none) :
    Form.Tidy a (Form.extras (pieces.map leftover)) := by
  induction pieces generalizing a with
  | nil => exact Form.tidy_nil a
  | cons piece rest ih =>
    obtain ⟨hpiece, hrest⟩ := h
    have hstep (hoperand : ¬ ∃ t, piece = .operand t)
        (hmore : Form.Tidy (a.afterExtra (leftover piece)) (Form.extras (rest.map leftover))) :
        Form.Tidy a (Form.extras ((piece :: rest).map leftover)) := by
      obtain ⟨hadmits, hregular, _⟩ := tidy_leftover hpiece fun h => absurd h hoperand
      exact Form.tidy_cons.2 ⟨.inr hadmits, hregular, hmore⟩
    cases piece with
    | trivia t => exact hstep (by simp) (ih hrest hpending)
    | operand t => cases hpiece.1
    | point t => exact False.elim hpiece
    | negation t => exact False.elim hpiece
    | operation op t =>
      obtain ⟨hleads, hsuits⟩ := hpiece
      have hle := hsuits.allowance_le a
      cases op with
      | unary op => cases hleads
      | await => cases hleads
      | ternaryIf => cases hpending
      | binary op =>
        obtain ⟨precedence, hprecedence⟩ := Option.isSome_iff_exists.1 hsuits.2.1
        have hstarts : startsOperand rest = false := by
          by_contra hstarts
          simp [pending?, skipTrivia, hprecedence, hstarts] at hpending
        exact hstep (by simp) ((tidy_leftovers_of_startsOperand hrest hstarts).of_le hle)
      | ternaryElse =>
        refine hstep (by simp) (tidy_leftovers (hrest.of_le hle) ?_)
        simp [leftover, Allowance.afterExtra, Tree.isLostWord_invalidated hsuits]

/-- What stands behind an operand may be left over if no operator goes on with the operand. -/
theorem Behind.tidy_leftovers (h : Behind rest) (hpending : pending? rest = none) :
    Form.Tidy {} (Form.extras (rest.map leftover)) := by
  rcases h with h | ⟨h, hstarts⟩
  · exact tidy_leftovers_of_pending? h hpending
  · exact tidy_leftovers_of_startsOperand h hstarts

end Climbed

end ScriptTree
