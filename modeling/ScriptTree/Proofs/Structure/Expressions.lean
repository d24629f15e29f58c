import ScriptTree.Proofs.Expressions
import ScriptTree.Proofs.Structure.Climbing
import ScriptTree.Proofs.Structure.Orderly

/-!
# Expressions stay in order

The pieces of an expression are in order after every signal and every delivery. At most one of them
waits for a word after it, and it waits no longer than trivia go on.
-/

namespace ScriptTree

namespace Tree

variable {t : Tree}

theorem isLooseOperand_of_word (h : t.IsWord) : t.isLooseOperand := by
  cases t with
  | leaf kind s extent =>
    rcases h.word with hword | hword
    · cases hword
      rfl
    · cases kind <;> first | rfl | cases hword
  | node kind form extent => cases h.isLeaf

/-- An operator made of symbols is read as a leaf, and is no reserved word. -/
theorem isRead_symbol (text : String) :
    (ofText (LeafReader.operatorLeafKind text) text).IsRead := by
  refine ⟨rfl, fun kw hkw => ?_⟩
  unfold LeafReader.operatorLeafKind at hkw
  split at hkw <;> cases hkw

/-- A node of a plain kind that is no list of lines may be an operand. -/
theorem isLooseOperand_ofForm {kind : NodeKind} (h : kind.isLoose) (form : List Entry) :
    (ofForm kind form).isLooseOperand := by
  revert h
  cases kind <;> first | exact fun _ => rfl | exact nofun

end Tree

namespace OperatorKind

/-- Every spelling between operands denotes an operator of some precedence, and not `not in`. -/
theorem isSome_binaryPrecedence? {text : String} {op : OperatorKind} (h : binary? text = some op) :
    op.binaryPrecedence?.isSome ∧ op ≠ .notContainedIn := by
  unfold binary? at h
  split at h
  all_goals first | cases h; done | (cases h; exact ⟨rfl, nofun⟩)

theorem isSome_unaryPrecedence? {text : String} {op : OperatorKind} (h : unary? text = some op) :
    op.unaryPrecedence?.isSome := by
  unfold unary? at h
  split at h
  all_goals first | cases h; done | (cases h; rfl)

end OperatorKind

namespace ExpressionReader

open Piece

variable {pieces earlier : List Piece} {piece : Piece} {gap tokens : List Tree} {t word : Tree}

/-! ### Pieces, the latest first -/

/-- What may come among trivia after pieces. -/
def allowanceAfter (pieces : List Piece) : Allowance :=
  pieces.reverse.foldl Piece.nextAllowance {}

theorem foldl_nextExpects (pieces : List Piece) :
    pieces.reverse.foldl Piece.nextExpects true = expectsOperand pieces := by
  induction pieces with
  | nil => rfl
  | cons piece rest ih =>
    rw [List.reverse_cons, List.foldl_append, ih]
    cases piece <;> rfl

@[simp]
theorem allowanceAfter_cons (piece : Piece) (pieces : List Piece) :
    allowanceAfter (piece :: pieces) = piece.nextAllowance (allowanceAfter pieces) := by
  simp [allowanceAfter]

/-- The last piece has to fit the others. -/
theorem settled_cons : Settled (piece :: pieces) ↔
    Settled pieces ∧ piece.Fits (allowanceAfter pieces) (expectsOperand pieces) := by
  rw [Settled, List.reverse_cons, ordered_append, foldl_nextExpects]
  simp [Ordered, Settled, allowanceAfter]

/-- Trivia may follow if they are tidy. -/
theorem settled_trivia : Settled (gap.map .trivia ++ pieces) ↔
    Settled pieces ∧ Form.Tidy (allowanceAfter pieces) (Form.extras gap.reverse) := by
  have h : Piece.Ordered (allowanceAfter pieces) (expectsOperand pieces)
      (gap.reverse.map .trivia ++ []) ↔ _ := ordered_trivia
  rw [List.append_nil] at h
  rw [Settled, List.reverse_append, ordered_append, foldl_nextExpects, ← List.map_reverse]
  exact and_congr_right fun _ => h.trans (and_iff_left trivial)

@[simp]
theorem expectsOperand_trivia (gap : List Tree) (pieces : List Piece) :
    expectsOperand (gap.map .trivia ++ pieces) = expectsOperand pieces := by
  induction gap with
  | nil => rfl
  | cons t gap ih => exact ih

@[simp]
theorem awaitsMember_trivia (gap : List Tree) (pieces : List Piece) :
    awaitsMember (gap.map .trivia ++ pieces) = awaitsMember pieces := by
  induction gap with
  | nil => rfl
  | cons t gap ih => exact ih

@[simp]
theorem awaitsIn_trivia (gap : List Tree) (pieces : List Piece) :
    awaitsIn (gap.map .trivia ++ pieces) = awaitsIn pieces := by
  induction gap with
  | nil => rfl
  | cons t gap ih => exact ih

/-- An operand may follow where one is expected. -/
theorem Settled.operand (h : Settled pieces) (hexpects : expectsOperand pieces = true)
    (ht : t.isLooseOperand) (hregular : t.Regular) : Settled (.operand t :: pieces) :=
  settled_cons.2 ⟨h, hexpects, ht, hregular⟩

/-- An operator may follow where it stands before or after an operand as it should. -/
theorem Settled.operation (h : Settled pieces) {op : Operation}
    (hexpects : op.leads = expectsOperand pieces) (hsuits : op.Suits t) :
    Settled (.operation op t :: pieces) :=
  settled_cons.2 ⟨h, hexpects, hsuits⟩

/-- Of settled pieces none waits. -/
theorem Settled.not_waits (h : Settled pieces) : awaitsMember pieces = false ∧
    awaitsIn pieces = false := by
  induction pieces with
  | nil => exact ⟨rfl, rfl⟩
  | cons piece rest ih =>
    obtain ⟨hrest, hpiece⟩ := settled_cons.1 h
    cases piece with
    | trivia t => exact ih hrest
    | point t => exact False.elim hpiece
    | negation t => exact False.elim hpiece
    | _ => exact ⟨rfl, rfl⟩

/-- Of settled pieces none changes when those that wait do. -/
theorem Settled.map_eq (h : Settled pieces) {f : Piece → Piece}
    (hf : ∀ piece, (∀ t, piece ≠ .point t) → (∀ t, piece ≠ .negation t) → f piece = piece) :
    pieces.map f = pieces := by
  induction pieces with
  | nil => rfl
  | cons piece rest ih =>
    obtain ⟨hrest, hpiece⟩ := settled_cons.1 h
    rw [List.map_cons, ih hrest]
    refine congrArg (· :: rest) (hf piece (fun t heq => ?_) fun t heq => ?_)
    · subst heq
      exact hpiece
    · subst heq
      exact hpiece

theorem Settled.settle_eq (h : Settled pieces) : settle pieces = pieces :=
  h.map_eq fun piece hpoint hnegation => by
    cases piece <;> first | rfl | exact absurd rfl (hpoint _) | exact absurd rfl (hnegation _)

theorem Settled.joinIn_eq (h : Settled pieces) : pieces.map joinIn = pieces :=
  h.map_eq fun piece hpoint hnegation => by
    cases piece <;> first | rfl | exact absurd rfl (hnegation _)

/-- Giving up on what waits settles the pieces, and an operator is expected where one waited. -/
theorem Fit.settle (h : Fit pieces) : Settled (settle pieces) ∧
    expectsOperand (ExpressionReader.settle pieces) = expectsOperand pieces := by
  cases h with
  | settled h => exact ⟨by rwa [h.settle_eq], by rw [h.settle_eq]⟩
  | waiting gap piece earlier heq hgap hpiece h hoperand =>
    subst heq
    have htrivia : ExpressionReader.settle (gap.map .trivia ++ piece :: earlier) =
        gap.map .trivia ++ settlePiece piece :: earlier := by
      have hearlier := h.settle_eq
      unfold ExpressionReader.settle at hearlier ⊢
      simp [hearlier, settlePiece]
    have hlost {t : Tree} (ht : t.IsLeaf) :
        Settled (gap.map .trivia ++ .trivia t.invalidated :: earlier) :=
      settled_trivia.2 ⟨settled_cons.2 ⟨h, Allowance.admits_extra _
        ht.isPlainExtra_invalidated, ht.invalidated.regular⟩, Form.tidy_reverse hgap⟩
    rw [htrivia, expectsOperand_trivia, expectsOperand_trivia]
    cases hpiece with
    | point ht => exact ⟨hlost ht, rfl⟩
    | negation ht => exact ⟨hlost (Tree.isLeaf_of_leafText? ht), rfl⟩

/-- Pieces of which none waits may be followed by a tidy run. -/
theorem Settled.trivia (h : Settled pieces) (htokens : Form.Tidy {} (Form.extras tokens)) :
    Settled (tokens.reverse.map .trivia ++ pieces) := by
  refine settled_trivia.2 ⟨h, ?_⟩
  rw [List.reverse_reverse]
  exact htokens.of_le (Allowance.le_of_default _)

/-- Trivia and text without a place may always follow. -/
theorem Fit.trivia (h : Fit pieces) (ht : (t.isTrivia || t.isInvalid) = true) :
    Fit (.trivia t :: pieces) := by
  have htidy : Form.Tidy {} (Form.extras [t]) := Form.tidy_trivia ht
  cases h with
  | settled h => exact .settled (h.trivia htidy)
  | waiting gap piece earlier heq hgap hpiece h hoperand =>
    exact .waiting (t :: gap) piece earlier (by simp [heq])
      (List.forall_mem_cons.2 ⟨ht, hgap⟩) hpiece h hoperand

/-- Pieces that wait for the name of a member end with a point and trivia. -/
theorem Fit.exists_point (h : Fit pieces) (hmember : awaitsMember pieces = true) :
    ∃ (gap : List Tree) (t : Tree) (earlier : List Piece),
      pieces = gap.map .trivia ++ .point t :: earlier ∧
      (∀ t ∈ gap, (t.isTrivia || t.isInvalid) = true) ∧ t.IsLeaf ∧ Settled earlier ∧
      expectsOperand earlier = false := by
  cases h with
  | settled h =>
    rw [h.not_waits.1] at hmember
    cases hmember
  | waiting gap piece earlier heq hgap hpiece h hoperand =>
    subst heq
    cases hpiece with
    | point ht => exact ⟨gap, _, earlier, rfl, hgap, ht, h, hoperand⟩
    | negation ht =>
      rw [awaitsMember_trivia] at hmember
      cases hmember

/-- Pieces that wait for `in` end with a `not` and trivia. -/
theorem Fit.exists_negation (h : Fit pieces) (hin : awaitsIn pieces = true) :
    ∃ (gap : List Tree) (t : Tree) (earlier : List Piece),
      pieces = gap.map .trivia ++ .negation t :: earlier ∧
      (∀ t ∈ gap, (t.isTrivia || t.isInvalid) = true) ∧ t.leafText? = some "not" ∧ Settled earlier ∧
      expectsOperand earlier = false := by
  cases h with
  | settled h =>
    rw [h.not_waits.2] at hin
    cases hin
  | waiting gap piece earlier heq hgap hpiece h hoperand =>
    subst heq
    cases hpiece with
    | point ht =>
      rw [awaitsIn_trivia] at hin
      cases hin
    | negation ht => exact ⟨gap, _, earlier, rfl, hgap, ht, h, hoperand⟩

/-- Pieces that wait for nothing are settled. -/
theorem Fit.settled_of_not (h : Fit pieces) (hmember : awaitsMember pieces = false)
    (hin : awaitsIn pieces = false) : Settled pieces := by
  cases h with
  | settled h => exact h
  | waiting gap piece earlier heq hgap hpiece h hoperand =>
    subst heq
    rw [awaitsMember_trivia] at hmember
    rw [awaitsIn_trivia] at hin
    cases hpiece with
    | point ht => cases hmember
    | negation ht => cases hin

/-- Before an operator that stands behind an operand comes that operand, and trivia. -/
theorem Settled.exists_operand (h : Settled pieces) (hoperand : expectsOperand pieces = false) :
    ∃ (gap : List Tree) (target : Tree) (earlier : List Piece),
      pieces = gap.map .trivia ++ .operand target :: earlier ∧
      Form.Tidy {} (Form.extras gap.reverse) ∧ target.Regular ∧ Settled earlier ∧
      expectsOperand earlier = true := by
  suffices hshape : ∃ (gap : List Tree) (target : Tree) (earlier : List Piece),
      pieces = gap.map .trivia ++ .operand target :: earlier by
    obtain ⟨gap, target, earlier, rfl⟩ := hshape
    obtain ⟨hlast, hgap⟩ := settled_trivia.1 h
    obtain ⟨hearlier, hexpects, _, htarget⟩ := settled_cons.1 hlast
    rw [allowanceAfter_cons] at hgap
    exact ⟨gap, target, earlier, rfl, hgap, htarget, hearlier, hexpects⟩
  induction pieces with
  | nil => cases hoperand
  | cons piece rest ih =>
    obtain ⟨hrest, hpiece⟩ := settled_cons.1 h
    cases piece with
    | operand t => exact ⟨[], t, rest, rfl⟩
    | trivia t =>
      obtain ⟨gap, target, earlier, rfl⟩ := ih hrest hoperand
      exact ⟨t :: gap, target, earlier, rfl⟩
    | operation op t => cases hoperand
    | point t => exact False.elim hpiece
    | negation t => exact False.elim hpiece

/-! ### Postfix forms -/

theorem splitOperand?_trivia (gap : List Tree) (pieces : List Piece) :
    splitOperand? (gap.map .trivia ++ pieces) =
      (splitOperand? pieces).map fun split => (gap.map .trivia ++ split.1, split.2) := by
  induction gap with
  | nil => simp
  | cons t gap ih => simp [splitOperand?, ih, Function.comp_def]

theorem innerEntry_trivia (kind : NodeKind) (gap : List Tree) :
    (gap.map .trivia).map (innerEntry kind) = Form.extras gap := by
  simp [Form.extras, innerEntry, Piece.token, Function.comp_def]

/-- A postfix form takes the place of the operand inside it. -/
theorem wrapOperand?_promises {later : List Piece} {target tail : Tree} {kind : NodeKind}
    {targetSlot tailSlot : Slot} (hsplit : splitOperand? pieces = some (later, target, earlier))
    (hkind : kind.isLoose)
    (hslots : kind.declares targetSlot ∧ kind.declares tailSlot ∧ tailSlot ≠ targetSlot)
    (hlater : Form.Plain kind (later.reverse.map (innerEntry kind)))
    (hapart : targetSlot ∉ Form.slots (later.reverse.map (innerEntry kind)) ∧
      tailSlot ∉ Form.slots (later.reverse.map (innerEntry kind))) (htarget : target.Regular)
    (hearlier : Settled earlier) (hexpects : expectsOperand earlier = true)
    (htail : tail.Regular) :
    Promises (wrapOperand? pieces kind targetSlot tailSlot tail) fun result =>
      ∃ wrapped, result = some wrapped ∧ Settled wrapped := by
  rw [wrapOperand?, hsplit]
  have hsingle {slot : Slot} {t : Tree} (hslot : kind.declares slot) (ht : t.Regular) :
      Form.Plain kind [(.slot slot, t)] :=
    Form.plain_singleton (by simp) (by simp [NodeKind.checkRole, hslot]) ht
  have hbegun : Form.Plain kind
      ((.slot targetSlot, target) :: later.reverse.map (innerEntry kind)) := by
    refine (hsingle hslots.1 htarget).append hlater fun slot hmem hsame => hapart.1 ?_
    obtain rfl : slot = targetSlot := by simpa using hsame
    exact hmem
  have hform : Form.Plain kind ((.slot targetSlot, target) ::
      later.reverse.map (innerEntry kind) ++ [(.slot tailSlot, tail)]) :=
    hbegun.append (hsingle hslots.2.1 htail)
      (by simpa [-List.map_reverse] using ⟨hslots.2.2, hapart.2⟩)
  have hnode : Promises (Tree.assemble kind ((.slot targetSlot, target) ::
      later.reverse.map (innerEntry kind) ++ [(.slot tailSlot, tail)]))
      fun t => t.isLooseOperand ∧ t.Regular :=
    (promises_true _).bind fun _ _ => promises_pure.2
      ⟨Tree.isLooseOperand_ofForm hkind _, hform.regular_ofForm (NodeKind.isPlain_of_isLoose hkind)⟩
  exact hnode.bind fun t ht => promises_pure.2 ⟨_, rfl, hearlier.operand hexpects ht.1 ht.2⟩

/-! ### Signals -/

variable {r : ExpressionReader}

theorem Orderly.setPieces (h : r.Orderly) (hfit : Fit pieces) :
    ({ r with pieces } : ExpressionReader).Orderly :=
  { h with fit := hfit }

/-- A tidy run may follow where no piece waits. -/
theorem Orderly.pushTrivia (h : r.Orderly) (hsettled : Settled r.pieces)
    (htokens : Form.Tidy {} (Form.extras tokens)) : (r.pushTrivia tokens).Orderly := by
  rw [pushTrivia_eq, ← List.map_reverse]
  exact h.setPieces (.settled (hsettled.trivia htokens))

/-- Trivia, and a leaf that has lost its place, may always follow. -/
theorem Orderly.push_trivia (h : r.Orderly) (ht : (t.isTrivia || t.isInvalid) = true) :
    (r.push (.trivia t)).Orderly :=
  h.setPieces (h.fit.trivia ht)

theorem Orderly.push_invalidated (h : r.Orderly) (ht : t.IsLeaf) :
    (r.push (.trivia t.invalidated)).Orderly :=
  h.push_trivia (by simp [ht.isInvalid_invalidated])

theorem Orderly.handBack (h : r.Orderly) (ht : t.IsRead) : (r.handBack t).Orderly :=
  { h with handback := fun _ heq => Option.mem_some_iff.1 heq ▸ ht }

/-- A state is opened for a purpose. -/
theorem Orderly.follows_enter (h : r.Orderly) {goal : ExpressionGoal} {inner : Reader}
    (hgoal : ({ r with goal } : ExpressionReader).GoalSuits inner.origin)
    (hinner : inner.Orderly) : ((r.enter goal inner).map .expression).Follows .expression :=
  ⟨rfl, ⟨{ h with }, hgoal⟩, hinner⟩

/-- The signal is left to others. -/
theorem Orderly.follows_complete (h : r.Orderly) :
    (r.complete.map .expression).Follows .expression :=
  ⟨rfl, h⟩

/-- A leaf that a character begins as an operand is one. -/
theorem origin_of_leafBegunBy? {ctx : Context} {c : Char} {leaf : LeafReader}
    (h : leafBegunBy? ctx c = some leaf) : leaf.Orderly ∧ leaf.origin = .literal := by
  unfold leafBegunBy? at h
  repeat' split at h
  all_goals cases h
  all_goals exact ⟨trivial, rfl⟩

/-- A character where an operand may begin. -/
theorem Orderly.onOperandChar (h : r.Orderly) (hsettled : Settled r.pieces)
    (hexpects : expectsOperand r.pieces = true) (c : Char) :
    ((r.onOperandChar c).map .expression).Follows .expression := by
  have hoperand {inner : Reader} (horigin : inner.origin = .literal ∨ inner.origin = .group)
      (hinner : inner.Orderly) : ((r.enter .operand inner).map .expression).Follows .expression :=
    h.follows_enter ⟨horigin.imp id .inl, hsettled, hexpects⟩ hinner
  unfold ExpressionReader.onOperandChar
  split
  · exact h.follows_enter ⟨rfl, hsettled.not_waits.1⟩ trivial
  · split
    · split
      · exact hoperand (.inl rfl) trivial
      · exact h.follows_complete
    · split
      · rename_i leaf _ hleaf
        obtain ⟨hinner, horigin⟩ := origin_of_leafBegunBy? hleaf
        exact hoperand (.inl horigin) hinner
      · exact hoperand (.inr rfl) (GroupReader.orderly_start _ _)
      · split
        · exact h.follows_enter ⟨rfl, hsettled⟩ trivial
        · exact h.follows_complete

/-- A character after an operand. -/
theorem Orderly.onOperatorChar (h : r.Orderly) (hsettled : Settled r.pieces)
    (hexpects : expectsOperand r.pieces = false) (c : Char) :
    ((r.onOperatorChar c).map .expression).Follows .expression := by
  unfold ExpressionReader.onOperatorChar
  split
  · have hpoint : Fit (.point (.ofPunct .point) :: r.pieces) :=
      .waiting [] _ r.pieces rfl (by simp) (.point rfl) hsettled hexpects
    exact ⟨rfl, h.setPieces hpoint⟩
  · split
    · exact h.follows_enter ⟨rfl, hsettled, hexpects⟩ (GroupReader.orderly_start _ _)
    · split
      · exact h.follows_complete
      · split
        · exact h.follows_enter ⟨rfl, hsettled, hexpects⟩ (GroupReader.orderly_start _ _)
        · split
          · exact h.follows_enter ⟨rfl, hsettled.not_waits.1⟩ trivial
          · split
            · exact h.follows_enter ⟨rfl, hsettled⟩ trivial
            · exact h.follows_complete

/-- A character that is no trivia. -/
theorem Orderly.onChar (h : r.Orderly) (c : Char) :
    ((r.onChar c).map .expression).Follows .expression := by
  obtain ⟨hsettled, _⟩ := h.fit.settle
  have hgivenUp := h.setPieces (.settled hsettled)
  unfold ExpressionReader.onChar
  split
  · exact h.follows_enter rfl trivial
  · split
    · rename_i hin
      rw [Bool.and_eq_true] at hin
      obtain ⟨gap, t, earlier, heq, _⟩ := h.fit.exists_negation hin.1
      refine h.follows_enter ⟨rfl, ?_⟩ trivial
      dsimp only
      rw [heq, awaitsMember_trivia]
      rfl
    · dsimp only
      split
      · rename_i hexpects
        exact hgivenUp.onOperandChar hsettled hexpects c
      · rename_i hexpects
        exact hgivenUp.onOperatorChar hsettled (Bool.not_eq_true _ ▸ hexpects) c

/-- Every signal leaves the expression in order. -/
theorem Orderly.onSignal (h : r.Orderly) (signal : Signal) :
    ((r.onSignal signal).map .expression).Follows .expression := by
  unfold ExpressionReader.onSignal
  split
  · exact h.follows_complete
  · split
    · rename_i t htrivia
      have ht : t.isTrivia = true := TriviaStart.orderly_of_at? htrivia
      exact ⟨rfl, h.push_trivia (by simp [ht])⟩
    · rename_i leaf htrivia
      obtain ⟨hleaf, horigin⟩ := TriviaStart.orderly_of_at? htrivia
      exact h.follows_enter horigin hleaf
    · exact h.onChar _
    · exact h.follows_complete

/-! ### Words and operators -/

/-- What an orderly expression makes of a token. -/
abbrev Continues (receipt : Receipt ExpressionReader) : Prop :=
  (receipt.map .expression).Follows .expression

/-- An expression that opens no state. -/
theorem Orderly.continues (h : r.Orderly) : Continues { state := r } :=
  ⟨rfl, h⟩

/-- The production of an operand that begins with a keyword. -/
theorem Orderly.openProduction (h : r.Orderly) (hsettled : Settled r.pieces)
    (hexpects : expectsOperand r.pieces = true) {kind : NodeKind} (hkind : kind.isLoose)
    (hword : word.IsLeaf) : Promises (r.openProduction kind word) Continues :=
  (SequenceReader.afterKeyword_promises hkind _ hword.regular).bind fun _ hinner =>
    promises_pure.2 ⟨rfl, ⟨{ h with }, .inr (.inr rfl), hsettled, hexpects⟩, hinner⟩

/-- A word where an operand may begin. -/
theorem Orderly.onOperandWord (h : r.Orderly) (hsettled : Settled r.pieces)
    (hexpects : expectsOperand r.pieces = true) (hword : word.IsWord) :
    Promises (r.onOperandWord word) Continues := by
  have hleaf := hword.isLeaf
  have hoperand : Continues { state := r.push (.operand word) } :=
    (h.setPieces (.settled (hsettled.operand hexpects (Tree.isLooseOperand_of_word hword)
      hleaf.regular))).continues
  have hoperation {op : Operation} {t : Tree} (hleads : op.leads = true) (hsuits : op.Suits t) :
      Continues { state := r.push (.operation op t) } :=
    (h.setPieces (.settled (hsettled.operation (hleads.trans hexpects.symm) hsuits))).continues
  unfold ExpressionReader.onOperandWord
  split
  · exact promises_pure.2 hoperand
  · split
    · exact promises_pure.2 hoperand
    · split
      · refine promises_pure.2 (hoperation rfl ⟨?_, rfl⟩)
        simp [Tree.operator?, hleaf.withLeafKind]
      · split
        · exact promises_pure.2 (hoperation rfl hleaf)
        · split
          · exact h.openProduction hsettled hexpects rfl hleaf
          · split
            · exact h.openProduction hsettled hexpects rfl hleaf
            · exact promises_pure.2 (h.handBack hword.toIsRead).continues

/-- A word that denotes an operator denotes one of some precedence, and not `not in`. -/
theorem isSome_of_binaryWord? {kw : Keyword} {op : OperatorKind} (h : binaryWord? kw = some op) :
    op.binaryPrecedence?.isSome ∧ op ≠ .notContainedIn := by
  unfold binaryWord? at h
  split at h
  all_goals first | cases h; done | (cases h; exact ⟨rfl, nofun⟩)

/-- A word after an operand. -/
theorem Orderly.onOperatorWord (h : r.Orderly) (hsettled : Settled r.pieces)
    (hexpects : expectsOperand r.pieces = false) (hword : word.IsWord) :
    (r.onOperatorWord word).Orderly := by
  have hleaf := hword.isLeaf
  have hhandBack := h.handBack hword.toIsRead
  have hoperation (op : Operation) {t : Tree} (hleads : op.leads = false) (hsuits : op.Suits t) :
      (r.push (.operation op t)).Orderly :=
    h.setPieces (.settled (hsettled.operation (hleads.trans hexpects.symm) hsuits))
  unfold ExpressionReader.onOperatorWord
  split
  · exact hhandBack
  · rename_i kw hkw
    have hspelled := hword.spelled kw hkw
    split
    · exact hhandBack
    · split
      · rename_i op hop
        obtain ⟨hprecedence, hne⟩ := isSome_of_binaryWord? hop
        refine hoperation _ rfl ⟨?_, hprecedence, fun heq => absurd heq hne⟩
        simp [Tree.operator?, hleaf.withLeafKind]
      · split
        · rename_i hnot
          rw [eq_of_beq hnot] at hspelled
          exact h.setPieces (.waiting [] _ r.pieces rfl (by simp) (.negation hspelled)
            hsettled hexpects)
        · split
          · exact { hoperation .ternaryIf rfl hleaf with }
          · split
            · rename_i helse
              rw [Bool.and_eq_true] at helse
              rw [eq_of_beq helse.1] at hspelled
              exact { hoperation .ternaryElse rfl hspelled with }
            · exact hhandBack

/-- What may come among trivia may still come after more of them. -/
theorem le_foldl_next (a : Allowance) (h : ∀ t ∈ tokens, t.isPlainExtra) :
    a.Le ((Form.extras tokens).foldl Allowance.next a) := by
  induction tokens generalizing a with
  | nil => exact .refl a
  | cons t tokens ih =>
    obtain ⟨ht, hmore⟩ := List.forall_mem_cons.1 h
    have hfirst := Allowance.le_afterExtra a ht
    have hrest := ih (a.afterExtra t) hmore
    exact ⟨hrest.1 ∘ hfirst.1, hrest.2 ∘ hfirst.2⟩

theorem allowanceAfter_trivia (gap : List Tree) (pieces : List Piece) :
    allowanceAfter (gap.map .trivia ++ pieces) =
      (Form.extras gap.reverse).foldl Allowance.next (allowanceAfter pieces) := by
  rw [allowanceAfter, List.reverse_append, List.foldl_append, ← List.map_reverse, Form.extras,
    List.foldl_map, List.foldl_map]
  rfl

/-- A `not` becomes one operator with the `in` that it waited for. -/
theorem Fit.joinIn (h : Fit pieces) (hin : awaitsIn pieces = true) (hword : word.IsLeaf)
    (hkw : word.keyword? = some .inKw) : Settled (.trivia word :: pieces.map joinIn) := by
  obtain ⟨gap, t, earlier, rfl, hgap, htext, hearlier, hexpects⟩ := h.exists_negation hin
  have hjoined : (gap.map Piece.trivia ++ negation t :: earlier).map ExpressionReader.joinIn =
      gap.map .trivia ++ .operation (.binary .notContainedIn)
        (t.withLeafKind (.operator .notContainedIn)) :: earlier := by
    have hsame := hearlier.joinIn_eq
    simp [hsame, ExpressionReader.joinIn]
  have hoperation : Settled (.operation (.binary .notContainedIn)
      (t.withLeafKind (.operator .notContainedIn)) :: earlier) := by
    refine hearlier.operation hexpects.symm ⟨?_, rfl, fun _ => ?_⟩
    · simp [Tree.operator?, (Tree.isLeaf_of_leafText? htext).withLeafKind]
    · rwa [Tree.leafText?_withLeafKind]
  rw [hjoined]
  refine settled_cons.2 ⟨settled_trivia.2 ⟨hoperation, Form.tidy_reverse hgap⟩, ?_, hword.regular⟩
  rw [allowanceAfter_trivia, allowanceAfter_cons]
  have hplain (t : Tree) (ht : t ∈ gap.reverse) : t.isPlainExtra :=
    Tree.isPlainExtra_of_or (hgap t (List.mem_reverse.1 ht))
  refine Allowance.Admits.of_le ⟨?_, hword.isLines⟩ (le_foldl_next _ hplain)
  simp [Allowance.admits, Piece.nextAllowance, Operation.allowance, hkw]

/-- A word, where none is awaited as the name of a member. -/
theorem Orderly.onWord (h : r.Orderly) (hmember : awaitsMember r.pieces = false)
    (hword : word.IsWord) : Promises (r.onWord word) Continues := by
  unfold ExpressionReader.onWord
  split
  · rename_i hin
    rw [Bool.and_eq_true] at hin
    exact promises_pure.2
      (h.setPieces (.settled (h.fit.joinIn hin.1 hword.isLeaf (eq_of_beq hin.2)))).continues
  · obtain ⟨hgivenUp, _⟩ := h.fit.settle
    have hsettled : (if awaitsIn r.pieces then { r with pieces := settle r.pieces } else r).Orderly ∧
        Settled (if awaitsIn r.pieces then { r with pieces := settle r.pieces } else r).pieces := by
      split
      · exact ⟨h.setPieces (.settled hgivenUp), hgivenUp⟩
      · rename_i hin
        exact ⟨h, h.fit.settled_of_not hmember (Bool.not_eq_true _ ▸ hin)⟩
    dsimp only
    generalize (if awaitsIn r.pieces then { r with pieces := settle r.pieces } else r) = s at *
    obtain ⟨hs, hsettled⟩ := hsettled
    split
    · rename_i hexpects
      exact hs.onOperandWord hsettled hexpects hword
    · rename_i hexpects
      exact promises_pure.2
        (hs.onOperatorWord hsettled (Bool.not_eq_true _ ▸ hexpects) hword).continues

/-- An operator made of symbols. -/
theorem Orderly.onOperator (h : r.Orderly) (hsettled : Settled r.pieces) (text : String) :
    (r.onOperator (.ofText (LeafReader.operatorLeafKind text) text)).Orderly := by
  have hread := Tree.isRead_symbol text
  have hleaf := hread.isLeaf
  have hmisplaced := h.push_invalidated hleaf
  have hoperation {op : Operation} {t : Tree} (hleads : op.leads = expectsOperand r.pieces)
      (hsuits : op.Suits t) : (r.push (.operation op t)).Orderly :=
    h.setPieces (.settled (hsettled.operation hleads hsuits))
  unfold ExpressionReader.onOperator
  dsimp only [Tree.ofText, Tree.leafText?, Option.getD_some]
  split
  · rename_i hexpects
    split
    · rename_i op hop
      refine hoperation hexpects.symm ⟨?_, OperatorKind.isSome_unaryPrecedence? hop⟩
      rfl
    · split
      · exact h.handBack hread
      · exact hmisplaced
  · rename_i hexpects
    split
    · rename_i op hop
      obtain ⟨hprecedence, hne⟩ := OperatorKind.isSome_binaryPrecedence? hop
      split
      · exact h.handBack hread
      · refine hoperation (Bool.not_eq_true _ ▸ hexpects).symm
          ⟨?_, hprecedence, fun heq => absurd heq hne⟩
        simp [Tree.operator?, Tree.leafKind?, Tree.kind, TokenKind.leaf?,
          LeafReader.operatorLeafKind, OperatorKind.ofSymbol?, hop]
    · split
      · exact h.handBack hread
      · exact hmisplaced

/-! ### Deliveries -/

/-- The name of a member. -/
theorem Orderly.onMember (h : r.Orderly) (hword : word.IsLeaf) :
    Promises (r.onMember word) Orderly := by
  have hmisplaced := h.push_invalidated hword
  unfold ExpressionReader.onMember
  split
  · rename_i hmember
    obtain ⟨gap, point, earlier, heq, hgap, hpoint, hearlier, hexpects⟩ :=
      h.fit.exists_point hmember
    obtain ⟨more, target, earliest, rfl, hmore, htarget, hearliest, hoperand⟩ :=
      hearlier.exists_operand hexpects
    have hsplit : splitOperand? r.pieces =
        some (gap.map .trivia ++ .point point :: more.map .trivia, target, earliest) := by
      simp [heq, splitOperand?_trivia, splitOperand?]
    have hentries : (gap.map trivia ++ Piece.point point :: more.map trivia).reverse.map
        (innerEntry .memberAccess) = Form.extras more.reverse ++
          [(.slot .point, point)] ++ Form.extras gap.reverse := by
      simp [← innerEntry_trivia .memberAccess, innerEntry]
    have hlater : Form.Plain .memberAccess
        ((gap.map trivia ++ Piece.point point :: more.map trivia).reverse.map
          (innerEntry .memberAccess)) := by
      have hsign : Form.Plain .memberAccess [(.slot .point, point)] :=
        Form.plain_singleton (by simp) rfl hpoint.regular
      rw [hentries]
      exact ((hmore.plain _).append hsign (by simp)).extras (Form.tidy_reverse hgap)
    have hname : (if word.keyword?.isSome then word.withLeafKind .identifier else word).Regular := by
      split
      · refine Tree.IsLeaf.regular ?_
        rw [Tree.IsLeaf, hword.withLeafKind]
        rfl
      · exact hword.regular
    refine (wrapOperand?_promises hsplit rfl (by decide) hlater (by rw [hentries]; simp) htarget
      hearliest hoperand hname).bind fun result hresult => ?_
    obtain ⟨wrapped, rfl, hwrapped⟩ := hresult
    exact promises_pure.2 (h.setPieces (.settled hwrapped))
  · exact promises_pure.2 hmisplaced

/-- What follows an operand and belongs to it. -/
theorem Orderly.onTail (h : r.Orderly) (hsettled : Settled r.pieces)
    (hexpects : expectsOperand r.pieces = false) {kind : NodeKind} (hkind : kind.isLoose)
    {targetSlot tailSlot : Slot}
    (hslots : kind.declares targetSlot ∧ kind.declares tailSlot ∧ tailSlot ≠ targetSlot)
    (ht : t.Regular) : Promises (r.onTail kind targetSlot tailSlot t) fun r' =>
      r'.Orderly ∧ Settled r'.pieces := by
  obtain ⟨gap, target, earlier, heq, hgap, htarget, hearlier, hoperand⟩ :=
    hsettled.exists_operand hexpects
  have hsplit : splitOperand? r.pieces = some (gap.map .trivia, target, earlier) := by
    simp [heq, splitOperand?_trivia, splitOperand?]
  have hentries : (gap.map .trivia).reverse.map (innerEntry kind) = Form.extras gap.reverse := by
    rw [← List.map_reverse, innerEntry_trivia]
  have hlater : Form.Plain kind ((gap.map .trivia).reverse.map (innerEntry kind)) := by
    rw [hentries]
    exact hgap.plain kind
  refine (wrapOperand?_promises hsplit hkind hslots hlater (by rw [hentries]; simp) htarget hearlier
    hoperand ht).bind fun result hresult => ?_
  obtain ⟨wrapped, rfl, hwrapped⟩ := hresult
  exact promises_pure.2 ⟨h.setPieces (.settled hwrapped), hwrapped⟩

/-- No piece waits while a state is open for something that is no leaf. -/
theorem Receives.settled {o : Origin} (h : r.Receives o) (ho : o.isLeaf = false) :
    Settled r.pieces := by
  have hgoal := h.goal
  unfold GoalSuits at hgoal
  split at hgoal
  case h_1 | h_3 => subst hgoal; cases ho
  case h_2 => obtain ⟨rfl, _⟩ := hgoal; cases ho
  case h_4 => exact hgoal.2.1
  case h_5 => exact hgoal.2
  all_goals exact hgoal.2.1

/-- What an expression makes of the token that it opened a state for. Only a word may open another
state. -/
structure Handled (o : Origin) (receipt : Receipt ExpressionReader) : Prop where
  continues : Continues receipt
  inner : o.isLeaf = false → receipt.opened = [] ∧ Settled receipt.state.pieces

theorem Orderly.handled {o : Origin} (h : r.Orderly)
    (hsettled : o.isLeaf = false → Settled r.pieces) : Handled o { state := r } :=
  ⟨h.continues, fun ho => ⟨rfl, hsettled ho⟩⟩

/-- Trivia, and a leaf that has lost its place. -/
theorem Orderly.handled_trivia {o : Origin} (h : r.Orderly)
    (hsettled : o.isLeaf = false → Settled r.pieces) (ht : (t.isTrivia || t.isInvalid) = true) :
    Handled o { state := r.push (.trivia t) } := by
  have htidy : Form.Tidy {} (Form.extras [t]) := Form.tidy_trivia ht
  exact (h.push_trivia ht).handled fun ho => (hsettled ho).trivia htidy

/-- The token that a state was opened for. -/
theorem Orderly.onToken {o : Origin} (h : r.Orderly) {goal : ExpressionGoal}
    (hgoal : ({ r with goal } : ExpressionReader).GoalSuits o) (ht : t.Regular)
    (hsuits : o.Suits t) : Promises (r.onToken goal t) (Handled o) := by
  have hpieces : o.isLeaf = false → Settled r.pieces :=
    Receives.settled (r := { r with goal }) ⟨{ h with }, hgoal⟩
  unfold ExpressionReader.onToken
  split
  · rename_i hspace
    exact promises_pure.2 (h.handled_trivia hpieces (by simp [hspace]))
  · split
    · rename_i hlost
      have hleaf : t.IsLeaf := by
        rw [Bool.or_eq_true] at hlost
        rcases hlost with hlost | hlost
        · exact Tree.isLeaf_of_isInvalid hlost
        · simp [Tree.IsLeaf, eq_of_beq hlost]
      exact promises_pure.2 (h.handled_trivia hpieces (by simp [hleaf.isInvalid_invalidated]))
    · rename_i hplace
      rw [Bool.or_eq_true, not_or] at hplace
      cases goal with
      | trivia =>
        obtain rfl : o = .trivia := hgoal
        exact promises_pure.2 ((h.push_trivia hsuits).handled (by simp [Origin.isLeaf]))
      | word =>
        obtain ⟨rfl, hmember⟩ : o = .word ∧ ExpressionReader.awaitsMember r.pieces = false := hgoal
        exact (h.onWord hmember hsuits).mono fun _ hreceipt => ⟨hreceipt, by simp [Origin.isLeaf]⟩
      | member =>
        obtain rfl : o = .word := hgoal
        exact (h.onMember hsuits.isLeaf).bind fun _ hr' =>
          promises_pure.2 (hr'.handled (by simp [Origin.isLeaf]))
      | operand =>
        obtain ⟨horigin, hsettled, hexpects⟩ : (o = .literal ∨ o = .group ∨ o = .sequence) ∧
          Settled r.pieces ∧ expectsOperand r.pieces = true := hgoal
        have hoperand : t.isLooseOperand := by
          rcases horigin with rfl | rfl | rfl
          · exact hsuits.resolve_right hplace.1
          · exact hsuits
          · exact hsuits
        have hmore := hsettled.operand hexpects hoperand ht
        exact promises_pure.2 ((h.setPieces (.settled hmore)).handled fun _ => hmore)
      | operator =>
        obtain ⟨rfl, hsettled⟩ : o = .symbol ∧ Settled r.pieces := hgoal
        obtain ⟨text, rfl⟩ := hsuits
        exact promises_pure.2 ((h.onOperator hsettled text).handled (by simp [Origin.isLeaf]))
      | arguments | subscript =>
        obtain ⟨rfl, hsettled, hexpects⟩ : o = .group ∧ Settled r.pieces ∧
          expectsOperand r.pieces = false := hgoal
        exact (h.onTail hsettled hexpects rfl (by decide) ht).bind fun _ hr' =>
          promises_pure.2 (hr'.1.handled fun _ => hr'.2)

/-- A token that a state inside read but could not place. -/
theorem Orderly.onHandback (h : r.Orderly) (hmember : awaitsMember r.pieces = false)
    (ht : t.IsRead) : Promises (r.onHandback t) Continues := by
  unfold ExpressionReader.onHandback
  split
  · exact promises_pure.2 (h.push_invalidated ht.isLeaf).continues
  · split
    · rename_i hword
      exact h.onWord hmember ⟨ht, .inl hword⟩
    · rename_i hword
      exact h.onWord hmember ⟨ht, .inr (by simp [Tree.keyword?, hword, LeafKind.keyword?])⟩
    · exact promises_pure.2 (h.handBack ht).continues

/-- The beginning of a line that ended a state inside. -/
theorem Orderly.onLine (h : r.Orderly) {line : LineStart} (hline : line.IsOrderly) :
    (r.onLine line).Orderly := by
  unfold ExpressionReader.onLine
  split
  · split
    · rename_i indent hindent
      have hleaf := Tree.isLeaf_of_isTrivia (hline indent hindent)
      refine h.push_trivia ?_
      simp [Tree.isTrivia, hleaf.withLeafKind, LeafKind.isTrivia]
    · exact h
  · exact { h with line := fun _ heq => Option.mem_some_iff.1 heq ▸ hline }

/-- Trivia do not matter for what is awaited. -/
theorem awaitsMember_pushTrivia (r : ExpressionReader) (tokens : List Tree) :
    awaitsMember (r.pushTrivia tokens).pieces = awaitsMember r.pieces := by
  rw [pushTrivia_eq]
  simp only [← List.map_reverse, awaitsMember_trivia]

/-- Trivia do not matter for what a state may be open for. -/
theorem GoalSuits.trivia {o : Origin} {goal : ExpressionGoal}
    (h : ({ r with goal } : ExpressionReader).GoalSuits o)
    (htokens : Form.Tidy {} (Form.extras tokens)) :
    ({ r.pushTrivia tokens with goal } : ExpressionReader).GoalSuits o := by
  have hsettled (h : Settled r.pieces) : Settled (tokens.reverse.map .trivia ++ r.pieces) :=
    h.trivia htokens
  rw [pushTrivia_eq, ← List.map_reverse]
  unfold GoalSuits at h ⊢
  cases goal with
  | trivia | member => exact h
  | word => exact ⟨h.1, (awaitsMember_trivia _ _).trans h.2⟩
  | operator => exact ⟨h.1, hsettled h.2⟩
  | operand | arguments | subscript =>
    exact ⟨h.1, hsettled h.2.1, (expectsOperand_trivia _ _).trans h.2.2⟩

/-- The beginning of a line does not matter for what a state is open for. -/
theorem Receives.onLine {o : Origin} (h : r.Receives o) {line : LineStart}
    (hline : line.IsOrderly) : (r.onLine line).Receives o := by
  refine ⟨h.toOrderly.onLine hline, ?_⟩
  unfold ExpressionReader.onLine
  split
  · split
    · rename_i indent hindent
      have hleaf := Tree.isLeaf_of_isTrivia (hline indent hindent)
      have hspace : Form.Tidy {} (Form.extras [indent.withLeafKind .space]) :=
        Form.tidy_trivia (by simp [Tree.isTrivia, hleaf.withLeafKind, LeafKind.isTrivia])
      exact GoalSuits.trivia h.goal hspace
    · exact h.goal
  · exact h.goal

/-- The beginning of a line that a delivery hands on. -/
theorem Continues.onLine? {receipt : Receipt ExpressionReader} (h : Continues receipt)
    {line? : Option LineStart} (hline : ∀ line ∈ line?, line.IsOrderly) :
    Continues { state := receipt.state.onLine? line?, opened := receipt.opened } := by
  cases line? with
  | none => exact ⟨rfl, h.nests⟩
  | some line =>
    have hline := hline line rfl
    obtain ⟨state, opened, notices⟩ := receipt
    refine ⟨rfl, ?_⟩
    cases opened with
    | nil =>
      have hstate : state.Orderly := h.nests
      exact hstate.onLine hline
    | cons inner more =>
      obtain ⟨hreceives, hmore⟩ := h.nests
      have hstate : state.Receives inner.origin := hreceives
      exact ⟨hstate.onLine hline, hmore⟩

/-- Every delivery leaves the expression in order. -/
theorem Receives.onDelivery {o : Origin} {d : Delivery} (h : r.Receives o) (hd : d.FitsFrom o) :
    Promises (r.onDelivery d) Continues := by
  have hidle : ({ r with goal := .trivia } : ExpressionReader).Orderly := { h.toOrderly with }
  have hleading : (({ r with goal := .trivia } : ExpressionReader).pushTrivia d.leading).Orderly := by
    cases ho : o.isLeaf with
    | true =>
      rw [(hd.alone ho).1]
      exact hidle
    | false => exact hidle.pushTrivia (h.settled ho) hd.leading
  have hgoal := GoalSuits.trivia (r := { r with goal := .trivia }) h.goal hd.leading
  have htoken : Promises
      (({ r with goal := .trivia }.pushTrivia d.leading).onToken? r.goal d.token) (Handled o) := by
    cases htoken : d.token with
    | none =>
      refine promises_ok.2 (hleading.handled fun ho => ?_)
      rw [pushTrivia_eq, ← List.map_reverse]
      exact (h.settled ho).trivia hd.leading
    | some t =>
      obtain ⟨ht, hsuits⟩ := hd.token t htoken
      exact hleading.onToken hgoal ht hsuits
  refine htoken.bind fun first hfirst => ?_
  cases ho : o.isLeaf with
  | true =>
    obtain ⟨_, htrailing, hhandback, hline⟩ := hd.alone ho
    rw [htrailing, hhandback, hline]
    refine promises_pure.2 ⟨rfl, ?_⟩
    simpa [pushTrivia, onLine?, Receipt.map] using hfirst.continues.nests
  | false =>
    obtain ⟨hopened, hsettled⟩ := hfirst.inner ho
    have hstate : first.state.Orderly := by
      have hnests := hfirst.continues.nests
      simp only [Receipt.map, hopened] at hnests
      exact hnests
    have htrailing := hstate.pushTrivia hsettled hd.trailing
    have hhandback : Promises ((first.state.pushTrivia d.trailing).onHandback? d.handback)
        Continues := by
      cases hhandback : d.handback with
      | none => exact promises_ok.2 htrailing.continues
      | some t =>
        refine htrailing.onHandback ?_ (hd.handback t hhandback)
        rw [awaitsMember_pushTrivia]
        exact hsettled.not_waits.1
    refine hhandback.bind fun second hsecond => promises_pure.2 ?_
    rw [hopened, List.nil_append]
    exact hsecond.onLine? hd.line

/-- What the expression delivers. -/
theorem Orderly.finish (h : r.Orderly) (max? : Option Nat) :
    Promises (r.finish max?) (·.FitsFrom .expression) :=
  (Climbed.fold_tidy max? h.fit.settle.1).bind fun _ hd => promises_pure.2
    { leading := hd.1
      token := fun t ht => ⟨hd.2.1 t ht, trivial⟩
      trailing := hd.2.2
      handback := h.handback
      line := h.line
      alone := nofun }

end ExpressionReader

end ScriptTree
