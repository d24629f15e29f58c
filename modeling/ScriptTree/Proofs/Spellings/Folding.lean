import ScriptTree.Grammar.Climb
import ScriptTree.Proofs.Spellings.Readers

/-!
# Expressions of the two spellings fold alike

Precedence passes over trivia, so that line breaks between the pieces of an expression change
nothing but the extras of its nodes.
-/

namespace ScriptTree.Climbed

variable [ReaderSpelling]

/-- The same operand in the two spellings. -/
structure Twin (c c' : Climbed) : Prop where
  before : Tree.Twins c.before c'.before
  token : c.token.Twin c'.token
  rest : Piece.Twins c.rest c'.rest

variable {max? : Option Nat} {pieces pieces' : List Piece} {before before' : List Tree}

/-- The same trivia come first. -/
theorem skipTrivia_twin (h : Piece.Twins pieces pieces') :
    Tree.Twins (skipTrivia pieces).1 (skipTrivia pieces').1 ∧
      Piece.Twins (skipTrivia pieces).2 (skipTrivia pieces').2 := by
  induction h with
  | nil => exact ⟨.nil, .nil⟩
  | cons h hrest ih =>
    cases h with
    | trivia ht => exact ⟨.cons ht ih.1, ih.2⟩
    | operand ht => exact ⟨.nil, .cons (.operand ht) hrest⟩
    | operation op ht => exact ⟨.nil, .cons (.operation op ht) hrest⟩
    | point ht => exact ⟨.nil, .cons (.point ht) hrest⟩
    | negation ht => exact ⟨.nil, .cons (.negation ht) hrest⟩
  | twice h _ ih =>
    obtain ⟨htwice, rfl, rfl, rfl⟩ := h
    exact ⟨.twice ⟨htwice, rfl, rfl, rfl⟩ ih.1, ih.2⟩

omit [ReaderSpelling] in
/-- Skipping trivia adds no pieces. -/
theorem length_skipTrivia_le (pieces : List Piece) :
    (skipTrivia pieces).2.length ≤ pieces.length := by
  induction pieces with
  | nil => exact Nat.le_refl 0
  | cons piece rest ih =>
    cases piece with
    | trivia t => exact Nat.le_succ_of_le ih
    | _ => exact Nat.le_refl _

theorem Twin.entries {c c' : Climbed} (h : c.Twin c') (slot : Slot) :
    Form.Twin (c.entries slot) (c'.entries slot) :=
  (Form.twin_extras h.before).append (Form.twin_entry _ h.token)

theorem leafEntries_twin (slot : Slot) (h : Tree.Twins before before') {t t' : Tree}
    (ht : t.Twin t') : Form.Twin (leafEntries slot before t) (leafEntries slot before' t') :=
  (Form.twin_extras h).append (Form.twin_entry _ ht)

/-- Nodes of the same children are the same operands. -/
theorem assemble_twin (hbefore : Tree.Twins before before') (kind : NodeKind)
    {form form' : List Entry} (hform : Form.Twin form form') (hrest : Piece.Twins pieces pieces') :
    Agree (fun c c' => c.Twin c' ∧ c.rest = pieces) (assemble before kind form pieces)
      (assemble before' kind form' pieces') :=
  (hform.assemble kind).mapError.bind fun _ _ ht => ⟨⟨hbefore, ht, hrest⟩, rfl⟩

/-- The same operands, with fewer pieces left than the given number. -/
def TwinBelow (n : Nat) (c c' : Climbed) : Prop :=
  c.Twin c' ∧ c.rest.length < n

/-- With enough fuel for one spelling, and no less for the other, the same operand is built. -/
def ClimbTwins (max? : Option Nat) (fuel : Nat) : Prop :=
  ∀ fuel' frames least pieces pieces', fuel ≤ fuel' → Piece.Twins pieces pieces' →
    2 * pieces.length + 2 ≤ fuel →
    Agree (Option.Rel (TwinBelow pieces.length)) (climb max? fuel frames least pieces)
      (climb max? fuel' frames least pieces')

/-- The same single operand is built. -/
def PrimaryTwins (max? : Option Nat) (fuel : Nat) : Prop :=
  ∀ fuel' frames pieces pieces', fuel ≤ fuel' → Piece.Twins pieces pieces' →
    2 * pieces.length + 1 ≤ fuel →
    Agree (Option.Rel (TwinBelow pieces.length)) (primary max? fuel frames pieces)
      (primary max? fuel' frames pieces')

/-- The same operand is extended. -/
def ExtendTwins (max? : Option Nat) (fuel : Nat) : Prop :=
  ∀ fuel' frames least left left', fuel ≤ fuel' → Twin left left' →
    2 * left.rest.length + 1 ≤ fuel →
    Agree (TwinBelow (left.rest.length + 1)) (extend max? fuel frames least left)
      (extend max? fuel' frames least left')

/-- The same operator before an operand. -/
theorem prefixed_twin {fuel fuel' frames least : Nat} (hclimb : ClimbTwins max? fuel)
    (hfuel : fuel ≤ fuel') (hbefore : Tree.Twins before before') (kind : NodeKind)
    {t t' : Tree} (ht : t.Twin t') (slot operandSlot : Slot) {rest rest' : List Piece} {n : Nat}
    (hrest : Piece.Twins rest rest') (henough : 2 * rest.length + 2 ≤ fuel)
    (hless : rest.length < n) :
    Agree (Option.Rel (TwinBelow n))
      (do
        match ← climb max? fuel frames least rest with
        | none => return none
        | some operand =>
          let form := (.slot slot, t) :: operand.entries operandSlot
          return some (← assemble before kind form operand.rest))
      (do
        match ← climb max? fuel' frames least rest' with
        | none => return none
        | some operand =>
          let form := (.slot slot, t') :: operand.entries operandSlot
          return some (← assemble before' kind form operand.rest)) := by
  refine (hclimb fuel' frames least rest rest' hfuel hrest henough).bind fun x y hxy => ?_
  rcases hxy.none_or_some with ⟨rfl, rfl⟩ | ⟨operand, operand', rfl, rfl, hoperand, hlength⟩
  · exact .none
  · have hform : Form.Twin ((.slot slot, t) :: operand.entries operandSlot)
        ((.slot slot, t') :: operand'.entries operandSlot) :=
      .cons ⟨rfl, ht⟩ (hoperand.entries operandSlot)
    refine (assemble_twin hbefore kind hform hoperand.rest).bind fun c c' hc => ?_
    refine .some ⟨hc.1, ?_⟩
    rw [hc.2]
    omega

/-- The same single operand is built if the operands of operators are. -/
theorem primary_twins {fuel : Nat} (hclimb : ClimbTwins max? fuel) :
    PrimaryTwins max? (fuel + 1) := by
  intro fuel' frames pieces pieces' hfuel hpieces henough
  obtain ⟨fuel', rfl⟩ : ∃ n, fuel' = n + 1 := ⟨fuel' - 1, by omega⟩
  obtain ⟨hbefore, hrest⟩ := skipTrivia_twin hpieces
  have hlength := length_skipTrivia_le pieces
  rw [primary, primary]
  rcases hskip : skipTrivia pieces with ⟨before, rest⟩
  rcases hskip' : skipTrivia pieces' with ⟨before', rest'⟩
  rw [hskip, hskip'] at hbefore hrest
  rw [hskip] at hlength
  cases hrest with
  | nil => exact .none
  | twice h _ =>
    obtain ⟨htwice, rfl, rfl, rfl⟩ := h
    exact .none
  | cons h hrest =>
    rw [List.length_cons] at hlength
    cases h with
    | operand ht => exact .some ⟨⟨hbefore, ht, hrest⟩, hlength⟩
    | trivia ht => exact .none
    | point ht => exact .none
    | negation ht => exact .none
    | operation op ht =>
      cases op with
      | unary op =>
        exact prefixed_twin hclimb (by omega) hbefore .singleOperator ht .operator .operand hrest
          (by omega) hlength
      | await =>
        exact prefixed_twin hclimb (by omega) hbefore .await ht .keyword .operand hrest
          (by omega) hlength
      | binary op => exact .none
      | ternaryIf => exact .none
      | ternaryElse => exact .none

variable {fuel fuel' frames least n : Nat} {rest rest' : List Piece}

/-- The same operand is extended further once the same node was put together. -/
theorem extendAssembled_twin (hextend : ExtendTwins max? fuel) (hfuel : fuel ≤ fuel')
    (hbefore : Tree.Twins before before') (kind : NodeKind) {form form' : List Entry}
    (hform : Form.Twin form form') (hrest : Piece.Twins rest rest')
    (henough : 2 * rest.length + 1 ≤ fuel) (hless : rest.length < n) :
    Agree (TwinBelow n)
      (do extend max? fuel frames least (← assemble before kind form rest))
      (do extend max? fuel' frames least (← assemble before' kind form' rest')) := by
  refine (assemble_twin hbefore kind hform hrest).bind fun c c' hc => ?_
  obtain ⟨htwin, hsame⟩ := hc
  refine (hextend fuel' frames least c c' hfuel htwin (by rw [hsame]; exact henough)).mono ?_
  intro d d' hd
  rw [hsame] at hd
  exact ⟨hd.1, Nat.lt_of_lt_of_le hd.2 hless⟩

/-- The same operator between two operands. -/
theorem extend_binary_twin (hclimb : ClimbTwins max? fuel) (hextend : ExtendTwins max? fuel)
    (hfuel : fuel ≤ fuel') {left left' : Climbed} (hleft : Twin left left') {gap gap' : List Tree}
    (hgap : Tree.Twins gap gap') (op : OperatorKind) {t t' : Tree} (ht : t.Twin t')
    (hrest : Piece.Twins rest rest') (hlength : rest.length < left.rest.length)
    (henough : 2 * rest.length + 2 ≤ fuel)
    (hskip : skipTrivia left.rest = (gap, .operation (.binary op) t :: rest))
    (hskip' : skipTrivia left'.rest = (gap', .operation (.binary op) t' :: rest')) :
    Agree (TwinBelow (left.rest.length + 1)) (extend max? (fuel + 1) frames least left)
      (extend max? (fuel' + 1) frames least left') := by
  have hself : TwinBelow (left.rest.length + 1) left left' := ⟨hleft, Nat.lt_succ_self _⟩
  rw [extend, extend, hskip, hskip']
  dsimp only
  cases hprecedence : op.binaryPrecedence? with
  | none => exact hself
  | some precedence =>
    dsimp only
    split
    · exact hself
    · refine (hclimb fuel' frames _ rest rest' hfuel hrest henough).bind fun x y hxy => ?_
      rcases hxy.none_or_some with ⟨rfl, rfl⟩ | ⟨right, right', rfl, rfl, hright, hless⟩
      · exact hself
      · refine extendAssembled_twin hextend hfuel hleft.before .dualOperator ?_ hright.rest
          (by omega) (by omega)
        exact (Aligned.cons ⟨rfl, hleft.token⟩ (leafEntries_twin .operator hgap ht)).append
          (hright.entries .right)

/-- The same ternary operator, complete or not. -/
theorem extend_ternary_twin (hclimb : ClimbTwins max? fuel) (hextend : ExtendTwins max? fuel)
    (hfuel : fuel ≤ fuel') {left left' : Climbed} (hleft : Twin left left') {gap gap' : List Tree}
    (hgap : Tree.Twins gap gap') {t t' : Tree} (ht : t.Twin t')
    (hrest : Piece.Twins rest rest') (hlength : rest.length < left.rest.length)
    (henough : 2 * rest.length + 2 ≤ fuel)
    (hskip : skipTrivia left.rest = (gap, .operation .ternaryIf t :: rest))
    (hskip' : skipTrivia left'.rest = (gap', .operation .ternaryIf t' :: rest')) :
    Agree (TwinBelow (left.rest.length + 1)) (extend max? (fuel + 1) frames least left)
      (extend max? (fuel' + 1) frames least left') := by
  have hself : TwinBelow (left.rest.length + 1) left left' := ⟨hleft, Nat.lt_succ_self _⟩
  have hopening {u u' : Tree} (hu : u.Twin u') :
      Form.Twin ((.slot .trueValue, left.token) :: leafEntries .ifKeyword gap u)
        ((.slot .trueValue, left'.token) :: leafEntries .ifKeyword gap' u') :=
    .cons ⟨rfl, hleft.token⟩ (leafEntries_twin .ifKeyword hgap hu)
  rw [extend, extend, hskip, hskip']
  dsimp only
  split
  · exact hself
  · refine (hclimb fuel' frames _ rest rest' hfuel hrest henough).bind fun x y hxy => ?_
    rcases hxy.none_or_some with ⟨rfl, rfl⟩ | ⟨condition, condition', rfl, rfl, hcondition, hless⟩
    · exact extendAssembled_twin hextend hfuel hleft.before .ternary (hopening ht.invalidated)
        hrest (by omega) (by omega)
    · have hshown := hcondition.entries .condition
      have hincomplete :
          Agree (TwinBelow (left.rest.length + 1))
            (do extend max? fuel frames least (← assemble left.before .ternary
              ((.slot .trueValue, left.token) :: leafEntries .ifKeyword gap t.invalidated
                ++ condition.entries .condition) condition.rest))
            (do extend max? fuel' frames least (← assemble left'.before .ternary
              ((.slot .trueValue, left'.token) :: leafEntries .ifKeyword gap' t'.invalidated
                ++ condition'.entries .condition) condition'.rest)) :=
        extendAssembled_twin hextend hfuel hleft.before .ternary
          ((hopening ht.invalidated).append hshown) hcondition.rest (by omega) (by omega)
      obtain ⟨helseGap, helse⟩ := skipTrivia_twin hcondition.rest
      have helseLength := length_skipTrivia_le condition.rest
      dsimp only
      rcases hskipElse : skipTrivia condition.rest with ⟨elseGap, elsePieces⟩
      rcases hskipElse' : skipTrivia condition'.rest with ⟨elseGap', elsePieces'⟩
      rw [hskipElse, hskipElse'] at helseGap helse
      rw [hskipElse] at helseLength
      cases helse with
      | nil => exact hincomplete
      | twice h _ =>
        obtain ⟨htwice, rfl, rfl, rfl⟩ := h
        exact hincomplete
      | @cons _ _ elseRest elseRest' h helseRest =>
        cases h with
        | operand ht => exact hincomplete
        | trivia ht => exact hincomplete
        | point ht => exact hincomplete
        | negation ht => exact hincomplete
        | operation op hu =>
          cases op with
          | unary op => exact hincomplete
          | binary op => exact hincomplete
          | await => exact hincomplete
          | ternaryIf => exact hincomplete
          | ternaryElse =>
            simp only [List.length_cons] at helseLength
            refine (hclimb fuel' frames _ elseRest elseRest' hfuel helseRest (by omega)).bind
              fun x y hxy => ?_
            rcases hxy.none_or_some with ⟨rfl, rfl⟩ | ⟨value, value', rfl, rfl, hvalue, hlast⟩
            · refine extendAssembled_twin hextend hfuel hleft.before .ternary ?_ helseRest
                (by omega) (by omega)
              exact ((hopening ht.invalidated).append hshown).append
                (leafEntries_twin .elseKeyword helseGap hu.invalidated)
            · refine extendAssembled_twin hextend hfuel hleft.before .ternary ?_ hvalue.rest
                (by omega) (by omega)
              exact (((hopening ht).append hshown).append
                (leafEntries_twin .elseKeyword helseGap hu)).append (hvalue.entries .falseValue)

/-- The same operand is extended if the operands of operators are. -/
theorem extend_twins (hclimb : ClimbTwins max? fuel) (hextend : ExtendTwins max? fuel) :
    ExtendTwins max? (fuel + 1) := by
  intro fuel' frames least left left' hfuel hleft henough
  obtain ⟨fuel', rfl⟩ : ∃ n, fuel' = n + 1 := ⟨fuel' - 1, by omega⟩
  have hself : TwinBelow (left.rest.length + 1) left left' := ⟨hleft, Nat.lt_succ_self _⟩
  obtain ⟨hgap, hrest⟩ := skipTrivia_twin hleft.rest
  have hlength := length_skipTrivia_le left.rest
  rcases hskip : skipTrivia left.rest with ⟨gap, pieces⟩
  rcases hskip' : skipTrivia left'.rest with ⟨gap', pieces'⟩
  rw [hskip, hskip'] at hgap hrest
  rw [hskip] at hlength
  cases hrest with
  | nil =>
    rw [extend, extend, hskip, hskip']
    exact hself
  | twice h _ =>
    obtain ⟨htwice, rfl, rfl, rfl⟩ := h
    rw [extend, extend, hskip, hskip']
    exact hself
  | cons h hrest =>
    simp only [List.length_cons] at hlength
    cases h with
    | operation op ht =>
      cases op with
      | binary op =>
        exact extend_binary_twin hclimb hextend (by omega) hleft hgap op ht hrest hlength
          (by omega) hskip hskip'
      | ternaryIf =>
        exact extend_ternary_twin hclimb hextend (by omega) hleft hgap ht hrest hlength
          (by omega) hskip hskip'
      | _ =>
        rw [extend, extend, hskip, hskip']
        exact hself
    | _ =>
      rw [extend, extend, hskip, hskip']
      exact hself

/-- The same operand is built if single operands are, and extended. -/
theorem climb_twins (hprimary : PrimaryTwins max? fuel) (hextend : ExtendTwins max? fuel) :
    ClimbTwins max? (fuel + 1) := by
  intro fuel' frames least pieces pieces' hfuel hpieces henough
  obtain ⟨fuel', rfl⟩ : ∃ n, fuel' = n + 1 := ⟨fuel' - 1, by omega⟩
  rw [climb, climb]
  refine (agree_self _).bind fun _ _ _ => ?_
  refine (hprimary fuel' (frames + 1) pieces pieces' (by omega) hpieces (by omega)).bind
    fun x y hxy => ?_
  rcases hxy.none_or_some with ⟨rfl, rfl⟩ | ⟨left, left', rfl, rfl, hleft, hless⟩
  · exact .none
  · refine (hextend fuel' (frames + 1) least left left' (by omega) hleft (by omega)).bind
      fun c c' hc => ?_
    exact .some ⟨hc.1, Nat.lt_of_lt_of_le hc.2 hless⟩

/-- The same operands are built with any fuel, by induction on the fuel of one spelling. -/
theorem twins (max? : Option Nat) (fuel : Nat) :
    ClimbTwins max? fuel ∧ PrimaryTwins max? fuel ∧ ExtendTwins max? fuel := by
  induction fuel with
  | zero =>
    refine ⟨?_, ?_, ?_⟩
    · intro fuel' frames least pieces pieces' _ _ henough
      omega
    · intro fuel' frames pieces pieces' _ _ henough
      omega
    · intro fuel' frames least left left' _ _ henough
      omega
  | succ fuel ih =>
    obtain ⟨hclimb, hprimary, hextend⟩ := ih
    exact ⟨climb_twins hprimary hextend, primary_twins hclimb, extend_twins hclimb hextend⟩

/-- What no operand took. -/
theorem leftover_twins (h : Piece.Twins pieces pieces') :
    Tree.Twins (pieces.map leftover) (pieces'.map leftover) := by
  refine h.map (fun piece piece' h => ?_) fun a b c h => ?_
  · cases h with
    | operation op ht => exact ht.invalidated
    | operand ht => exact ht
    | trivia ht => exact ht
    | point ht => exact ht
    | negation ht => exact ht
  · obtain ⟨htwice, rfl, rfl, rfl⟩ := h
    exact ⟨htwice, rfl, rfl, rfl⟩

/-- The same expression is folded in the two spellings. -/
theorem fold_twin (max? : Option Nat) (h : Piece.Twins pieces pieces') :
    Agree Delivery.Twin (fold max? pieces) (fold max? pieces') := by
  have hlength := h.length_le
  refine ((twins max? _).1 _ 0 0 pieces pieces' (by omega) h (Nat.le_refl _)).bind fun x y hxy => ?_
  rcases hxy.none_or_some with ⟨rfl, rfl⟩ | ⟨top, top', rfl, rfl, htop, _⟩
  · exact ⟨.nil, .none, leftover_twins h, .none, .none⟩
  · exact ⟨htop.before, .some htop.token, leftover_twins htop.rest, .none, .none⟩

end ScriptTree.Climbed
