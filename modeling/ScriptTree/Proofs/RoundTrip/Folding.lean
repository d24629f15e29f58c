import ScriptTree.Proofs.Folding
import ScriptTree.Proofs.RoundTrip.Expr

/-!
# Folding the pieces of an expression

The pieces as which an expression is read flat fold into its tree, if it needs no brackets: each
operand ends where an operator follows that binds less tightly than every operand at its right end
asks for.
-/

namespace ScriptTree

/-- The pieces as which an expression is read. -/
def Expr.pieces : Expr → List Piece
  | .primary p => [.operand p.tree]
  | .prefixed op operand => .operation (.unary op.kind) op.token :: .trivia blank :: operand.pieces
  | .await operand =>
    .operation .await (keywordTree .awaitKw) :: .trivia blank :: operand.pieces
  | .binary op left right =>
    left.pieces ++ .trivia blank :: .operation (.binary op.kind) op.token ::
      (op.after.map .trivia ++ right.pieces)
  | .ternary value condition alternative =>
    value.pieces ++ .trivia blank ::
      .operation .ternaryIf (keywordTree .ifKw) :: .trivia blank ::
        (condition.pieces ++ .trivia blank ::
          .operation .ternaryElse (keywordTree .elseKw) ::
            .trivia blank :: alternative.pieces)

/-- Every operator between operands has a precedence. -/
theorem InfixOperator.binaryPrecedence?_kind (op : InfixOperator) :
    op.kind.binaryPrecedence? = some op.precedence := by
  cases op with
  | notIn => rfl
  | spelled text kind denotes =>
    unfold OperatorKind.binary? at denotes
    split at denotes <;> cases denotes <;> rfl

/-- Every operator before an operand has a precedence. -/
theorem PrefixOperator.unaryPrecedence?_kind (op : PrefixOperator) :
    op.kind.unaryPrecedence? = some op.precedence := by
  obtain ⟨text, kind, denotes⟩ := op
  unfold OperatorKind.unary? at denotes
  split at denotes <;> cases denotes <;> rfl

namespace Climbed

/-- The precedence of the operator that comes next, if one does. -/
def nextPrecedence? (pieces : List Piece) : Option Nat :=
  match (skipTrivia pieces).2 with
  | .operation (.binary op) _ :: _ => op.binaryPrecedence?
  | .operation .ternaryIf _ :: _ => some OperatorKind.ternaryPrecedence
  | _ => none

/-- The next operator, if there is one, binds less tightly than all of the given precedences. -/
def Stops (precedences : List Nat) (rest : List Piece) : Prop :=
  ∀ p ∈ nextPrecedence? rest, ∀ least ∈ precedences, p < least

theorem skipTrivia_trivia (tokens : List Tree) (rest : List Piece) :
    skipTrivia (tokens.map .trivia ++ rest) =
      (tokens ++ (skipTrivia rest).1, (skipTrivia rest).2) := by
  induction tokens with
  | nil => rfl
  | cons t tokens ih => simp [skipTrivia, ih]

variable {fuel frames least : Nat} {left : Climbed}

/-- No limit on frames is exceeded where there is none. -/
theorem checkDepth_none (limit : DepthLimit) (depth : Nat) :
    ParseError.ofDepth (checkDepth limit none depth) = .ok () := rfl

/-- An operand is complete where the next operator binds too loosely. -/
theorem extend_of_stops (h : Stops [least] left.rest) :
    extend none fuel frames least left = .ok left := by
  cases fuel with
  | zero => rw [extend]
  | succ fuel =>
    rw [extend]
    rcases hskip : skipTrivia left.rest with ⟨gap, rest⟩
    simp only [Stops, nextPrecedence?, hskip, List.mem_singleton, forall_eq] at h
    split
    · rename_i gap' op token rest' heq
      obtain ⟨rfl, rfl⟩ := Prod.mk.inj heq
      dsimp only at h
      split
      · rfl
      · rename_i precedence hprecedence
        exact if_pos (h precedence hprecedence)
    · rename_i gap' token rest' heq
      obtain ⟨rfl, rfl⟩ := Prod.mk.inj heq
      exact if_pos (h _ rfl)
    · rfl

/-- The pieces of an expression fold into its tree, of which operators that bind at least as tightly
as `least` may make more. -/
def Climbs (e : Expr) (least : Nat) : Prop :=
  ∀ (fuel frames : Nat) (before : List Tree) (rest : List Piece), Stops e.spine rest →
    2 * e.pieces.length ≤ fuel → ∃ more, fuel ≤ more + e.pieces.length ∧
      climb none fuel frames least (before.map .trivia ++ (e.pieces ++ rest)) =
        (extend none more (frames + 1) least ⟨before, e.tree, rest⟩).map some

variable {e operand right condition alternative : Expr} {before : List Tree} {rest : List Piece}

/-- The pieces of an expression fold into its tree where the next operator binds too loosely. -/
theorem Climbs.climb_eq (h : Climbs e least) (hstops : Stops (least :: e.spine) rest)
    (hfuel : 2 * e.pieces.length ≤ fuel) :
    climb none fuel frames least (before.map .trivia ++ (e.pieces ++ rest)) =
      .ok (some ⟨before, e.tree, rest⟩) := by
  obtain ⟨more, _, hclimb⟩ := h fuel frames before rest
    (fun p hp least' hleast => hstops p hp least' (List.mem_cons_of_mem _ hleast)) hfuel
  have hleast : Stops [least] rest := fun p hp least' hleast =>
    hstops p hp least' (List.mem_cons.2 (.inl (List.mem_singleton.1 hleast)))
  rw [hclimb, extend_of_stops hleast]
  rfl

/-- A node of declared slots goes on as the left operand of what follows. -/
theorem assemble_of_declared {kind : NodeKind} {form : List Entry}
    (h : Form.Declared kind form) :
    assemble before kind form rest = .ok ⟨before, .ofForm kind form, rest⟩ := by
  simp [assemble, Tree.assemble_of_declared h, ParseError.ofTree_ok, bind, Except.bind,
    pure, Except.pure]

/-- A single operand is extended. -/
theorem climb_of_primary {pieces : List Piece}
    (h : primary none fuel (frames + 1) pieces = .ok (some left)) :
    climb none (fuel + 1) frames least pieces =
      (extend none fuel (frames + 1) least left).map some := by
  rw [climb, checkDepth_none, h]
  exact (map_eq_pure_bind some (extend none fuel (frames + 1) least left)).symm

/-- A primary is one piece. -/
theorem climbs_primary (p : Primary) (least : Nat) : Climbs (.primary p) least := by
  intro fuel frames before rest _ hfuel
  obtain ⟨n, rfl⟩ : ∃ n, fuel = n + 2 := ⟨fuel - 2, by simp [Expr.pieces] at hfuel; omega⟩
  refine ⟨n + 1, by simp [Expr.pieces], ?_⟩
  have hskip : skipTrivia (before.map .trivia ++ ((Expr.primary p).pieces ++ rest)) =
      (before, .operand p.tree :: rest) := by
    rw [skipTrivia_trivia]
    simp [Expr.pieces, skipTrivia]
  refine climb_of_primary ?_
  rw [primary, hskip]
  rfl

/-- An operator before an operand takes what binds at least as tightly as it does. -/
theorem climbs_prefixed (op : PrefixOperator) (h : Climbs operand op.precedence) (least : Nat) :
    Climbs (.prefixed op operand) least := by
  intro fuel frames before rest hstops hfuel
  simp only [Expr.pieces, List.length_cons] at hfuel ⊢
  obtain ⟨n, rfl⟩ : ∃ n, fuel = n + 2 := ⟨fuel - 2, by omega⟩
  refine ⟨n + 1, by omega, ?_⟩
  have hskip : skipTrivia (before.map .trivia ++ (Piece.operation (.unary op.kind) op.token ::
      .trivia blank :: operand.pieces ++ rest)) =
        (before, .operation (.unary op.kind) op.token :: ([blank].map .trivia ++
          (operand.pieces ++ rest))) := by
    rw [skipTrivia_trivia]
    simp [skipTrivia]
  have hclimb : climb none n (frames + 1) op.precedence
      ([blank].map .trivia ++ (operand.pieces ++ rest)) = .ok (some ⟨[blank], operand.tree, rest⟩) :=
    h.climb_eq hstops (by omega)
  have hnode : assemble before .singleOperator
      ((.slot .operator, op.token) :: entries .operand ⟨[blank], operand.tree, rest⟩) rest =
        .ok ⟨before, (Expr.prefixed op operand).tree, rest⟩ :=
    assemble_of_declared (by simp; decide)
  refine climb_of_primary ?_
  rw [primary, hskip]
  simp only [op.unaryPrecedence?_kind, Option.getD_some, hclimb]
  simp only [bind, Except.bind, hnode]
  rfl

/-- `await` takes what binds at least as tightly as it does. -/
theorem climbs_await (h : Climbs operand OperatorKind.awaitPrecedence) (least : Nat) :
    Climbs (.await operand) least := by
  intro fuel frames before rest hstops hfuel
  simp only [Expr.pieces, List.length_cons] at hfuel ⊢
  obtain ⟨n, rfl⟩ : ∃ n, fuel = n + 2 := ⟨fuel - 2, by omega⟩
  refine ⟨n + 1, by omega, ?_⟩
  have hskip : skipTrivia (before.map .trivia ++ (Piece.operation .await (keywordTree .awaitKw) ::
      .trivia blank :: operand.pieces ++ rest)) =
        (before, .operation .await (keywordTree .awaitKw) :: ([blank].map .trivia ++
          (operand.pieces ++ rest))) := by
    rw [skipTrivia_trivia]
    simp [skipTrivia]
  have hclimb : climb none n (frames + 1) OperatorKind.awaitPrecedence
      ([blank].map .trivia ++ (operand.pieces ++ rest)) = .ok (some ⟨[blank], operand.tree, rest⟩) :=
    h.climb_eq hstops (by omega)
  have hnode : assemble before .await
      ((.slot .keyword, keywordTree .awaitKw) :: entries .operand ⟨[blank], operand.tree, rest⟩)
        rest =
        .ok ⟨before, (Expr.await operand).tree, rest⟩ :=
    assemble_of_declared (by simp; decide)
  refine climb_of_primary ?_
  rw [primary, hskip]
  simp only [hclimb]
  simp only [bind, Except.bind, hnode]
  rfl

/-- The next piece but trivia decides what comes next. -/
theorem nextPrecedence?_trivia (tokens : List Tree) (rest : List Piece) :
    nextPrecedence? (tokens.map .trivia ++ rest) = nextPrecedence? rest := by
  rw [nextPrecedence?, skipTrivia_trivia, nextPrecedence?]

/-- An operator between operands takes the operand before it, and what binds tightly enough after
it. -/
theorem climbs_binary (op : InfixOperator) {left : Expr} (hleast : least ≤ op.precedence)
    (hleft : Climbs left least) (hleaves : left.leaves op.precedence = true)
    (hright : Climbs right op.rightPrecedence) : Climbs (.binary op left right) least := by
  intro fuel frames before rest hstops hfuel
  simp only [Expr.pieces, List.length_append, List.length_cons, List.length_map] at hfuel ⊢
  have hpieces : left.pieces ++ .trivia blank :: .operation (.binary op.kind) op.token ::
      (op.after.map .trivia ++ right.pieces) ++ rest = left.pieces ++ ([blank].map .trivia ++
        (.operation (.binary op.kind) op.token ::
          (op.after.map .trivia ++ (right.pieces ++ rest)))) := by
    simp
  have hnext : Stops left.spine ([blank].map .trivia ++
      (.operation (.binary op.kind) op.token ::
        (op.after.map .trivia ++ (right.pieces ++ rest)))) := by
    intro p hp least' hleast'
    rw [nextPrecedence?_trivia] at hp
    obtain rfl : op.precedence = p := by
      simpa [nextPrecedence?, skipTrivia, op.binaryPrecedence?_kind] using hp
    exact of_decide_eq_true (List.all_eq_true.1 hleaves least' hleast')
  obtain ⟨more, hmore, hclimb⟩ := hleft fuel frames before _ hnext (by omega)
  obtain ⟨n, rfl⟩ : ∃ n, more = n + 1 := ⟨more - 1, by omega⟩
  refine ⟨n, by omega, ?_⟩
  have hskip : skipTrivia ([blank].map .trivia ++ (.operation (.binary op.kind) op.token ::
      (op.after.map .trivia ++ (right.pieces ++ rest)))) =
        ([blank], .operation (.binary op.kind) op.token ::
          (op.after.map .trivia ++ (right.pieces ++ rest))) := by
    rw [skipTrivia_trivia]
    simp [skipTrivia]
  have hoperand : climb none n (frames + 1) op.rightPrecedence
      (op.after.map .trivia ++ (right.pieces ++ rest)) = .ok (some ⟨op.after, right.tree, rest⟩) :=
    hright.climb_eq hstops (by omega)
  have hnode : assemble before .dualOperator ((.slot .left, left.tree) ::
      leafEntries .operator [blank] op.token ++ entries .right ⟨op.after, right.tree, rest⟩) rest =
        .ok ⟨before, (Expr.binary op left right).tree, rest⟩ :=
    assemble_of_declared (by simp; decide)
  rw [hpieces, hclimb, extend, hskip]
  simp only [op.binaryPrecedence?_kind, if_neg (Nat.not_lt.2 hleast)]
  rw [show op.kind.rightPrecedence op.precedence = op.rightPrecedence from rfl, hoperand]
  simp only [bind, Except.bind, hnode]

/-- A ternary takes the operand before it, a condition, and what binds tightly enough at its end. -/
theorem climbs_ternary {value : Expr} (hleast : least ≤ OperatorKind.ternaryPrecedence)
    (hvalue : Climbs value least) (hleaves : value.leaves OperatorKind.ternaryPrecedence = true)
    (hcondition : Climbs condition (OperatorKind.ternaryPrecedence + 1))
    (halternative : Climbs alternative OperatorKind.ternaryPrecedence) :
    Climbs (.ternary value condition alternative) least := by
  intro fuel frames before rest hstops hfuel
  simp only [Expr.pieces, List.length_append, List.length_cons] at hfuel ⊢
  -- The pieces from the condition and from `else` on.
  generalize hafter : Piece.operation .ternaryElse (keywordTree .elseKw) ::
    ([blank].map .trivia ++ (alternative.pieces ++ rest)) = after
  generalize hopened : Piece.operation .ternaryIf (keywordTree .ifKw) ::
    ([blank].map .trivia ++ (condition.pieces ++ ([blank].map .trivia ++ after))) = opened
  have hpieces : value.pieces ++ .trivia blank :: .operation .ternaryIf (keywordTree .ifKw) ::
      .trivia blank :: (condition.pieces ++ .trivia blank ::
        .operation .ternaryElse (keywordTree .elseKw) :: .trivia blank :: alternative.pieces) ++
          rest = value.pieces ++ ([blank].map .trivia ++ opened) := by
    simp [← hopened, ← hafter]
  have hnext : Stops value.spine ([blank].map .trivia ++ opened) := by
    intro p hp least' hleast'
    rw [nextPrecedence?_trivia] at hp
    obtain rfl : OperatorKind.ternaryPrecedence = p := by
      simpa [nextPrecedence?, skipTrivia, ← hopened] using hp
    exact of_decide_eq_true (List.all_eq_true.1 hleaves least' hleast')
  obtain ⟨more, hmore, hclimb⟩ := hvalue fuel frames before _ hnext (by omega)
  obtain ⟨n, rfl⟩ : ∃ n, more = n + 1 := ⟨more - 1, by omega⟩
  refine ⟨n, by omega, ?_⟩
  have hopening : skipTrivia ([blank].map .trivia ++ opened) = ([blank], opened) := by
    rw [skipTrivia_trivia, ← hopened]
    simp [skipTrivia]
  have hclosing : skipTrivia ([blank].map .trivia ++ after) = ([blank], after) := by
    rw [skipTrivia_trivia, ← hafter]
    simp [skipTrivia]
  have hshown : climb none n (frames + 1) (OperatorKind.ternaryPrecedence + 1)
      ([blank].map .trivia ++ (condition.pieces ++ ([blank].map .trivia ++ after))) =
        .ok (some ⟨[blank], condition.tree, [blank].map .trivia ++ after⟩) := by
    refine hcondition.climb_eq (fun p hp => ?_) (by omega)
    rw [nextPrecedence?_trivia, ← hafter] at hp
    simp [nextPrecedence?, skipTrivia] at hp
  have hend : climb none n (frames + 1) OperatorKind.ternaryPrecedence
      ([blank].map .trivia ++ (alternative.pieces ++ rest)) =
        .ok (some ⟨[blank], alternative.tree, rest⟩) :=
    halternative.climb_eq hstops (by omega)
  have hnode : assemble before .ternary ((.slot .trueValue, value.tree) ::
      leafEntries .ifKeyword [blank] (keywordTree .ifKw) ++
        entries .condition ⟨[blank], condition.tree, [blank].map .trivia ++ after⟩ ++
        leafEntries .elseKeyword [blank] (keywordTree .elseKw) ++
        entries .falseValue ⟨[blank], alternative.tree, rest⟩) rest =
        .ok ⟨before, (Expr.ternary value condition alternative).tree, rest⟩ :=
    assemble_of_declared (by simp; decide)
  rw [hpieces, hclimb, extend, hopening, ← hopened]
  simp only [if_neg (Nat.not_lt.2 hleast), hshown]
  simp only [bind, Except.bind, hclosing]
  rw [← hafter] at hnode ⊢
  simp only [hend]
  rw [hnode]

/-- An expression that needs no brackets where it stands folds into its tree. -/
theorem climbs_of_isValid (e : Expr) {assign : Bool} {least : Nat}
    (h : e.isValid assign least = true) : Climbs e least := by
  match e with
  | .primary p => exact climbs_primary p least
  | .prefixed op operand =>
    rw [Expr.isValid] at h
    exact climbs_prefixed op (climbs_of_isValid operand h) least
  | .await operand =>
    rw [Expr.isValid] at h
    exact climbs_await (climbs_of_isValid operand h) least
  | .binary op left right =>
    simp only [Expr.isValid, Bool.and_eq_true, decide_eq_true_eq] at h
    obtain ⟨⟨⟨⟨hleast, _⟩, hleft⟩, hleaves⟩, hright⟩ := h
    exact climbs_binary op hleast (climbs_of_isValid left hleft) hleaves
      (climbs_of_isValid right hright)
  | .ternary value condition alternative =>
    simp only [Expr.isValid, Bool.and_eq_true, decide_eq_true_eq] at h
    obtain ⟨⟨⟨⟨hleast, hvalue⟩, hleaves⟩, hcondition⟩, halternative⟩ := h
    exact climbs_ternary hleast (climbs_of_isValid value hvalue) hleaves
      (climbs_of_isValid condition hcondition) (climbs_of_isValid alternative halternative)

/-- The pieces of a whole expression fold into its tree and leave nothing. -/
theorem fold_pieces {assign : Bool} (h : e.isValid assign 0 = true) :
    fold none e.pieces = .ok { token := some e.tree } := by
  have hclimb : climb none (2 * e.pieces.length + 2) 0 0 (([] : List Tree).map .trivia ++
      (e.pieces ++ [])) = .ok (some ⟨[], e.tree, []⟩) :=
    (climbs_of_isValid e h).climb_eq nofun (by omega)
  rw [List.map_nil, List.nil_append, List.append_nil] at hclimb
  rw [fold, hclimb]
  rfl

end Climbed

end ScriptTree
