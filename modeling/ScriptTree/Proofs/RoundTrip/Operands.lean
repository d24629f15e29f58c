import ScriptTree.Proofs.RoundTrip.Folding
import ScriptTree.Proofs.RoundTrip.Tokens

/-!
# Reading words, operators and blanks in an expression

Each of them adds its piece to those that were read before.
-/

namespace ScriptTree

open Text (isWordStart isWordContinue isInlineSpace)

/-- A place where operators are read, and no pattern. -/
structure Context.IsPlain (ctx : Context) : Prop where
  operators : ctx.operators = true
  pattern : ctx.pattern = false

theorem Context.IsPlain.bracketed {ctx : Context} (h : ctx.IsPlain) : ctx.bracketed.IsPlain :=
  ⟨h.operators, h.pattern⟩

/-- An expression with the given pieces, the latest first, and some `if`s without an `else`. -/
def exprReader (ctx : Context) (openTernaries : Nat) (pieces : List Piece) : Reader :=
  .expression { ctx, pieces, openTernaries }

namespace ExpressionReader

@[simp]
theorem keyword?_keywordTree (word : Keyword) : (keywordTree word).keyword? = some word := rfl

/-- No point and no `not` waits for what belongs to it. -/
def IsSettled (pieces : List Piece) : Prop :=
  ∀ piece ∈ pieces, settlePiece piece = piece

variable {pieces pieces' : List Piece} {piece : Piece}

theorem isSettled_nil : IsSettled [] := nofun

theorem IsSettled.cons (h : IsSettled pieces) (hpiece : settlePiece piece = piece) :
    IsSettled (piece :: pieces) :=
  List.forall_mem_cons.2 ⟨hpiece, h⟩

theorem IsSettled.settle_eq (h : IsSettled pieces) : settle pieces = pieces :=
  (List.map_congr_left (g := id) h).trans (List.map_id pieces)

theorem IsSettled.awaitsMember_eq (h : IsSettled pieces) : awaitsMember pieces = false := by
  induction pieces with
  | nil => rfl
  | cons piece pieces ih =>
    obtain ⟨hpiece, hrest⟩ := List.forall_mem_cons.1 h
    cases piece with
    | trivia t => exact ih hrest
    | point t => cases hpiece
    | _ => rfl

theorem IsSettled.awaitsIn_eq (h : IsSettled pieces) : awaitsIn pieces = false := by
  induction pieces with
  | nil => rfl
  | cons piece pieces ih =>
    obtain ⟨hpiece, hrest⟩ := List.forall_mem_cons.1 h
    cases piece with
    | trivia t => exact ih hrest
    | negation t => cases hpiece
    | _ => rfl

/-- A `not` that waits comes after every point. -/
theorem awaitsMember_of_awaitsIn (h : awaitsIn pieces = true) : awaitsMember pieces = false := by
  induction pieces with
  | nil => rfl
  | cons piece pieces ih =>
    cases piece with
    | trivia t => exact ih h
    | negation t => rfl
    | _ => cases h

variable {config : Config} {ctx : Context} {k k' : Nat} {c : Char} {r r' : ExpressionReader}
  {goal : ExpressionGoal} {token : Tree} {below : List Reader}

/-- Trivia inside an expression. -/
theorem onSignal_blank (hc : isInlineSpace c = true) :
    (exprReader ctx k pieces).onSignal config (.char c) =
      .ok ⟨exprReader ctx k pieces, .enter (.leaf (.blank .space "")), {}⟩ := by
  simp [exprReader, Reader.onSignal, onSignal, TriviaStart.at?_blank _ hc]
  rfl

/-- A character that is no trivia, where nothing waits for what belongs to it. -/
theorem onSignal_char (h : IsSettled pieces) (hc : isInlineSpace c = false) :
    (exprReader ctx k pieces).onSignal config (.char c) =
      .ok ((if expectsOperand pieces then
        onOperandChar { ctx, pieces, openTernaries := k } c
      else onOperatorChar { ctx, pieces, openTernaries := k } c).map .expression) := by
  simp [exprReader, Reader.onSignal, onSignal, TriviaStart.at?_char _ hc, onChar,
    h.awaitsMember_eq, h.awaitsIn_eq, h.settle_eq]

/-- What a state inside read goes where the state was opened for. -/
theorem onDelivery_of_onToken
    (h : ({ ctx, pieces, openTernaries := k } : ExpressionReader).onToken goal token =
      .ok { state := { ctx, pieces := pieces', openTernaries := k' } }) :
    (Reader.expression { ctx, pieces, goal, openTernaries := k }).onDelivery
      { token := some token } = .ok { state := exprReader ctx k' pieces' } := by
  simp only [Reader.onDelivery, onDelivery, pushTrivia, List.foldl_nil, onToken?, h]
  rfl

/-- A blank is trivia. -/
theorem reaches_blank (hconfig : config.IsUnlimited) :
    Automaton.Reaches config Signal.EndsBlank (.ofStack (exprReader ctx k pieces :: below)) [' ']
      (.ofStack (exprReader ctx k (.trivia blank :: pieces) :: below)) :=
  Automaton.reaches_blank hconfig (onSignal_blank (by decide)) rfl

/-- A word begins where an operand or an operator does, or after a `not` that waits. -/
theorem onSignal_word (hctx : ctx.IsPlain) (hpieces : awaitsIn pieces = true ∨ IsSettled pieces)
    (hc : isWordStart c = true) :
    (exprReader ctx k pieces).onSignal config (.char c) =
      .ok ⟨.expression { ctx, pieces, goal := .word, openTernaries := k },
        .enter (.leaf (.word "")), {}⟩ := by
  have hblank : isInlineSpace c = false := Text.isInlineSpace_of_isWordStart hc
  rcases hpieces with hawaits | hsettled
  · simp [exprReader, Reader.onSignal, onSignal, TriviaStart.at?_char _ hblank, onChar,
      awaitsMember_of_awaitsIn hawaits, hawaits, hc, enter, Reaction.map]
  · have hne : c ≠ '.' ∧ c ≠ '[' ∧ c ≠ '(' := by
      refine ⟨?_, ?_, ?_⟩ <;> rintro rfl <;> exact absurd hc (by decide)
    rw [onSignal_char hsettled hblank]
    split <;>
      simp [onOperandChar, onOperatorChar, hc, hne, hctx.operators, enter, Reaction.map]

/-- A word does what its leaf does. -/
theorem reaches_word (hconfig : config.IsUnlimited) (hctx : ctx.IsPlain)
    (hpieces : awaitsIn pieces = true ∨ IsSettled pieces) {w : String}
    (hw : Text.isWord w.toList = true)
    (hword : ({ ctx, pieces, openTernaries := k } : ExpressionReader).onWord (wordTree w) =
      .ok { state := { ctx, pieces := pieces', openTernaries := k' } }) :
    Automaton.Reaches config Signal.EndsWord (.ofStack (exprReader ctx k pieces :: below)) w.toList
      (.ofStack (exprReader ctx k' pieces' :: below)) := by
  obtain ⟨c, cs, hlist, hc⟩ := Text.exists_cons_of_isWord hw
  obtain ⟨htrivia, hinvalid, hpoint⟩ := wordTree_leafKind? w
  refine (Automaton.spells_word hw).reaches hconfig hlist (onSignal_word hctx hpieces hc)
    (.of_onDelivery (Reader.finish_leaf_of_token? (LeafReader.token?_word w) config)
      (onDelivery_of_onToken ?_))
  simpa [onToken, htrivia, hinvalid, hpoint] using hword

/-- Only a point begins another leaf in a pattern. -/
theorem leafBegunBy?_of_ne_point (ctx : Context) (hpoint : c ≠ '.') :
    leafBegunBy? ctx c = leafBegunBy? (.value 0) c := by
  simp [leafBegunBy?, hpoint]

/-- A symbol begins an operator after an operand, and before one if it denotes one there. -/
theorem onSignal_symbol (hctx : ctx.IsPlain) (hsettled : IsSettled pieces) {s : String}
    {cs : List Char} (hs : s ∈ OperatorKind.symbols) (hlist : s.toList = c :: cs)
    (hplace : expectsOperand pieces = true → (OperatorKind.unary? s).isSome) :
    (exprReader ctx k pieces).onSignal config (.char c) =
      .ok ⟨.expression { ctx, pieces, goal := .operator, openTernaries := k },
        .enter (.leaf (.operator "")), {}⟩ := by
  have hsymbols : ∀ symbol ∈ OperatorKind.symbols, ∀ c ∈ symbol.toList.head?,
      isInlineSpace c = false ∧ isWordStart c = false ∧ OperatorKind.canStart c = true ∧
        c ≠ '.' ∧ c ≠ '[' ∧ c ≠ '(' := by decide
  have hunary : ∀ symbol ∈ OperatorKind.symbols, (OperatorKind.unary? symbol).isSome →
      ∀ c ∈ symbol.toList.head?, leafBegunBy? (.value 0) c = none ∧ groupOpenedBy? c = none := by
    decide
  have hhead : c ∈ s.toList.head? := by simp [hlist]
  obtain ⟨hblank, hword, hstart, hpoint, hbracket, hparen⟩ := hsymbols s hs c hhead
  rw [onSignal_char hsettled hblank]
  split
  · rename_i hoperand
    obtain ⟨hleaf, hgroup⟩ := hunary s hs (hplace hoperand) c hhead
    rw [← leafBegunBy?_of_ne_point ctx hpoint] at hleaf
    simp [onOperandChar, hword, hctx.operators, hleaf, hgroup, hstart, enter, Reaction.map]
  · simp [onOperatorChar, hword, hctx.operators, hstart, hpoint, hbracket, hparen, enter,
      Reaction.map]

/-- A symbol does what its leaf does. -/
theorem reaches_symbol (hconfig : config.IsUnlimited) (hctx : ctx.IsPlain)
    (hsettled : IsSettled pieces) {s : String} (hs : s ∈ OperatorKind.symbols)
    (hplace : expectsOperand pieces = true → (OperatorKind.unary? s).isSome)
    (hop : ({ ctx, pieces, openTernaries := k } : ExpressionReader).onOperator
        (.ofText (LeafReader.operatorLeafKind s) s) =
      { ctx, pieces := pieces', openTernaries := k }) :
    Automaton.Reaches config Signal.IsBlank (.ofStack (exprReader ctx k pieces :: below)) s.toList
      (.ofStack (exprReader ctx k pieces' :: below)) := by
  have hnonempty : ∀ symbol ∈ OperatorKind.symbols, symbol.toList ≠ [] := by decide
  obtain ⟨c, cs, hlist⟩ := List.exists_cons_of_ne_nil (hnonempty s hs)
  obtain ⟨op, hdenotes⟩ := Option.isSome_iff_exists.1 (OperatorKind.ofSymbol?_isSome_of_mem hs)
  have hkind : LeafReader.operatorLeafKind s = .operator op := by
    rw [LeafReader.operatorLeafKind, hdenotes]
  refine (Automaton.spells_operator hs).reaches hconfig hlist
    (onSignal_symbol hctx hsettled hs hlist hplace)
    (.of_onDelivery (Reader.finish_leaf_of_token? rfl config) (onDelivery_of_onToken ?_))
  rw [hkind] at hop ⊢
  rw [← hop]
  rfl

end ExpressionReader

/-- An operator between operands is a symbol or a reserved word. -/
theorem OperatorKind.binary?_eq_some {text : String} {op : OperatorKind}
    (h : binary? text = some op) :
    text ∈ symbols ∨ ∃ word : Keyword, text = word.spelling ∧
      ExpressionReader.binaryWord? word = some op := by
  unfold binary? at h
  split at h <;> cases h <;>
    first
    | exact .inl (by decide)
    | exact .inr ⟨.asKw, rfl, rfl⟩
    | exact .inr ⟨.orKw, rfl, rfl⟩
    | exact .inr ⟨.andKw, rfl, rfl⟩
    | exact .inr ⟨.inKw, rfl, rfl⟩
    | exact .inr ⟨.isKw, rfl, rfl⟩

/-- An operator before an operand is a symbol or `not`. -/
theorem OperatorKind.unary?_eq_some {text : String} {op : OperatorKind}
    (h : unary? text = some op) :
    text ∈ symbols ∨ text = Keyword.notKw.spelling ∧ op = .not := by
  unfold unary? at h
  split at h <;> cases h <;>
    first
    | exact .inl (by decide)
    | exact .inr ⟨rfl, rfl⟩

namespace ExpressionReader

variable {config : Config} {ctx : Context} {k : Nat} {pieces : List Piece} {below : List Reader}
  {word : Keyword} {t : Tree}

/-- A word where an operand may begin. -/
theorem onWord_of_expectsOperand (hsettled : IsSettled pieces)
    (hoperand : expectsOperand pieces = true) :
    ({ ctx, pieces, openTernaries := k } : ExpressionReader).onWord t =
      onOperandWord { ctx, pieces, openTernaries := k } t := by
  simp [onWord, hsettled.awaitsIn_eq, hoperand]

/-- A word after an operand. -/
theorem onWord_of_operand (hsettled : IsSettled pieces) (hoperand : expectsOperand pieces = false) :
    ({ ctx, pieces, openTernaries := k } : ExpressionReader).onWord t =
      .ok { state := onOperatorWord { ctx, pieces, openTernaries := k } t } := by
  simp [onWord, hsettled.awaitsIn_eq, hoperand]
  rfl

/-- A reserved word does what its leaf does. -/
theorem reaches_keyword (hconfig : config.IsUnlimited) (hctx : ctx.IsPlain)
    (hpieces : awaitsIn pieces = true ∨ IsSettled pieces) {pieces' : List Piece} {k' : Nat}
    (hword : ({ ctx, pieces, openTernaries := k } : ExpressionReader).onWord (keywordTree word) =
      .ok { state := { ctx, pieces := pieces', openTernaries := k' } }) :
    Automaton.Reaches config Signal.EndsWord (.ofStack (exprReader ctx k pieces :: below))
      word.spelling.toList (.ofStack (exprReader ctx k' pieces' :: below)) := by
  rw [keywordTree, ← wordTree_spelling] at hword
  exact reaches_word hconfig hctx hpieces word.isWord_spelling hword

/-- An operator before an operand. -/
theorem reaches_prefix (hconfig : config.IsUnlimited) (hctx : ctx.IsPlain)
    (hsettled : IsSettled pieces) (hoperand : expectsOperand pieces = true) (op : PrefixOperator) :
    Automaton.Reaches config Signal.IsBlank (.ofStack (exprReader ctx k pieces :: below))
      op.text.toList
      (.ofStack (exprReader ctx k (.operation (.unary op.kind) op.token :: pieces) :: below)) := by
  obtain ⟨text, kind, hdenotes⟩ := op
  rcases OperatorKind.unary?_eq_some hdenotes with hsymbol | ⟨rfl, rfl⟩
  · refine reaches_symbol hconfig hctx hsettled hsymbol (fun _ => by rw [hdenotes]; rfl) ?_
    simp [onOperator, hoperand, Tree.leafText?, Tree.ofText, hdenotes]
    rfl
  · refine (reaches_keyword hconfig hctx (.inr hsettled) ?_).mono Signal.endsWord_of_isBlank
    rw [onWord_of_expectsOperand hsettled hoperand]
    simp [onOperandWord, hctx.operators]
    rfl

/-- Where nothing waits for `in`, no operator is made with it. -/
theorem IsSettled.map_joinIn (h : IsSettled pieces) : pieces.map joinIn = pieces := by
  refine (List.map_congr_left fun piece hpiece => ?_).trans (List.map_id pieces)
  cases piece with
  | negation t => cases h _ hpiece
  | _ => rfl

/-- A `not` between operands waits for `in`, which makes one operator of both. -/
theorem reaches_notIn (hconfig : config.IsUnlimited) (hctx : ctx.IsPlain)
    (hsettled : IsSettled pieces) (hoperator : expectsOperand pieces = false) :
    Automaton.Reaches config Signal.EndsWord (.ofStack (exprReader ctx k pieces :: below))
      "not in".toList
      (.ofStack (exprReader ctx k (.trivia (keywordTree .inKw) :: .trivia blank ::
        .operation (.binary .notContainedIn) InfixOperator.notIn.token :: pieces) :: below)) := by
  have hnot : Automaton.Reaches config Signal.EndsWord (.ofStack (exprReader ctx k pieces :: below))
      Keyword.notKw.spelling.toList
      (.ofStack (exprReader ctx k (.negation (keywordTree .notKw) :: pieces) :: below)) := by
    refine reaches_keyword hconfig hctx (.inr hsettled) ?_
    rw [onWord_of_operand hsettled hoperator]
    simp [onOperatorWord, hctx.operators, binaryWord?]
    rfl
  have hin : Automaton.Reaches config Signal.EndsWord
      (.ofStack (exprReader ctx k (.trivia blank :: .negation (keywordTree .notKw) :: pieces) ::
        below)) Keyword.inKw.spelling.toList
      (.ofStack (exprReader ctx k (.trivia (keywordTree .inKw) :: .trivia blank ::
        .operation (.binary .notContainedIn) InfixOperator.notIn.token :: pieces) :: below)) := by
    refine reaches_keyword hconfig hctx (.inl rfl) ?_
    simp [onWord, awaitsIn, joinIn, hsettled.map_joinIn]
    rfl
  have hrest := (reaches_blank hconfig).trans hin (Automaton.begins_word (by decide))
  exact hnot.trans hrest ((Automaton.begins_blank _).mono Signal.endsWord_of_isBlank)

/-- An operator between operands, and the blank after it. -/
theorem reaches_infix (hconfig : config.IsUnlimited) (hctx : ctx.IsPlain)
    (hsettled : IsSettled pieces) (hoperator : expectsOperand pieces = false) (op : InfixOperator)
    (hassign : op.kind.isAssignment = true → ctx.assign = true) :
    Automaton.Reaches config Signal.EndsBlank (.ofStack (exprReader ctx k pieces :: below))
      (op.chars ++ [' '])
      (.ofStack (exprReader ctx k ((op.after.map .trivia).reverse ++
        .operation (.binary op.kind) op.token :: pieces) :: below)) := by
  cases op with
  | notIn =>
    exact (reaches_notIn hconfig hctx hsettled hoperator).trans (reaches_blank hconfig)
      ((Automaton.begins_blank []).mono Signal.endsWord_of_isBlank)
  | spelled text kind hdenotes =>
    suffices hop : Automaton.Reaches config Signal.IsBlank
        (.ofStack (exprReader ctx k pieces :: below)) text.toList
        (.ofStack (exprReader ctx k (.operation (.binary kind) (.ofText (.operator kind) text) ::
          pieces) :: below)) from
      hop.trans (reaches_blank hconfig) (Automaton.begins_blank [])
    rcases OperatorKind.binary?_eq_some hdenotes with hsymbol | ⟨word, rfl, hword⟩
    · refine reaches_symbol hconfig hctx hsettled hsymbol (by simp [hoperator]) ?_
      have hallowed : (kind.isAssignment && !ctx.assign) = false := by
        cases hkind : kind.isAssignment with
        | false => rfl
        | true => simp [hassign hkind]
      simp [onOperator, hoperator, Tree.leafText?, Tree.ofText, hdenotes, hallowed,
        LeafReader.operatorLeafKind, OperatorKind.ofSymbol?]
      rfl
    · refine (reaches_keyword hconfig hctx (.inr hsettled) ?_).mono Signal.endsWord_of_isBlank
      rw [onWord_of_operand hsettled hoperator]
      simp [onOperatorWord, hctx.operators, hword]
      rfl

/-- `await` stands before an operand. -/
theorem reaches_await (hconfig : config.IsUnlimited) (hctx : ctx.IsPlain)
    (hsettled : IsSettled pieces) (hoperand : expectsOperand pieces = true) :
    Automaton.Reaches config Signal.EndsWord (.ofStack (exprReader ctx k pieces :: below))
      Keyword.awaitKw.spelling.toList
      (.ofStack (exprReader ctx k (.operation .await (keywordTree .awaitKw) :: pieces) ::
        below)) := by
  refine reaches_keyword hconfig hctx (.inr hsettled) ?_
  rw [onWord_of_expectsOperand hsettled hoperand]
  simp [onOperandWord, hctx.operators]
  rfl

/-- `if` after an operand waits for an `else`. -/
theorem reaches_if (hconfig : config.IsUnlimited) (hctx : ctx.IsPlain)
    (hsettled : IsSettled pieces) (hoperator : expectsOperand pieces = false) :
    Automaton.Reaches config Signal.EndsWord (.ofStack (exprReader ctx k pieces :: below))
      Keyword.ifKw.spelling.toList
      (.ofStack (exprReader ctx (k + 1) (.operation .ternaryIf (keywordTree .ifKw) :: pieces) ::
        below)) := by
  refine reaches_keyword hconfig hctx (.inr hsettled) ?_
  rw [onWord_of_operand hsettled hoperator]
  simp [onOperatorWord, hctx.operators, hctx.pattern, binaryWord?, push]

/-- `else` after an operand belongs to the latest `if` that waits for one. -/
theorem reaches_else (hconfig : config.IsUnlimited) (hctx : ctx.IsPlain)
    (hsettled : IsSettled pieces) (hoperator : expectsOperand pieces = false) :
    Automaton.Reaches config Signal.EndsWord (.ofStack (exprReader ctx (k + 1) pieces :: below))
      Keyword.elseKw.spelling.toList
      (.ofStack (exprReader ctx k (.operation .ternaryElse (keywordTree .elseKw) :: pieces) ::
        below)) := by
  refine reaches_keyword hconfig hctx (.inr hsettled) ?_
  rw [onWord_of_operand hsettled hoperator]
  simp [onOperatorWord, hctx.operators, binaryWord?, push]

end ExpressionReader

end ScriptTree
