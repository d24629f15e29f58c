import ScriptTree.Proofs.Endings.States

/-!
# Expressions stay neat

An operator and its operands become a node that ends with the last of them, so that precedence
climbing leaves no trivia at the end of a node. A postfix form ends with its tail.
-/

namespace ScriptTree

namespace Piece

variable {t : Tree}

theorem neat_trivia (ht : t.Trimmed) : Piece.Neat (.trivia t) :=
  ⟨ht, fun h => absurd rfl (h t)⟩

theorem neat_operand (ht : t.Trimmed) (hplaced : t.isTrivia = false) : Piece.Neat (.operand t) :=
  ⟨ht, fun _ => hplaced⟩

theorem neat_operation (op : Operation) (ht : t.Trimmed) (hplaced : t.isTrivia = false) :
    Piece.Neat (.operation op t) :=
  ⟨ht, fun _ => hplaced⟩

theorem Neat.operand (h : Piece.Neat (.operand t)) : t.Trimmed ∧ t.isTrivia = false :=
  ⟨h.trimmed, h.placed fun _ => by simp⟩

theorem Neat.operation {op : Operation} (h : Piece.Neat (.operation op t)) :
    t.Trimmed ∧ t.isTrivia = false :=
  ⟨h.trimmed, h.placed fun _ => by simp⟩

end Piece

/-! ### Precedence climbing -/

namespace Climbed

variable {max? : Option Nat} {fuel frames least : Nat} {pieces rest : List Piece}
  {gap : List Tree} {token : Tree} {left c : Climbed} {slot : Slot} {form : List Entry}
  {kind : NodeKind}

/-- An operand that may fill a slot, with neat pieces around it. -/
structure Neat (c : Climbed) : Prop where
  before : ∀ t ∈ c.before, t.Trimmed
  token : c.token.Trimmed
  placed : c.token.isTrivia = false
  rest : ∀ piece ∈ c.rest, piece.Neat

/-- The trivia at the beginning of neat pieces are trimmed, and the others are neat. -/
theorem neat_of_skipTrivia (h : ∀ piece ∈ pieces, piece.Neat)
    (hskip : skipTrivia pieces = (gap, rest)) :
    (∀ t ∈ gap, t.Trimmed) ∧ ∀ piece ∈ rest, piece.Neat := by
  rw [eq_of_skipTrivia hskip] at h
  exact ⟨fun t ht => (h (.trivia t) (List.mem_append_left _ (List.mem_map_of_mem ht))).trimmed,
    fun piece hpiece => h piece (List.mem_append_right _ hpiece)⟩

/-- A leaf with the trivia before it. -/
theorem neat_leafEntries (hgap : ∀ t ∈ gap, t.Trimmed) (ht : token.Trimmed)
    (hplaced : token.isTrivia = false) : Form.Neat (leafEntries slot gap token) :=
  Form.neat_append.2 ⟨Form.neat_extras.2 hgap, Form.neat_singleton ht fun _ => hplaced⟩

/-- An operand with the trivia before it. -/
theorem Neat.entries (h : c.Neat) (slot : Slot) : Form.Neat (c.entries slot) :=
  neat_leafEntries h.before h.token h.placed

theorem endsPlaced_leafEntries (form : List Entry) :
    Form.EndsPlaced (form ++ leafEntries slot gap token) := by
  rw [leafEntries, ← List.append_assoc]
  exact Form.endsPlaced_append_singleton _ (by simp)

theorem endsPlaced_entries (form : List Entry) (c : Climbed) :
    Form.EndsPlaced (form ++ c.entries slot) :=
  endsPlaced_leafEntries form

/-- An operand of neat children of which the last has a place. -/
theorem assemble_neat {before : List Tree} (hbefore : ∀ t ∈ before, t.Trimmed)
    (hform : Form.Neat form) (hends : Form.EndsPlaced form) (hkind : kind ≠ .ifStatement)
    (hrest : ∀ piece ∈ rest, piece.Neat) :
    Promises (assemble before kind form rest) Neat := by
  have hnode : Promises (Tree.assemble kind form) (· = .ofForm kind form) :=
    (promises_true _).bind fun _ _ => promises_pure.2 rfl
  refine hnode.mapError.bind fun t ht => promises_pure.2 ?_
  subst ht
  exact ⟨hbefore, hform.trimmed_node hends (fun h => absurd h hkind) _, rfl, hrest⟩

/-- A piece that no operand took is trimmed. -/
theorem trimmed_leftover {piece : Piece} (h : piece.Neat) : (leftover piece).Trimmed := by
  cases piece with
  | operation op token => exact h.trimmed.invalidated
  | _ => exact h.trimmed

/-- Climbing makes neat operands of neat pieces. -/
def ClimbNeat (max? : Option Nat) (fuel : Nat) : Prop :=
  ∀ {frames least pieces}, (∀ piece ∈ pieces, piece.Neat) →
    Promises (climb max? fuel frames least pieces) fun c? => ∀ c ∈ c?, c.Neat

/-- So does reading a single operand. -/
def PrimaryNeat (max? : Option Nat) (fuel : Nat) : Prop :=
  ∀ {frames pieces}, (∀ piece ∈ pieces, piece.Neat) →
    Promises (primary max? fuel frames pieces) fun c? => ∀ c ∈ c?, c.Neat

/-- So does going on with an operand. -/
def ExtendNeat (max? : Option Nat) (fuel : Nat) : Prop :=
  ∀ {frames least left}, left.Neat → Promises (extend max? fuel frames least left) Neat

/-- An operator before its operand takes it. -/
theorem prefixed_neat {before : List Tree} (hclimb : ClimbNeat max? fuel)
    (hbefore : ∀ t ∈ before, t.Trimmed) (ht : token.Trimmed) (hplaced : token.isTrivia = false)
    {first last : Slot} (hkind : kind ≠ .ifStatement) (hrest : ∀ piece ∈ rest, piece.Neat) :
    Promises (do
      match ← climb max? fuel frames least rest with
      | none => return none
      | some operand =>
        let form := (.slot first, token) :: operand.entries last
        return some (← assemble before kind form operand.rest))
      fun c? => ∀ c ∈ c?, c.Neat := by
  refine (hclimb hrest).bind fun result hresult => ?_
  cases result with
  | none => exact promises_pure.2 (by simp)
  | some operand =>
    have hoperand := hresult operand rfl
    have hform : Form.Neat ((.slot first, token) :: operand.entries last) :=
      Form.neat_cons.2 ⟨⟨ht, fun _ => hplaced⟩, hoperand.entries last⟩
    refine (assemble_neat hbefore hform (endsPlaced_entries [(.slot first, token)] operand) hkind
      hoperand.rest).bind fun c hc => promises_pure.2 ?_
    simpa using hc

/-- A single operand is neat. -/
theorem primary_neat (hclimb : ClimbNeat max? fuel) : PrimaryNeat max? (fuel + 1) := by
  intro frames pieces hpieces
  rcases hskip : skipTrivia pieces with ⟨before, more⟩
  obtain ⟨hbefore, hmore⟩ := neat_of_skipTrivia hpieces hskip
  rw [primary, hskip]
  cases more with
  | nil => exact promises_ok.2 (by simp)
  | cons piece rest =>
    obtain ⟨hpiece, hrest⟩ := List.forall_mem_cons.1 hmore
    cases piece with
    | operand token =>
      refine promises_ok.2 fun c hc => ?_
      obtain rfl := Option.mem_some_iff.1 hc
      exact ⟨hbefore, hpiece.operand.1, hpiece.operand.2, hrest⟩
    | operation op token =>
      obtain ⟨ht, hplaced⟩ := hpiece.operation
      cases op with
      | unary op => exact prefixed_neat hclimb hbefore ht hplaced (by simp) hrest
      | await => exact prefixed_neat hclimb hbefore ht hplaced (by simp) hrest
      | binary | ternaryIf | ternaryElse => exact promises_ok.2 (by simp)
    | trivia | point | negation => exact promises_ok.2 (by simp)

/-- An operator between two operands takes both. -/
theorem extend_binary_neat (hclimb : ClimbNeat max? fuel) (hextend : ExtendNeat max? fuel)
    (h : left.Neat) {op : OperatorKind}
    (hskip : skipTrivia left.rest = (gap, .operation (.binary op) token :: rest)) :
    Promises (extend max? (fuel + 1) frames least left) Neat := by
  obtain ⟨hgap, hmore⟩ := neat_of_skipTrivia h.rest hskip
  obtain ⟨htoken, hrest⟩ := List.forall_mem_cons.1 hmore
  obtain ⟨ht, hplaced⟩ := htoken.operation
  rw [extend, hskip]
  dsimp only
  split
  · exact promises_ok.2 h
  · split
    · exact promises_ok.2 h
    · refine (hclimb hrest).bind fun result hresult => ?_
      cases result with
      | none => exact promises_pure.2 h
      | some right =>
        have hright := hresult right rfl
        have hform : Form.Neat ((.slot .left, left.token) :: leafEntries .operator gap token ++
            right.entries .right) :=
          Form.neat_append.2 ⟨Form.neat_cons.2 ⟨⟨h.token, fun _ => h.placed⟩,
            neat_leafEntries hgap ht hplaced⟩, hright.entries .right⟩
        exact (assemble_neat h.before hform (endsPlaced_entries _ right) (by simp)
          hright.rest).bind fun c hc => hextend hc

/-- A ternary takes the operand before it, and what comes of its other two operands. -/
theorem extend_ternary_neat (hclimb : ClimbNeat max? fuel) (hextend : ExtendNeat max? fuel)
    (h : left.Neat)
    (hskip : skipTrivia left.rest = (gap, .operation .ternaryIf token :: rest)) :
    Promises (extend max? (fuel + 1) frames least left) Neat := by
  obtain ⟨hgap, hmore⟩ := neat_of_skipTrivia h.rest hskip
  obtain ⟨htoken, hrest⟩ := List.forall_mem_cons.1 hmore
  obtain ⟨ht, hplaced⟩ := htoken.operation
  have hopening {token : Tree} (ht : token.Trimmed) (hplaced : token.isTrivia = false) :
      Form.Neat ((.slot .trueValue, left.token) :: leafEntries .ifKeyword gap token) :=
    Form.neat_cons.2 ⟨⟨h.token, fun _ => h.placed⟩, neat_leafEntries hgap ht hplaced⟩
  have hlost := hopening ht.invalidated (Tree.isTrivia_withLeafKind rfl token)
  have hternary {form : List Entry} {rest : List Piece} (hform : Form.Neat form)
      (hends : Form.EndsPlaced form) (hrest : ∀ piece ∈ rest, piece.Neat) :
      Promises (assemble left.before .ternary form rest >>= extend max? fuel frames least) Neat :=
    (assemble_neat h.before hform hends (by simp) hrest).bind fun c hc => hextend hc
  rw [extend, hskip]
  dsimp only
  split
  · exact promises_ok.2 h
  · refine (hclimb hrest).bind fun result hresult => ?_
    cases result with
    | none => exact hternary hlost (endsPlaced_leafEntries [(.slot .trueValue, left.token)]) hrest
    | some condition =>
      have hcondition := hresult condition rfl
      have hshown := hcondition.entries .condition
      dsimp only
      split
      · rename_i elseGap elseToken elseRest helse
        obtain ⟨helseGap, helseMore⟩ := neat_of_skipTrivia hcondition.rest helse
        obtain ⟨helseToken, helseRest⟩ := List.forall_mem_cons.1 helseMore
        obtain ⟨helseTrimmed, helsePlaced⟩ := helseToken.operation
        refine (hclimb helseRest).bind fun result hresult => ?_
        cases result with
        | none =>
          exact hternary (Form.neat_append.2 ⟨Form.neat_append.2 ⟨hlost, hshown⟩,
            neat_leafEntries helseGap helseTrimmed.invalidated
              (Tree.isTrivia_withLeafKind rfl elseToken)⟩) (endsPlaced_leafEntries _) helseRest
        | some value =>
          have hvalue := hresult value rfl
          exact hternary (Form.neat_append.2 ⟨Form.neat_append.2 ⟨Form.neat_append.2
            ⟨hopening ht hplaced, hshown⟩, neat_leafEntries helseGap helseTrimmed helsePlaced⟩,
            hvalue.entries .falseValue⟩) (endsPlaced_entries _ value) hvalue.rest
      · exact hternary (Form.neat_append.2 ⟨hlost, hshown⟩) (endsPlaced_entries _ condition)
          hcondition.rest

/-- Going on with an operand keeps it neat. -/
theorem extend_neat (hclimb : ClimbNeat max? fuel) (hextend : ExtendNeat max? fuel) :
    ExtendNeat max? (fuel + 1) := by
  intro frames least left h
  rcases hskip : skipTrivia left.rest with ⟨gap, pieces⟩
  match pieces with
  | .operation (.binary op) token :: rest => exact extend_binary_neat hclimb hextend h hskip
  | .operation .ternaryIf token :: rest => exact extend_ternary_neat hclimb hextend h hskip
  | [] | .operand _ :: _ | .trivia _ :: _ | .point _ :: _ | .negation _ :: _
  | .operation (.unary _) _ :: _ | .operation .await _ :: _
  | .operation .ternaryElse _ :: _ =>
    rw [extend, hskip]
    exact promises_ok.2 h

/-- An operand with the operators that take it is neat. -/
theorem climb_neat (hprimary : PrimaryNeat max? fuel) (hextend : ExtendNeat max? fuel) :
    ClimbNeat max? (fuel + 1) := by
  intro frames least pieces hpieces
  rw [climb]
  refine (promises_true _).bind fun _ _ => (hprimary hpieces).bind fun result hresult => ?_
  cases result with
  | none => exact promises_pure.2 (by simp)
  | some left =>
    refine (hextend (hresult left rfl)).bind fun c hc => promises_pure.2 ?_
    simpa using hc

/-- Operands are neat however they are built, by induction on the fuel. -/
theorem climbs_neat (max? : Option Nat) (fuel : Nat) :
    ClimbNeat max? fuel ∧ PrimaryNeat max? fuel ∧ ExtendNeat max? fuel := by
  induction fuel with
  | zero =>
    refine ⟨fun _ => ?_, fun _ => ?_, fun h => ?_⟩
    · rw [climb]
      exact promises_ok.2 (by simp)
    · rw [primary]
      exact promises_ok.2 (by simp)
    · rw [extend]
      exact promises_ok.2 h
  | succ fuel ih =>
    obtain ⟨hclimb, hprimary, hextend⟩ := ih
    exact ⟨climb_neat hprimary hextend, primary_neat hclimb, extend_neat hclimb hextend⟩

/-- Folding neat pieces gives a neat delivery. -/
theorem fold_neat (max? : Option Nat) (h : ∀ piece ∈ pieces, piece.Neat) :
    Promises (fold max? pieces) Delivery.Neat := by
  have hleftover {pieces : List Piece} (h : ∀ piece ∈ pieces, piece.Neat) :
      ∀ t ∈ pieces.map leftover, t.Trimmed := by
    simpa using fun piece hpiece => trimmed_leftover (h piece hpiece)
  refine ((climbs_neat max? (2 * pieces.length + 2)).1 h).bind fun result hresult => ?_
  cases result with
  | none => exact promises_pure.2 ⟨by simp, by simp, hleftover h, by simp, by simp⟩
  | some top =>
    have htop := hresult top rfl
    exact promises_pure.2
      ⟨htop.before, by simpa using htop.token, hleftover htop.rest, by simp, by simp⟩

end Climbed

/-! ### Expressions -/

namespace ExpressionReader

variable {r : ExpressionReader} {pieces : List Piece} {piece : Piece} {t word : Tree}
  {tokens : List Tree}

theorem Neat.setPieces (h : r.Neat) (hpieces : ∀ piece ∈ pieces, piece.Neat) :
    ({ r with pieces } : ExpressionReader).Neat :=
  { h with pieces := hpieces }

theorem Neat.push (h : r.Neat) (hpiece : piece.Neat) : (r.push piece).Neat :=
  h.setPieces (List.forall_mem_cons.2 ⟨hpiece, h.pieces⟩)

theorem Neat.push_trivia (h : r.Neat) (ht : t.Trimmed) : (r.push (.trivia t)).Neat :=
  h.push (Piece.neat_trivia ht)

theorem Neat.pushTrivia (h : r.Neat) (htokens : ∀ t ∈ tokens, t.Trimmed) :
    (r.pushTrivia tokens).Neat := by
  rw [pushTrivia_eq]
  refine h.setPieces fun piece hpiece => ?_
  rcases List.mem_append.1 hpiece with hpiece | hpiece
  · obtain ⟨t, ht, rfl⟩ := List.mem_map.1 (List.mem_reverse.1 hpiece)
    exact Piece.neat_trivia (htokens t ht)
  · exact h.pieces piece hpiece

theorem Neat.handBack (h : r.Neat) (ht : t.Trimmed) : (r.handBack t).Neat :=
  { h with handback := fun _ heq => Option.mem_some_iff.1 heq ▸ ht }

/-- Pieces stay neat when a function changes each of them into a neat one. -/
theorem neat_map {f : Piece → Piece} (hf : ∀ piece : Piece, piece.Neat → (f piece).Neat)
    (h : ∀ piece ∈ pieces, piece.Neat) : ∀ piece ∈ pieces.map f, piece.Neat := by
  simpa using fun piece hpiece => hf piece (h piece hpiece)

theorem neat_settlePiece (h : piece.Neat) : (settlePiece piece).Neat := by
  cases piece with
  | point t => exact Piece.neat_trivia (Tree.Trimmed.invalidated h.trimmed)
  | negation t => exact Piece.neat_trivia (Tree.Trimmed.invalidated h.trimmed)
  | _ => exact h

theorem neat_joinIn (h : piece.Neat) : (joinIn piece).Neat := by
  cases piece with
  | negation t =>
    exact Piece.neat_operation _ (Tree.Trimmed.withLeafKind h.trimmed _)
      (Tree.isTrivia_withLeafKind rfl t)
  | _ => exact h

theorem Neat.settle (h : r.Neat) : ({ r with pieces := settle r.pieces } : ExpressionReader).Neat :=
  h.setPieces (neat_map (fun _ => neat_settlePiece) h.pieces)

/-- What stands inside a postfix form is neat. -/
theorem neat_innerEntry (kind : NodeKind) {later : List Piece}
    (h : ∀ piece ∈ later, piece.Neat) : Form.Neat (later.map (innerEntry kind)) := by
  induction later with
  | nil => exact Form.neat_nil
  | cons piece rest ih =>
    obtain ⟨hpiece, hrest⟩ := List.forall_mem_cons.1 h
    rw [List.map_cons]
    cases piece with
    | point t =>
      exact Form.neat_cons.2 ⟨⟨hpiece.trimmed, fun _ => hpiece.placed fun _ => by simp⟩, ih hrest⟩
    | _ => exact Form.neat_cons.2 ⟨⟨hpiece.trimmed, fun h => absurd rfl h⟩, ih hrest⟩

/-- A postfix form ends with its tail. -/
theorem wrapOperand?_neat {kind : NodeKind} (h : ∀ piece ∈ pieces, piece.Neat)
    (hkind : kind ≠ .ifStatement) (ht : t.Trimmed) (hplaced : t.isTrivia = false)
    (targetSlot tailSlot : Slot) :
    Promises (wrapOperand? pieces kind targetSlot tailSlot t) fun pieces? =>
      ∀ pieces ∈ pieces?, ∀ piece ∈ pieces, piece.Neat := by
  unfold wrapOperand?
  split
  · exact promises_ok.2 (by simp)
  · rename_i later target earlier hsplit
    rw [eq_of_splitOperand? hsplit] at h
    obtain ⟨hlater, hmore⟩ := List.forall_mem_append.1 h
    obtain ⟨htarget, hearlier⟩ := List.forall_mem_cons.1 hmore
    obtain ⟨htrimmed, htargetPlaced⟩ := htarget.operand
    have hinner : Form.Neat (later.reverse.map (innerEntry kind)) :=
      neat_innerEntry kind fun piece hpiece => hlater piece (List.mem_reverse.1 hpiece)
    have hform : Form.Neat ((.slot targetSlot, target) :: later.reverse.map (innerEntry kind) ++
        [(.slot tailSlot, t)]) :=
      Form.neat_append.2 ⟨Form.neat_cons.2 ⟨⟨htrimmed, fun _ => htargetPlaced⟩, hinner⟩,
        Form.neat_singleton ht fun _ => hplaced⟩
    have hnode : Promises (Tree.assemble kind ((.slot targetSlot, target) ::
        later.reverse.map (innerEntry kind) ++ [(.slot tailSlot, t)]))
        fun t => t.Trimmed ∧ t.isTrivia = false :=
      (promises_true _).bind fun _ _ => promises_pure.2
        ⟨hform.trimmed_node (Form.endsPlaced_append_singleton _ (by simp))
          (fun heq => absurd heq hkind) _, rfl⟩
    refine hnode.bind fun node hnode => promises_pure.2 ?_
    simpa using ⟨Piece.neat_operand hnode.1 hnode.2, hearlier⟩

/-! ### Signals -/

/-- What a neat expression answers to a signal. -/
abbrev AnswersNeat (reaction : Reaction ExpressionReader) : Prop :=
  (reaction.map .expression).Neat

theorem Neat.answers_enter (h : r.Neat) (goal : ExpressionGoal) {inner : Reader}
    (hinner : inner.NeatInner) : AnswersNeat (r.enter goal inner) :=
  ⟨show ({ r with goal } : ExpressionReader).Neat from { h with }, fun _ heq =>
    Step.enter.inj heq ▸ hinner⟩

theorem Neat.answers_complete (h : r.Neat) : AnswersNeat r.complete :=
  ⟨h, fun _ heq => by cases heq⟩

/-- A character where an operand may begin. -/
theorem Neat.onOperandChar (h : r.Neat) (c : Char) : AnswersNeat (r.onOperandChar c) := by
  unfold ExpressionReader.onOperandChar
  split
  · exact h.answers_enter _ trivial
  · split
    · split
      · exact h.answers_enter _ trivial
      · exact h.answers_complete
    · split
      · exact h.answers_enter _ trivial
      · exact h.answers_enter _ (GroupReader.neat_start _ _)
      · split
        · exact h.answers_enter _ trivial
        · exact h.answers_complete

/-- A character after an operand. -/
theorem Neat.onOperatorChar (h : r.Neat) (c : Char) : AnswersNeat (r.onOperatorChar c) := by
  unfold ExpressionReader.onOperatorChar
  split
  · exact ⟨h.push ⟨Tree.trimmed_ofPunct .point, fun _ => rfl⟩, fun _ heq => by cases heq⟩
  · split
    · exact h.answers_enter _ (GroupReader.neat_start _ _)
    · split
      · exact h.answers_complete
      · split
        · exact h.answers_enter _ (GroupReader.neat_start _ _)
        · split
          · exact h.answers_enter _ trivial
          · split
            · exact h.answers_enter _ trivial
            · exact h.answers_complete

/-- A character that is no trivia. -/
theorem Neat.onChar (h : r.Neat) (c : Char) : AnswersNeat (r.onChar c) := by
  unfold ExpressionReader.onChar
  split
  · exact h.answers_enter _ trivial
  · split
    · exact h.answers_enter _ trivial
    · dsimp only
      split
      · exact h.settle.onOperandChar c
      · exact h.settle.onOperatorChar c

/-- Trivia that a signal makes by itself are a leaf with text. -/
theorem trimmed_of_at? {brackets : Bool} {signal : Signal}
    (h : TriviaStart.at? brackets signal = some (.token t)) : t.Trimmed := by
  have hreader : (TriviaStart.inline? signal).map TriviaStart.reader ≠ some (.token t) := by
    cases TriviaStart.inline? signal <;> simp
  cases brackets with
  | false => exact absurd h hreader
  | true =>
    cases signal with
    | newLine | carriageReturn =>
      cases h
      exact Tree.trimmed_ofText _ (by decide)
    | commentStart => cases h
    | _ => exact absurd h hreader

/-- Every signal leaves the expression neat. -/
theorem Neat.onSignal (h : r.Neat) (signal : Signal) : AnswersNeat (r.onSignal signal) := by
  unfold ExpressionReader.onSignal
  split
  · exact h.answers_complete
  · split
    · rename_i t htrivia
      exact ⟨h.push_trivia (trimmed_of_at? htrivia), fun _ heq => by cases heq⟩
    · exact h.answers_enter _ trivial
    · exact h.onChar _
    · exact h.answers_complete

/-! ### Words and operators -/

/-- What a neat expression makes of a token. -/
abbrev ContinuesNeat (receipt : Receipt ExpressionReader) : Prop :=
  (receipt.map .expression).Neat

/-- An expression that opens no state. -/
theorem Neat.continues (h : r.Neat) : ContinuesNeat { state := r } :=
  Receipt.neat_of_state h (by simp [Receipt.map])

/-- The production of an operand that begins with a keyword. -/
theorem Neat.openProduction (h : r.Neat) (kind : NodeKind) (hword : word.Trimmed)
    (hplaced : word.isTrivia = false) : Promises (r.openProduction kind word) ContinuesNeat := by
  refine (SequenceReader.afterKeyword_neat kind _ hword hplaced).bind fun inner hinner =>
    promises_pure.2 ?_
  exact Receipt.neat_of_state (show ({ r with goal := .operand } : ExpressionReader).Neat from
    { h with }) (by
      simpa [Receipt.map, Reader.NeatOpened, Reader.NeatInner, Reader.NeatOrLeaf, Reader.Neat] using
        hinner)

/-- A word where an operand may begin. -/
theorem Neat.onOperandWord (h : r.Neat) (hword : word.Trimmed) (hplaced : word.isTrivia = false) :
    Promises (r.onOperandWord word) ContinuesNeat := by
  have hoperand := (h.push (Piece.neat_operand hword hplaced)).continues
  unfold ExpressionReader.onOperandWord
  split
  · exact promises_pure.2 hoperand
  · split
    · exact promises_pure.2 hoperand
    · split
      · exact promises_pure.2 (h.push (Piece.neat_operation _ (hword.withLeafKind _)
          (Tree.isTrivia_withLeafKind rfl word))).continues
      · split
        · exact promises_pure.2 (h.push (Piece.neat_operation _ hword hplaced)).continues
        · split
          · exact h.openProduction _ hword hplaced
          · split
            · exact h.openProduction _ hword hplaced
            · exact promises_pure.2 (h.handBack hword).continues

/-- A word after an operand. -/
theorem Neat.onOperatorWord (h : r.Neat) (hword : word.Trimmed) (hplaced : word.isTrivia = false) :
    (r.onOperatorWord word).Neat := by
  have hhandBack := h.handBack hword
  unfold ExpressionReader.onOperatorWord
  split
  · exact hhandBack
  · split
    · exact hhandBack
    · split
      · exact h.push (Piece.neat_operation _ (hword.withLeafKind _)
          (Tree.isTrivia_withLeafKind rfl word))
      · split
        · exact h.push ⟨hword, fun _ => hplaced⟩
        · split
          · exact { h.push (Piece.neat_operation .ternaryIf hword hplaced) with }
          · split
            · exact { h.push (Piece.neat_operation .ternaryElse hword hplaced) with }
            · exact hhandBack

/-- A word. -/
theorem Neat.onWord (h : r.Neat) (hword : word.Trimmed) (hplaced : word.isTrivia = false) :
    Promises (r.onWord word) ContinuesNeat := by
  unfold ExpressionReader.onWord
  split
  · exact promises_pure.2 (h.setPieces (List.forall_mem_cons.2
      ⟨Piece.neat_trivia hword, neat_map (fun _ => neat_joinIn) h.pieces⟩)).continues
  · have hgivenUp :
        (if awaitsIn r.pieces then { r with pieces := ExpressionReader.settle r.pieces }
          else r).Neat := by
      split
      · exact h.settle
      · exact h
    dsimp only
    generalize (if awaitsIn r.pieces then { r with pieces := ExpressionReader.settle r.pieces }
      else r) = s at *
    split
    · exact hgivenUp.onOperandWord hword hplaced
    · exact promises_pure.2 (hgivenUp.onOperatorWord hword hplaced).continues

/-- An operator made of symbols. -/
theorem Neat.onOperator (h : r.Neat) (ht : t.Trimmed) (hplaced : t.isTrivia = false) :
    (r.onOperator t).Neat := by
  have hmisplaced := h.push_trivia ht.invalidated
  unfold ExpressionReader.onOperator
  dsimp only
  split
  · split
    · exact h.push (Piece.neat_operation _ (ht.withLeafKind _) (Tree.isTrivia_withLeafKind rfl t))
    · split
      · exact h.handBack ht
      · exact hmisplaced
  · split
    · split
      · exact h.handBack ht
      · exact h.push (Piece.neat_operation _ ht hplaced)
    · split
      · exact h.handBack ht
      · exact hmisplaced

/-! ### Deliveries -/

/-- The name of a member. -/
theorem Neat.onMember (h : r.Neat) (hword : word.Trimmed) (hplaced : word.isTrivia = false) :
    Promises (r.onMember word) Neat := by
  have hmisplaced := h.push_trivia hword.invalidated
  unfold ExpressionReader.onMember
  split
  · have hname : ∃ name, (if word.keyword?.isSome then word.withLeafKind .identifier else word) =
        name ∧ name.Trimmed ∧ name.isTrivia = false := by
      refine ⟨_, rfl, ?_⟩
      split
      · exact ⟨hword.withLeafKind _, Tree.isTrivia_withLeafKind rfl word⟩
      · exact ⟨hword, hplaced⟩
    obtain ⟨name, heq, hname, hnamePlaced⟩ := hname
    dsimp only
    rw [heq]
    refine (wrapOperand?_neat h.pieces (by simp) hname hnamePlaced .target .member).bind
      fun pieces? hpieces? => ?_
    cases pieces? with
    | none => exact promises_pure.2 hmisplaced
    | some pieces => exact promises_pure.2 (h.setPieces (hpieces? pieces rfl))
  · exact promises_pure.2 hmisplaced

/-- What follows an operand and belongs to it. -/
theorem Neat.onTail (h : r.Neat) {kind : NodeKind} (hkind : kind ≠ .ifStatement)
    (targetSlot tailSlot : Slot) (ht : t.Trimmed) (hplaced : t.isTrivia = false) :
    Promises (r.onTail kind targetSlot tailSlot t) Neat := by
  unfold ExpressionReader.onTail
  refine (wrapOperand?_neat h.pieces hkind ht hplaced targetSlot tailSlot).bind
    fun pieces? hpieces? => promises_pure.2 (h.setPieces ?_)
  cases pieces? with
  | none => exact List.forall_mem_cons.2 ⟨Piece.neat_operand ht hplaced, h.pieces⟩
  | some pieces => exact hpieces? pieces rfl

/-- The token that a state was opened for. -/
theorem Neat.onToken (h : r.Neat) (goal : ExpressionGoal) (ht : t.Trimmed) :
    Promises (r.onToken goal t) ContinuesNeat := by
  have hone {x : Except Misfit ExpressionReader} (hx : Promises x Neat) :
      Promises (do return { state := ← x }) ContinuesNeat :=
    hx.bind fun _ hr => promises_pure.2 hr.continues
  unfold ExpressionReader.onToken
  split
  · exact promises_pure.2 (h.push_trivia ht).continues
  · rename_i htrivia
    have hplaced : t.isTrivia = false := by simpa using htrivia
    split
    · exact promises_pure.2 (h.push_trivia ht.invalidated).continues
    · cases goal with
      | trivia => exact promises_pure.2 (h.push_trivia ht).continues
      | word => exact h.onWord ht hplaced
      | member => exact hone (h.onMember ht hplaced)
      | operand => exact promises_pure.2 (h.push (Piece.neat_operand ht hplaced)).continues
      | operator => exact promises_pure.2 (h.onOperator ht hplaced).continues
      | arguments => exact hone (h.onTail (by simp) .callee .arguments ht hplaced)
      | subscript => exact hone (h.onTail (by simp) .target .subscript ht hplaced)

/-- A token that a state inside could not place. -/
theorem Neat.onHandback (h : r.Neat) (ht : t.Trimmed) : Promises (r.onHandback t) ContinuesNeat := by
  unfold ExpressionReader.onHandback
  split
  · exact promises_pure.2 (h.push_trivia ht.invalidated).continues
  · split
    · rename_i hkind
      exact h.onWord ht (by simp [Tree.isTrivia, hkind, LeafKind.isTrivia])
    · rename_i hkind
      exact h.onWord ht (by simp [Tree.isTrivia, hkind, LeafKind.isTrivia])
    · exact promises_pure.2 (h.handBack ht).continues

/-- The beginning of a line that ended a state inside. -/
theorem Neat.onLine (h : r.Neat) {line : LineStart} (hline : line.Neat) : (r.onLine line).Neat := by
  unfold ExpressionReader.onLine
  split
  · split
    · rename_i indent hindent
      exact h.push_trivia ((hline indent hindent).withLeafKind _)
    · exact h
  · exact { h with line := fun _ heq => Option.mem_some_iff.1 heq ▸ hline }

/-- Every delivery leaves the expression neat. -/
theorem Neat.onDelivery (h : r.Neat) {d : Delivery} (hd : d.Neat) :
    Promises (r.onDelivery d) ContinuesNeat := by
  have hidle : ({ r with goal := .trivia } : ExpressionReader).Neat := { h with }
  have hfirst : Promises (({ r with goal := .trivia }.pushTrivia d.leading).onToken? r.goal d.token)
      ContinuesNeat := by
    cases htoken : d.token with
    | none => exact promises_ok.2 (hidle.pushTrivia hd.leading).continues
    | some t => exact (hidle.pushTrivia hd.leading).onToken _ (hd.token t htoken)
  refine hfirst.bind fun first hfirst => ?_
  have hstate : first.state.Neat := by
    cases hfirst.around with
    | neat h => exact h
  have hsecond : Promises ((first.state.pushTrivia d.trailing).onHandback? d.handback)
      ContinuesNeat := by
    cases hhandback : d.handback with
    | none => exact promises_ok.2 (hstate.pushTrivia hd.trailing).continues
    | some t => exact (hstate.pushTrivia hd.trailing).onHandback (hd.handback t hhandback)
  refine hsecond.bind fun second hsecond => promises_pure.2 ?_
  have hnext : second.state.Neat := by
    cases hsecond.around with
    | neat h => exact h
  have hlast : (second.state.onLine? d.line).Neat := by
    cases hline : d.line with
    | none => exact hnext
    | some line => exact hnext.onLine (hd.line line hline)
  refine Receipt.neat_of_state hlast fun inner hinner => ?_
  exact (List.mem_append.1 hinner).elim (hfirst.opened inner) (hsecond.opened inner)

/-- What the expression delivers. -/
theorem Neat.finish (h : r.Neat) (max? : Option Nat) : Promises (r.finish max?) Delivery.Neat := by
  refine (Climbed.fold_neat max? fun piece hpiece => ?_).bind fun folded hfolded =>
    promises_pure.2 { hfolded with handback := h.handback, line := h.line }
  exact neat_map (fun _ => neat_settlePiece) h.pieces piece (List.mem_reverse.1 hpiece)

end ExpressionReader

end ScriptTree
