import ScriptTree.Grammar.Expression
import ScriptTree.Proofs.Spellings.Folding

/-!
# Expressions of the two spellings are read alike

What an expression does next depends on the pieces that are not trivia, and on whether there are
any pieces at all, so that a carriage return before a line feed makes no difference.
-/

namespace ScriptTree

namespace Production

/-- The words that parts ask for have no white space in them. -/
theorem spelled_parts (kind : NodeKind) : Spelled (parts kind) := by
  have hwords : ∀ part ∈ parts kind, ∀ text, part.shape = .contextual text →
      text ∈ ["get", "set", "when"] := by
    cases kind <;> simp [parts, part, after]
  intro part hpart text htext
  have hword := hwords part hpart text htext
  revert hword
  simp only [List.mem_cons, List.not_mem_nil, or_false]
  rintro (rfl | rfl | rfl) <;> decide

/-- Fewer parts ask for fewer words. -/
theorem Spelled.of_subset {parts parts' : List Part} (h : Spelled parts) (hsub : parts' ⊆ parts) :
    Spelled parts' :=
  fun part hpart => h part (hsub hpart)

end Production

variable [ReaderSpelling]

/-- A production of which nothing was read is its own twin. -/
theorem SequenceReader.twin_start (kind : NodeKind) (level : Nat) (brackets : Bool) :
    (start kind level brackets).Twin (start kind level brackets) where
  kind := rfl
  form := .nil
  remaining := rfl
  spelled := Production.spelled_parts kind
  active := rfl
  activeSpelled := fun _ hactive => by cases hactive
  level := rfl
  brackets := rfl
  done := rfl
  handback := .none
  line := .none

/-- The same production begins with a keyword. -/
theorem SequenceReader.afterKeyword_twin (kind : NodeKind) (level : Nat) {word word' : Tree}
    (hword : word.Twin word') :
    Agree Twin (afterKeyword kind level word) (afterKeyword kind level word') :=
  (Form.Twin.place .nil rfl .keyword hword).bind fun _ _ hform =>
    { twin_start kind level false with
      form := hform
      remaining := rfl
      spelled := (Production.spelled_parts kind).of_subset (List.drop_subset 1 _) }

/-- A group of which nothing was read is its own twin. -/
theorem GroupReader.twin_start (kind : GroupKind) (ctx : Context) :
    (start kind ctx).Twin (start kind ctx) :=
  ⟨rfl, .nil, rfl, rfl, rfl, rfl, .none, rfl, .none, .none⟩

namespace ExpressionReader

section Pieces

variable {pieces pieces' : List Piece}

theorem expectsOperand_eq (h : Piece.LatestTwins pieces pieces') :
    expectsOperand pieces' = expectsOperand pieces := by
  induction h with
  | nil => rfl
  | cons h _ ih => cases h <;> first | rfl | exact ih
  | twice h _ ih =>
    obtain ⟨htwice, rfl, rfl, rfl⟩ := h
    exact ih

theorem awaitsMember_eq (h : Piece.LatestTwins pieces pieces') :
    awaitsMember pieces' = awaitsMember pieces := by
  induction h with
  | nil => rfl
  | cons h _ ih => cases h <;> first | rfl | exact ih
  | twice h _ ih =>
    obtain ⟨htwice, rfl, rfl, rfl⟩ := h
    exact ih

theorem awaitsIn_eq (h : Piece.LatestTwins pieces pieces') :
    awaitsIn pieces' = awaitsIn pieces := by
  induction h with
  | nil => rfl
  | cons h _ ih => cases h <;> first | rfl | exact ih
  | twice h _ ih =>
    obtain ⟨htwice, rfl, rfl, rfl⟩ := h
    exact ih

theorem settle_twins (h : Piece.LatestTwins pieces pieces') :
    Piece.LatestTwins (settle pieces) (settle pieces') := by
  refine h.map (fun piece piece' h => ?_) fun a b c h => ?_
  · cases h with
    | point ht => exact .trivia ht.invalidated
    | negation ht => exact .trivia ht.invalidated
    | operand ht => exact .operand ht
    | operation op ht => exact .operation op ht
    | trivia ht => exact .trivia ht
  · obtain ⟨htwice, rfl, rfl, rfl⟩ := h
    exact ⟨htwice, rfl, rfl, rfl⟩

theorem joinIn_twins (h : Piece.LatestTwins pieces pieces') :
    Piece.LatestTwins (pieces.map joinIn) (pieces'.map joinIn) := by
  refine h.map (fun piece piece' h => ?_) fun a b c h => ?_
  · cases h with
    | negation ht => exact .operation _ (ht.withLeafKind _)
    | point ht => exact .point ht
    | operand ht => exact .operand ht
    | operation op ht => exact .operation op ht
    | trivia ht => exact .trivia ht
  · obtain ⟨htwice, rfl, rfl, rfl⟩ := h
    exact ⟨htwice, rfl, rfl, rfl⟩

/-- The last operand is the same, and so are the pieces around it. -/
structure SplitTwin (x y : List Piece × Tree × List Piece) : Prop where
  later : Piece.LatestTwins x.1 y.1
  operand : x.2.1.Twin y.2.1
  earlier : Piece.LatestTwins x.2.2 y.2.2

theorem splitOperand?_twin (h : Piece.LatestTwins pieces pieces') :
    Option.Rel SplitTwin (splitOperand? pieces) (splitOperand? pieces') := by
  induction h with
  | nil => exact .none
  | cons h hrest ih =>
    have hlater {piece piece' : Piece} (h : piece.Twin piece')
        {x y : List Piece × Tree × List Piece} (hxy : SplitTwin x y) :
        SplitTwin (piece :: x.1, x.2.1, x.2.2) (piece' :: y.1, y.2.1, y.2.2) :=
      ⟨.cons h hxy.later, hxy.operand, hxy.earlier⟩
    cases h with
    | operand ht => exact .some ⟨.nil, ht, hrest⟩
    | operation op ht => exact ih.map fun _ _ => hlater (.operation op ht)
    | trivia ht => exact ih.map fun _ _ => hlater (.trivia ht)
    | point ht => exact ih.map fun _ _ => hlater (.point ht)
    | negation ht => exact ih.map fun _ _ => hlater (.negation ht)
  | @twice _ _ _ as bs h _ ih =>
    obtain ⟨htwice, rfl, rfl, rfl⟩ := h
    simp only [splitOperand?, Option.map_map]
    exact ih.map fun _ _ hxy => ⟨.twice ⟨htwice, rfl, rfl, rfl⟩ hxy.later, hxy.operand, hxy.earlier⟩

/-- The pieces after an operand become the same children. -/
theorem innerEntries_twin (kind : NodeKind) (h : Piece.LatestTwins pieces pieces') :
    Form.Twin (pieces.reverse.map (innerEntry kind)) (pieces'.reverse.map (innerEntry kind)) := by
  refine h.reverse.map (fun piece piece' h => ?_) fun a b c h => ?_
  · cases h with
    | operand ht => exact ⟨rfl, ht⟩
    | operation op ht => exact ⟨rfl, ht⟩
    | trivia ht => exact ⟨rfl, ht⟩
    | point ht => exact ⟨rfl, ht⟩
    | negation ht => exact ⟨rfl, ht⟩
  · obtain ⟨htwice, rfl, rfl, rfl⟩ := h
    exact ⟨htwice, rfl, rfl, rfl⟩

/-- The same postfix form is put around the last operand. -/
theorem wrapOperand?_twin (h : Piece.LatestTwins pieces pieces') (kind : NodeKind)
    (targetSlot tailSlot : Slot) {tail tail' : Tree} (htail : tail.Twin tail') :
    Agree (Option.Rel Piece.LatestTwins) (wrapOperand? pieces kind targetSlot tailSlot tail)
      (wrapOperand? pieces' kind targetSlot tailSlot tail') := by
  rw [wrapOperand?, wrapOperand?]
  rcases (splitOperand?_twin h).none_or_some with
    ⟨hnone, hnone'⟩ | ⟨⟨later, target, earlier⟩, ⟨later', target', earlier'⟩, hsome, hsome', hsplit⟩
  · rw [hnone, hnone']
    exact .none
  · rw [hsome, hsome']
    have hform : Form.Twin
        ((.slot targetSlot, target) :: later.reverse.map (innerEntry kind)
          ++ [(.slot tailSlot, tail)])
        ((.slot targetSlot, target') :: later'.reverse.map (innerEntry kind)
          ++ [(.slot tailSlot, tail')]) :=
      (Aligned.cons ⟨rfl, hsplit.operand⟩ (innerEntries_twin kind hsplit.later)).append
        (Form.twin_entry _ htail)
    exact (hform.assemble kind).bind fun _ _ ht => .some (.cons (.operand ht) hsplit.earlier)

end Pieces

variable {r r' : ExpressionReader}

/-- An expression of which nothing was read is its own twin. -/
theorem twin_start (ctx : Context) :
    ({ ctx } : ExpressionReader).Twin { ctx } :=
  ⟨rfl, .nil, rfl, rfl, rfl, .none, .none⟩

namespace Twin

theorem setGoal (h : r.Twin r') (goal : ExpressionGoal) :
    ({ r with goal } : ExpressionReader).Twin { r' with goal } :=
  { h with goal := rfl }

theorem setPieces (h : r.Twin r') {pieces pieces' : List Piece}
    (hpieces : Piece.LatestTwins pieces pieces') :
    ({ r with pieces } : ExpressionReader).Twin { r' with pieces := pieces' } :=
  { h with pieces := hpieces }

theorem push (h : r.Twin r') {piece piece' : Piece} (hpiece : piece.Twin piece') :
    (r.push piece).Twin (r'.push piece') :=
  h.setPieces (.cons hpiece h.pieces)

theorem pushTrivia (h : r.Twin r') {ts ts' : List Tree} (hts : Tree.Twins ts ts') :
    (r.pushTrivia ts).Twin (r'.pushTrivia ts') := by
  induction hts generalizing r r' with
  | nil => exact h
  | cons ht _ ih => exact ih (h.push (.trivia ht))
  | twice ht _ ih =>
    obtain ⟨htwice, rfl, rfl, rfl⟩ := ht
    exact ih (h.setPieces (.twice ⟨htwice, rfl, rfl, rfl⟩ h.pieces))

theorem handBack (h : r.Twin r') {t t' : Tree} (ht : t.Twin t') :
    (r.handBack t).Twin (r'.handBack t') :=
  { h with handback := .some ht, done := rfl }

/-! ### Signals -/

theorem enter (h : r.Twin r') (goal : ExpressionGoal) {inner inner' : Reader}
    (hinner : inner.Twin inner') :
    Reaction.Twin Twin (r.enter goal inner) (r'.enter goal inner') :=
  ⟨h.setGoal goal, .enter hinner, rfl⟩

theorem complete (h : r.Twin r') : Reaction.Twin Twin r.complete r'.complete :=
  ⟨h, .complete, rfl⟩

theorem enterWord (h : r.Twin r') (goal : ExpressionGoal) :
    Reaction.Twin Twin (r.enter goal (.leaf (.word ""))) (r'.enter goal (.leaf (.word ""))) :=
  h.enter goal (Reader.twin_leaf rfl)

theorem enterOperator (h : r.Twin r') :
    Reaction.Twin Twin (r.enter .operator (.leaf (.operator "")))
      (r'.enter .operator (.leaf (.operator ""))) :=
  h.enter .operator (Reader.twin_leaf rfl)

theorem enterString (h : r.Twin r') :
    Reaction.Twin Twin (r.enter .operand (.leaf (.string .start "")))
      (r'.enter .operand (.leaf (.string .start ""))) :=
  h.enter .operand (Reader.twin_leaf ⟨rfl, rfl⟩)

theorem enterGroup (h : r.Twin r') (goal : ExpressionGoal) (kind : GroupKind) (ctx : Context) :
    Reaction.Twin Twin (r.enter goal (.group (.start kind ctx)))
      (r'.enter goal (.group (.start kind ctx))) :=
  h.enter goal (.group (GroupReader.twin_start kind ctx))

/-- A leaf that a character begins has read nothing. -/
theorem twin_leafBegunBy? {ctx : Context} {c : Char} {leaf : LeafReader}
    (h : leafBegunBy? ctx c = some leaf) : (Reader.leaf leaf).Twin (.leaf leaf) := by
  unfold leafBegunBy? at h
  repeat' split at h
  all_goals cases h
  all_goals first | exact Reader.twin_leaf rfl | exact Reader.twin_leaf ⟨rfl, rfl⟩

theorem onOperandChar (h : r.Twin r') (c : Char) :
    Reaction.Twin Twin (r.onOperandChar c) (r'.onOperandChar c) := by
  unfold ExpressionReader.onOperandChar
  rw [h.ctx]
  split
  · exact h.enterWord .word
  · split
    · split
      · exact h.enterString
      · exact h.complete
    · split
      · rename_i leaf _ hleaf
        exact h.enter .operand (twin_leafBegunBy? hleaf)
      · exact h.enterGroup .operand _ _
      · split
        · exact h.enterOperator
        · exact h.complete

theorem onOperatorChar (h : r.Twin r') (c : Char) :
    Reaction.Twin Twin (r.onOperatorChar c) (r'.onOperatorChar c) := by
  unfold ExpressionReader.onOperatorChar
  rw [h.ctx]
  split
  · exact ⟨h.push (.point (Tree.twin_ofPunct .point)), .accept, rfl⟩
  · split
    · exact h.enterGroup .subscript _ _
    · split
      · exact h.complete
      · split
        · exact h.enterGroup .arguments _ _
        · split
          · exact h.enterWord .word
          · split
            · exact h.enterOperator
            · exact h.complete

theorem onChar (h : r.Twin r') (c : Char) : Reaction.Twin Twin (r.onChar c) (r'.onChar c) := by
  have hsettled := h.setPieces (settle_twins h.pieces)
  unfold ExpressionReader.onChar
  dsimp only
  rw [awaitsMember_eq h.pieces, awaitsIn_eq h.pieces, expectsOperand_eq hsettled.pieces]
  split
  · exact h.enterWord .member
  · split
    · exact h.enterWord .word
    · split
      · exact hsettled.onOperandChar c
      · exact hsettled.onOperatorChar c

/-- The same signal meets with the same reaction. -/
theorem onSignal (h : r.Twin r') (signal : Signal) :
    Reaction.Twin Twin (r.onSignal signal) (r'.onSignal signal) := by
  unfold ExpressionReader.onSignal
  rw [h.done, h.ctx]
  split
  · exact h.complete
  · split
    · rename_i t _
      exact ⟨h.push (.trivia (.refl t)), .accept, rfl⟩
    · rename_i leaf hleaf
      exact h.enter .trivia (TriviaStart.twin_of_at? hleaf)
    · exact h.onChar _
    · exact h.complete

/-! ### Deliveries -/

variable {word word' : Tree}

theorem openProduction (h : r.Twin r') (kind : NodeKind) (hword : word.Twin word') :
    Agree (Receipt.Twin Twin) (r.openProduction kind word) (r'.openProduction kind word') := by
  have hinner : Agree SequenceReader.Twin (SequenceReader.afterKeyword kind r.ctx.level word)
      (SequenceReader.afterKeyword kind r'.ctx.level word') := by
    rw [h.ctx]
    exact SequenceReader.afterKeyword_twin kind _ hword
  exact hinner.bind fun _ _ hinner =>
    ⟨h.setGoal .operand, .cons (.sequence hinner) .nil, rfl⟩

theorem onOperandWord (h : r.Twin r') (hword : word.Twin word') :
    Agree (Receipt.Twin Twin) (r.onOperandWord word) (r'.onOperandWord word') := by
  unfold ExpressionReader.onOperandWord
  rw [hword.keyword?_eq, h.ctx]
  split
  · exact Receipt.twin_state (h.push (.operand hword))
  · split
    · exact Receipt.twin_state (h.push (.operand hword))
    · split
      · exact Receipt.twin_state (h.push (.operation _ (hword.withLeafKind _)))
      · split
        · exact Receipt.twin_state (h.push (.operation _ hword))
        · split
          · exact h.openProduction .lambda hword
          · split
            · exact h.openProduction .matchBinding hword
            · exact Receipt.twin_state (h.handBack hword)

theorem onOperatorWord (h : r.Twin r') (hword : word.Twin word') :
    (r.onOperatorWord word).Twin (r'.onOperatorWord word') := by
  have hifKw := h.push (.operation .ternaryIf hword)
  have helseKw := h.push (.operation .ternaryElse hword)
  unfold ExpressionReader.onOperatorWord
  rw [hword.keyword?_eq, h.ctx, h.openTernaries]
  split
  · exact h.handBack hword
  · split
    · exact h.handBack hword
    · split
      · exact h.push (.operation _ (hword.withLeafKind _))
      · split
        · exact h.push (.negation hword)
        · split
          · exact { hifKw with openTernaries := rfl }
          · split
            · exact { helseKw with openTernaries := rfl }
            · exact h.handBack hword

theorem onWord (h : r.Twin r') (hword : word.Twin word') :
    Agree (Receipt.Twin Twin) (r.onWord word) (r'.onWord word') := by
  unfold ExpressionReader.onWord
  rw [awaitsIn_eq h.pieces, hword.keyword?_eq]
  split
  · exact Receipt.twin_state (h.setPieces (.cons (.trivia hword) (joinIn_twins h.pieces)))
  · have hsettled : Twin (if awaitsIn r.pieces then { r with pieces := settle r.pieces } else r)
        (if awaitsIn r.pieces then { r' with pieces := settle r'.pieces } else r') := by
      split
      · exact h.setPieces (settle_twins h.pieces)
      · exact h
    dsimp only
    generalize (if awaitsIn r.pieces then { r with pieces := settle r.pieces } else r) = s at *
    generalize (if awaitsIn r.pieces then { r' with pieces := settle r'.pieces } else r') = s' at *
    rw [expectsOperand_eq hsettled.pieces]
    split
    · exact hsettled.onOperandWord hword
    · exact Receipt.twin_state (hsettled.onOperatorWord hword)

theorem onOperator (h : r.Twin r') {token token' : Tree} (ht : token.Twin token') :
    (r.onOperator token).Twin (r'.onOperator token') := by
  have hmisplaced := h.push (.trivia ht.invalidated)
  have htext : Spelling.Respelled (token.leafText?.getD "") (token'.leafText?.getD "") := by
    cases ht with
    | leaf kind extent extent' h => exact h
    | node kind extent extent' h => exact Spelling.respelled_refl ""
  unfold ExpressionReader.onOperator
  dsimp only
  rw [expectsOperand_eq h.pieces, OperatorKind.unary?_respelled htext,
    OperatorKind.binary?_respelled htext, h.pieces.isEmpty_eq, h.ctx]
  have harrow : (token'.leafText?.getD "" == "->") = (token.leafText?.getD "" == "->") := by
    rw [Bool.eq_iff_iff, beq_iff_eq, beq_iff_eq]
    exact Spelling.respelled_solid htext (by decide)
  rw [harrow]
  split
  · split
    · exact h.push (.operation _ (ht.withLeafKind _))
    · split
      · exact h.handBack ht
      · exact hmisplaced
  · split
    · split
      · exact h.handBack ht
      · exact h.push (.operation _ ht)
    · split
      · exact h.handBack ht
      · exact hmisplaced

theorem onMember (h : r.Twin r') (hword : word.Twin word') :
    Agree Twin (r.onMember word) (r'.onMember word') := by
  have hmisplaced := h.push (.trivia hword.invalidated)
  unfold ExpressionReader.onMember
  rw [awaitsMember_eq h.pieces, hword.keyword?_eq]
  split
  · have hname : Tree.Twin (if word.keyword?.isSome then word.withLeafKind .identifier else word)
        (if word.keyword?.isSome then word'.withLeafKind .identifier else word') := by
      split
      · exact hword.withLeafKind _
      · exact hword
    refine (wrapOperand?_twin h.pieces .memberAccess .target .member hname).bind
      fun x y hxy => ?_
    cases hxy with
    | some hpieces => exact h.setPieces hpieces
    | none => exact hmisplaced
  · exact hmisplaced

theorem onTail (h : r.Twin r') (kind : NodeKind) (targetSlot tailSlot : Slot) {tail tail' : Tree}
    (htail : tail.Twin tail') :
    Agree Twin (r.onTail kind targetSlot tailSlot tail)
      (r'.onTail kind targetSlot tailSlot tail') := by
  refine (wrapOperand?_twin h.pieces kind targetSlot tailSlot htail).bind fun x y hxy => ?_
  cases hxy with
  | some hpieces => exact h.setPieces hpieces
  | none => exact h.push (.operand htail)

variable {token token' : Tree}

theorem onToken (h : r.Twin r') (goal : ExpressionGoal) (ht : token.Twin token') :
    Agree (Receipt.Twin Twin) (r.onToken goal token) (r'.onToken goal token') := by
  unfold ExpressionReader.onToken
  rw [ht.isTrivia_eq, ht.isInvalid_eq, ht.leafKind?_eq]
  split
  · exact Receipt.twin_state (h.push (.trivia ht))
  · split
    · exact Receipt.twin_state (h.push (.trivia ht.invalidated))
    · cases goal with
      | trivia => exact Receipt.twin_state (h.push (.trivia ht))
      | word => exact h.onWord ht
      | member => exact (h.onMember ht).bind fun _ _ hr => Receipt.twin_state hr
      | operand => exact Receipt.twin_state (h.push (.operand ht))
      | operator => exact Receipt.twin_state (h.onOperator ht)
      | arguments =>
        exact (h.onTail .call .callee .arguments ht).bind fun _ _ hr => Receipt.twin_state hr
      | subscript =>
        exact (h.onTail .indexer .target .subscript ht).bind fun _ _ hr => Receipt.twin_state hr

theorem onHandback (h : r.Twin r') (ht : token.Twin token') :
    Agree (Receipt.Twin Twin) (r.onHandback token) (r'.onHandback token') := by
  unfold ExpressionReader.onHandback
  rw [h.done, ht.leafKind?_eq]
  split
  · exact Receipt.twin_state (h.push (.trivia ht.invalidated))
  · split
    · exact h.onWord ht
    · exact h.onWord ht
    · exact Receipt.twin_state (h.handBack ht)

theorem onLine (h : r.Twin r') {line line' : LineStart} (hline : line.Twin line') :
    (r.onLine line).Twin (r'.onLine line') := by
  have hbrackets : r'.ctx.brackets = r.ctx.brackets := congrArg _ h.ctx
  unfold ExpressionReader.onLine
  rw [hbrackets]
  split
  · rcases hline.indent.none_or_some with ⟨hnone, hnone'⟩ | ⟨_, _, hsome, hsome', hindent⟩
    · rw [hnone, hnone']
      exact h
    · rw [hsome, hsome']
      exact h.push (.trivia (hindent.withLeafKind _))
  · exact { h with line := .some hline, done := rfl }

/-- The same delivery meets with the same receipt. -/
theorem onDelivery (h : r.Twin r') {d d' : Delivery} (hd : d.Twin d') :
    Agree (Receipt.Twin Twin) (r.onDelivery d) (r'.onDelivery d') := by
  have hleading := (h.setGoal .trivia).pushTrivia hd.leading
  have htoken : Agree (Receipt.Twin Twin)
      (({ r with goal := .trivia }.pushTrivia d.leading).onToken? r.goal d.token)
      (({ r' with goal := .trivia }.pushTrivia d'.leading).onToken? r'.goal d'.token) := by
    rw [h.goal]
    rcases hd.token.none_or_some with ⟨hnone, hnone'⟩ | ⟨_, _, hsome, hsome', ht⟩
    · rw [hnone, hnone']
      exact Receipt.twin_state hleading
    · rw [hsome, hsome']
      exact hleading.onToken r.goal ht
  refine htoken.bind fun first first' hfirst => ?_
  have htrailing := hfirst.state.pushTrivia hd.trailing
  have hhandback : Agree (Receipt.Twin Twin)
      ((first.state.pushTrivia d.trailing).onHandback? d.handback)
      ((first'.state.pushTrivia d'.trailing).onHandback? d'.handback) := by
    rcases hd.handback.none_or_some with ⟨hnone, hnone'⟩ | ⟨_, _, hsome, hsome', ht⟩
    · rw [hnone, hnone']
      exact Receipt.twin_state htrailing
    · rw [hsome, hsome']
      exact htrailing.onHandback ht
  refine hhandback.bind fun second second' hsecond => ?_
  refine ⟨?_, List.rel_append hfirst.opened hsecond.opened, rfl⟩
  rcases hd.line.none_or_some with ⟨hnone, hnone'⟩ | ⟨_, _, hsome, hsome', hline⟩
  · rw [hnone, hnone']
    exact hsecond.state
  · rw [hsome, hsome']
    exact hsecond.state.onLine hline

/-- The same expression is delivered. -/
theorem finish (h : r.Twin r') (max? : Option Nat) :
    Agree Delivery.Twin (r.finish max?) (r'.finish max?) := by
  have hpieces := (settle_twins h.pieces).reverse
  refine (Climbed.fold_twin max? hpieces).bind fun d d' hd => ?_
  exact { hd with handback := h.handback, line := h.line }

end Twin

/-- The same expression begins with a word. -/
theorem seeded_twin (ctx : Context) {word word' : Tree} (hword : word.Twin word') :
    Agree (Receipt.Twin Twin) (seeded ctx word) (seeded ctx word') :=
  (twin_start ctx).onWord hword

end ExpressionReader

end ScriptTree
