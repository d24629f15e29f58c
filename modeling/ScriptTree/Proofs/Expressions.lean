import ScriptTree.Proofs.Openings

/-!
# Expressions keep the text

An expression adds every token to its pieces, wraps its last operand with what follows it, or
hands a token on; it opens a state only on a character that begins it.
-/

namespace ScriptTree

/-- Changing pieces without changing the text of their tokens keeps the text. -/
theorem textOfPieces_map {f : Piece → Piece} (h : ∀ piece, (f piece).token.text = piece.token.text)
    (pieces : List Piece) : textOfPieces (pieces.map f) = textOfPieces pieces := by
  induction pieces with
  | nil => rfl
  | cons piece rest ih => simp [h, ih]

namespace ExpressionReader

/-- The text of the pieces. -/
def body (r : ExpressionReader) : String :=
  textOfPieces r.pieces.reverse

theorem text_eq (r : ExpressionReader) : r.text = r.body ++ textHandedOn r.handback r.line := rfl

@[simp]
theorem body_push (r : ExpressionReader) (piece : Piece) :
    (r.push piece).body = r.body ++ piece.token.text := by
  simp [body, push]

/-- Adding trivia adds their text and changes nothing else. -/
theorem pushTrivia_eq (r : ExpressionReader) (tokens : List Tree) :
    r.pushTrivia tokens = { r with pieces := (tokens.map .trivia).reverse ++ r.pieces } := by
  induction tokens generalizing r with
  | nil => rfl
  | cons t rest ih =>
    have hstep : r.pushTrivia (t :: rest) = (r.push (.trivia t)).pushTrivia rest := rfl
    rw [hstep, ih]
    simp [push]

@[simp]
theorem body_pushTrivia (r : ExpressionReader) (tokens : List Tree) :
    (r.pushTrivia tokens).body = r.body ++ Tree.textOfTokens tokens := by
  have htokens : textOfPieces (tokens.map .trivia) = Tree.textOfTokens tokens := by
    simp [textOfPieces, Function.comp_def, Piece.token]
  simp [pushTrivia_eq, body, htokens]

/-- Giving up on what waits keeps the text. -/
theorem textOfPieces_settle (pieces : List Piece) :
    textOfPieces (settle pieces).reverse = textOfPieces pieces.reverse := by
  rw [settle, ← List.map_reverse]
  refine textOfPieces_map (fun piece => ?_) _
  cases piece <;> simp [settlePiece, Piece.token]

/-- Joining `not` and `in` keeps the text. -/
theorem textOfPieces_joinIn (pieces : List Piece) :
    textOfPieces (pieces.map joinIn).reverse = textOfPieces pieces.reverse := by
  rw [← List.map_reverse]
  refine textOfPieces_map (fun piece => ?_) _
  cases piece <;> simp [joinIn, Piece.token]

/-- An expression that goes on and hands nothing on yet. -/
structure Going (r : ExpressionReader) : Prop where
  done : r.done = false
  handback : r.handback = none
  line : r.line = none

theorem Hosts.toGoing {r : ExpressionReader} {layer : Layer} (h : r.Hosts layer) : r.Going :=
  ⟨h.going, (h.hands.of_open h.going).1, (h.hands.of_open h.going).2⟩

theorem Going.rests {r : ExpressionReader} (h : r.Going) : r.Rests := by
  refine ⟨?_⟩
  rw [h.handback, h.line]
  exact .nothing _

theorem Going.text_eq {r : ExpressionReader} (h : r.Going) : r.text = r.body := by
  simp [ExpressionReader.text_eq, h.handback, h.line]

theorem Going.push {r : ExpressionReader} (h : r.Going) (piece : Piece) : (r.push piece).Going :=
  ⟨h.done, h.handback, h.line⟩

theorem Going.pushTrivia {r : ExpressionReader} (h : r.Going) (tokens : List Tree) :
    (r.pushTrivia tokens).Going := by
  rw [pushTrivia_eq]
  exact ⟨h.done, h.handback, h.line⟩

/-- An expression that goes on may host any state, except that words and operators are leaves. -/
theorem Going.hosts {r : ExpressionReader} (h : r.Going) {goal : ExpressionGoal} {layer : Layer}
    (hgoal : goal = .word ∨ goal = .operator → layer.isLeaf) :
    ({ r with goal } : ExpressionReader).Hosts layer :=
  ⟨⟨h.rests.hands⟩, h.done, hgoal⟩

/-! ### Signals -/

/-- What an expression makes of a character: it leaves it to others, or opens a state that
begins with it, or adds a piece for it. -/
inductive Reacts (config : Config) (signal : Signal) (r : ExpressionReader) :
    Reaction ExpressionReader → Prop where
  | completes : Reacts config signal r r.complete
  | enters (goal : ExpressionGoal) (inner : Reader)
    (hgoal : goal = .word ∨ goal = .operator → inner.layer.isLeaf) (htext : inner.text = "")
    (htakes : Reader.Takes config signal 1 inner) (hchar : signal.toChar?.isSome) :
    Reacts config signal r (r.enter goal inner)
  | accepts (piece : Piece) (htext : piece.token.text = signal.text)
    (hchar : signal.toChar?.isSome) : Reacts config signal r ⟨r.push piece, .accept, {}⟩

variable {config : Config} {signal : Signal}

/-- The leaf that a character begins as an operand takes the character. -/
theorem begins_of_leafBegunBy? {ctx : Context} {c : Char} {leaf : LeafReader}
    (h : leafBegunBy? ctx c = some leaf) : leaf.Begins (.char c) := by
  rw [leafBegunBy?] at h
  split at h
  · rename_i hdigit
    cases h
    exact LeafReader.begins_number (.inl hdigit)
  · split at h
    · rename_i hpoint
      subst hpoint
      split at h
      · cases h
        exact LeafReader.begins_dots
      · cases h
        exact LeafReader.begins_number (.inr rfl)
    · split at h
      · rename_i hstring
        cases h
        exact LeafReader.begins_string hstring
      · split at h
        · cases h
          exact LeafReader.begins_nodePath c
        · cases h

/-- The group that a bracket opens as an operand begins with the bracket. -/
theorem opensWith_of_groupOpenedBy? {c : Char} {kind : GroupKind}
    (h : groupOpenedBy? c = some kind) : kind.opensWith c := by
  unfold groupOpenedBy? at h
  split at h <;> cases h <;> decide

/-- An expression opens a leaf that begins with the signal. -/
theorem reacts_leaf (r : ExpressionReader) (goal : ExpressionGoal) {leaf : LeafReader}
    (h : leaf.Begins signal) (hchar : signal.toChar?.isSome) :
    Reacts config signal r (r.enter goal (.leaf leaf)) :=
  .enters goal _ (fun _ => leaf.isLeaf_layer) h.text_eq (Reader.takes_leaf h) hchar

/-- A character that begins an operand opens a state for it. -/
theorem reacts_onOperandChar (r : ExpressionReader) (c : Char) :
    Reacts config (.char c) r (r.onOperandChar c) := by
  rw [onOperandChar]
  split
  · rename_i hword
    exact reacts_leaf r .word (LeafReader.begins_word hword) rfl
  · split
    · split
      · rename_i hquote
        exact reacts_leaf r .operand
          (LeafReader.begins_string (StringScan.canStart_of_isQuote hquote)) rfl
      · exact .completes
    · split
      · rename_i leaf hleaf
        exact reacts_leaf r .operand (begins_of_leafBegunBy? hleaf) rfl
      · rename_i kind hleaf hgroup
        exact .enters .operand _ (by simp) rfl
          (Reader.takes_group r.ctx.bracketed (opensWith_of_groupOpenedBy? hgroup)) rfl
      · split
        · exact reacts_leaf r .operator (LeafReader.begins_operator c) rfl
        · exact .completes

/-- A character after an operand opens a state for what follows it. -/
theorem reacts_onOperatorChar (r : ExpressionReader) (c : Char) :
    Reacts config (.char c) r (r.onOperatorChar c) := by
  rw [onOperatorChar]
  split
  · rename_i hpoint
    subst hpoint
    exact .accepts _ (by simp [Piece.token, Punct.spelling, Signal.text, Signal.toChar?]) rfl
  · split
    · rename_i hbracket
      subst hbracket
      exact .enters .subscript _ (by simp) rfl (Reader.takes_group r.ctx.bracketed (by decide)) rfl
    · split
      · exact .completes
      · split
        · rename_i hbracket
          subst hbracket
          exact .enters .arguments _ (by simp) rfl
            (Reader.takes_group r.ctx.bracketed (by decide)) rfl
        · split
          · rename_i hword
            exact reacts_leaf r .word (LeafReader.begins_word hword) rfl
          · split
            · exact reacts_leaf r .operator (LeafReader.begins_operator c) rfl
            · exact .completes

/-- What an expression that goes on makes of a signal, after giving up on what waits. -/
theorem onSignal_reacts (config : Config) {r : ExpressionReader} (h : r.done = false)
    (signal : Signal) :
    ∃ pieces, textOfPieces pieces.reverse = textOfPieces r.pieces.reverse ∧
      Reacts config signal { r with pieces } (r.onSignal signal) := by
  unfold onSignal
  rw [if_neg (by simp [h])]
  split
  · rename_i t htrivia
    obtain ⟨htext, hchar⟩ := TriviaStart.suits_of_at? htrivia
    exact ⟨r.pieces, rfl, .accepts _ htext hchar⟩
  · rename_i leaf htrivia
    obtain ⟨hbegins, hchar⟩ := TriviaStart.suits_of_at? htrivia
    exact ⟨r.pieces, rfl, reacts_leaf r .trivia hbegins hchar⟩
  · rename_i c htrivia
    rw [onChar]
    split
    · rename_i hmember
      simp only [Bool.and_eq_true] at hmember
      exact ⟨r.pieces, rfl, reacts_leaf r .member (LeafReader.begins_word hmember.2) rfl⟩
    · split
      · rename_i hword
        simp only [Bool.and_eq_true] at hword
        exact ⟨r.pieces, rfl, reacts_leaf r .word (LeafReader.begins_word hword.2) rfl⟩
      · refine ⟨settle r.pieces, textOfPieces_settle r.pieces, ?_⟩
        dsimp only
        split
        · exact reacts_onOperandChar _ c
        · exact reacts_onOperatorChar _ c
  · exact ⟨r.pieces, rfl, .completes⟩

/-- An expression that does not leave a signal to others takes it. -/
theorem takes_of_reacts {r : ExpressionReader} (h : r.Going) {pieces : List Piece}
    (htext : textOfPieces pieces.reverse = textOfPieces r.pieces.reverse)
    (hreacts : Reacts config signal { r with pieces } (r.onSignal signal))
    (hstep : (r.onSignal signal).step ≠ .complete) :
    Reader.Takes config signal 2 (.expression r) := by
  have hgoing : ({ r with pieces } : ExpressionReader).Going := ⟨h.done, h.handback, h.line⟩
  have hbody : ({ r with pieces } : ExpressionReader).body = r.body := htext
  simp only [Reader.Takes, Reader.onSignal, yields_ok]
  generalize hreaction : r.onSignal signal = reaction at hreacts hstep
  cases hreacts with
  | completes => exact absurd rfl hstep
  | enters goal inner hgoal hinner htakes hchar =>
    refine ⟨rfl, hgoing.hosts hgoal, ?_, htakes⟩
    have htext' : ({ r with pieces, goal } : ExpressionReader).text = r.text := by
      rw [text_eq, text_eq]
      exact congrArg (· ++ _) hbody
    simpa [Reaction.map, enter, hinner] using htext'
  | accepts piece hpiece hchar =>
    refine ⟨rfl, (hgoing.push piece).rests, ?_⟩
    simp [Reaction.map, (hgoing.push piece).text_eq, h.text_eq, hbody, hpiece]

/-- An expression answers every signal. -/
theorem answers {r : ExpressionReader} (h : r.Rests) :
    Reader.Answers config signal (.expression r) := by
  have hcompletes (pieces : List Piece)
      (htext : textOfPieces pieces.reverse = textOfPieces r.pieces.reverse)
      (heq : r.onSignal signal = ({ r with pieces } : ExpressionReader).complete) :
      Reader.Answers config signal (.expression r) := by
    simp only [Reader.Answers, Reader.onSignal, heq, yields_ok]
    exact .left ⟨rfl, rfl, h.hands, congrArg (· ++ textHandedOn r.handback r.line) htext,
      Nat.le_refl _⟩
  by_cases hdone : r.done = true
  · exact hcompletes r.pieces rfl (by unfold onSignal; rw [if_pos hdone])
  · rw [Bool.not_eq_true] at hdone
    have hgoing : r.Going := ⟨hdone, (h.hands.of_open hdone).1, (h.hands.of_open hdone).2⟩
    obtain ⟨pieces, htext, hreacts⟩ := onSignal_reacts config hdone signal
    have htakes := takes_of_reacts hgoing htext hreacts
    generalize hreaction : r.onSignal signal = reaction at hreacts htakes
    cases hreacts with
    | completes => exact hcompletes pieces htext hreaction
    | enters goal inner hgoal hinner htakes' hchar =>
      exact ((htakes (by simp [enter])).mono (by omega)).answers hchar
    | accepts piece hpiece hchar => exact ((htakes (by simp)).mono (by omega)).answers hchar

/-- The characters with which a leaf begins as an operand. -/
theorem isSome_leafBegunBy? {ctx : Context} {c : Char}
    (h : Text.isDigit c ∨ c = '.' ∨ StringScan.canStart c ∨ c = '$' ∨ c = '%') :
    (leafBegunBy? ctx c).isSome := by
  rw [leafBegunBy?]
  split
  · rfl
  · split
    · split <;> rfl
    · split
      · rfl
      · rename_i hdigit hpoint hstring
        have hpath : c = '$' ∨ c = '%' := by simpa [hdigit, hpoint, hstring] using h
        rw [if_pos hpath]
        rfl

/-- Each character with which an expression may begin begins an operand. -/
theorem operand_of_canStart {ctx : Context} {c : Char} (h : ctx.canStart c)
    (hword : Text.isWordStart c = false) (hoperators : ctx.operators = true) :
    (leafBegunBy? ctx c).isSome ∨ (groupOpenedBy? c).isSome ∨ OperatorKind.canStart c := by
  simp only [Context.canStart, hword, Bool.false_or, hoperators, if_true, Bool.or_eq_true] at h
  rcases h with h | h
  · exact .inl (isSome_leafBegunBy? (.inl h))
  · simp only [String.reduceToList, List.contains_eq_mem, List.mem_cons, List.not_mem_nil,
      or_false, decide_eq_true_eq] at h
    rcases h with rfl | rfl | rfl | rfl | rfl | rfl | rfl | rfl | rfl | rfl | rfl | rfl | rfl | rfl
    all_goals first
      | exact .inl (isSome_leafBegunBy? (by decide))
      | exact .inr (.inl rfl)
      | exact .inr (.inr (by decide))

/-- A character with which an expression may begin is not left to others. -/
theorem onOperandChar_step_ne {ctx : Context} {c : Char} (h : ctx.canStart c) :
    (onOperandChar { ctx } c).step ≠ .complete := by
  rw [onOperandChar]
  split
  · simp [enter]
  · rename_i hword
    rw [Bool.not_eq_true] at hword
    cases hoperators : ctx.operators with
    | false =>
      have hquote : StringScan.isQuote c := by
        simpa [Context.canStart, hword, hoperators, StringScan.isQuote] using h
      simp [hquote, enter]
    | true =>
      have hoperand := operand_of_canStart h hword hoperators
      simp only [Bool.not_true, Bool.false_eq_true, if_false]
      split
      · simp [enter]
      · simp [enter]
      · rename_i hleaf hgroup
        have hstart : OperatorKind.canStart c := by simpa [hleaf, hgroup] using hoperand
        simp [hstart, enter]

/-- An expression that is opened on a character with which it may begin takes the character. -/
theorem takes_of_canStart {ctx : Context} {c : Char} (h : ctx.canStart c) :
    Reader.Takes config (.char c) 2 (.expression { ctx }) := by
  have hgoing : ({ ctx } : ExpressionReader).Going := ⟨rfl, rfl, rfl⟩
  obtain ⟨pieces, htext, hreacts⟩ :=
    onSignal_reacts config (r := { ctx }) rfl (.char c)
  refine takes_of_reacts hgoing htext hreacts ?_
  unfold onSignal
  rw [if_neg (by simp)]
  split
  · simp
  · simp [enter]
  · rename_i c' htrivia heq
    cases heq
    exact onOperandChar_step_ne h
  · rename_i hne
    exact absurd rfl (hne c)

/-! ### Deliveries -/

/-- A production that begins with a keyword keeps the keyword. -/
theorem afterKeyword_yields {kind : NodeKind} (hkind : kind = .lambda ∨ kind = .matchBinding)
    (level : Nat) (word : Tree) :
    Yields (SequenceReader.afterKeyword kind level word) fun r =>
      r.Rests ∧ r.text = word.text ∧ r.handback = none := by
  have hdeclares : kind.declares .keyword := by rcases hkind with rfl | rfl <;> rfl
  rw [SequenceReader.afterKeyword, Form.place_of_appends word hdeclares (Form.appends_nil _ _)]
  refine yields_pure.2 ⟨?_, by simp [SequenceReader.text, SequenceReader.start], rfl⟩
  have hblock : ∀ part ∈ Production.parts kind, part.isBlock →
      part ∈ (Production.parts kind).drop 1 := by
    rcases hkind with rfl | rfl <;> decide
  refine {
    hands := .nothing false
    items := by simp
    order := ?_
    required := ?_
    block := fun part hpart hisBlock hpassed => absurd (hblock part hpart hisBlock) hpassed
    inactive := rfl }
  · refine ⟨(Production.parts kind).take 1, (List.take_append_drop 1 _).symm, ?_⟩
    have hfirst : [Slot.keyword].Sublist (((Production.parts kind).take 1).map Part.slot) := by
      rcases hkind with rfl | rfl <;> decide
    exact hfirst
  · intro part hpart hslot
    have hrequires : ∀ part ∈ Production.parts kind,
        part.slot = .keyword → part.requires = none := by
      rcases hkind with rfl | rfl <;> decide
    simp only [SequenceReader.requirementMet]
    rw [hrequires part hpart (by simpa using hslot)]
    rfl

/-- The pieces around the last operand are all the pieces. -/
theorem eq_of_splitOperand? {pieces later earlier : List Piece} {t : Tree}
    (h : splitOperand? pieces = some (later, t, earlier)) :
    pieces = later ++ .operand t :: earlier := by
  induction pieces generalizing later with
  | nil => cases h
  | cons piece rest ih =>
    cases piece with
    | operand token =>
      cases h
      rfl
    | _ =>
      obtain ⟨⟨later', t', earlier'⟩, hrest, heq⟩ := Option.map_eq_some_iff.1 h
      cases heq
      simp [ih hrest]

/-- The pieces inside a postfix form keep their text. -/
theorem textOfForm_innerEntry (kind : NodeKind) (pieces : List Piece) :
    Tree.textOfForm (pieces.map (innerEntry kind)) = textOfPieces pieces := by
  induction pieces with
  | nil => simp
  | cons piece rest ih => cases piece <;> simp [innerEntry, ih, Piece.token]

/-- The pieces inside a postfix form are extras, but for the point of a member. -/
theorem declared_innerEntry (kind : NodeKind) (pieces : List Piece) :
    Form.Declared kind (pieces.map (innerEntry kind)) := by
  intro entry hentry
  obtain ⟨piece, _, rfl⟩ := List.mem_map.1 hentry
  cases piece with
  | point t =>
    by_cases hkind : kind = .memberAccess
    · subst hkind
      exact .inr ⟨.point, rfl, rfl⟩
    · exact .inl (by simp [innerEntry, hkind])
  | _ => exact .inl rfl

/-- Wrapping the last operand adds the text of the tail. -/
theorem wrapOperand?_yields (pieces : List Piece) {kind : NodeKind} {targetSlot tailSlot : Slot}
    (tail : Tree) (htarget : kind.declares targetSlot) (htail : kind.declares tailSlot) :
    Yields (wrapOperand? pieces kind targetSlot tailSlot tail) fun result =>
      ∀ wrapped ∈ result,
        textOfPieces wrapped.reverse = textOfPieces pieces.reverse ++ tail.text := by
  rw [wrapOperand?]
  split
  · simp
  · rename_i later target earlier hsplit
    have hdeclared : Form.Declared kind ((.slot targetSlot, target)
        :: later.reverse.map (innerEntry kind) ++ [(.slot tailSlot, tail)]) := by
      have hinner := declared_innerEntry kind later.reverse
      rw [List.map_reverse] at hinner
      simp [htarget, htail, hinner]
    have hinner := textOfForm_innerEntry kind later.reverse
    rw [List.map_reverse] at hinner
    dsimp only
    rw [eq_of_splitOperand? hsplit, Tree.assemble_of_declared hdeclared]
    simp [bind, Except.bind, pure, Except.pure, Piece.token, hinner, String.append_assoc]

/-- A member's name is added to the pieces. -/
theorem onMember_yields {r : ExpressionReader} (h : r.Going) (word : Tree) :
    Yields (r.onMember word) fun r' => r'.Going ∧ r'.body = r.body ++ word.text := by
  have hmisplaced : (r.push (.trivia word.invalidated)).Going ∧
      (r.push (.trivia word.invalidated)).body = r.body ++ word.text :=
    ⟨h.push _, by simp [Piece.token]⟩
  rw [onMember]
  split
  · refine (wrapOperand?_yields r.pieces _ rfl rfl).bind fun result hresult => ?_
    cases result with
    | none => exact yields_pure.2 hmisplaced
    | some pieces =>
      refine yields_pure.2 ⟨⟨h.done, h.handback, h.line⟩, ?_⟩
      rw [body, hresult pieces rfl]
      split <;> simp [body]
  · exact yields_pure.2 hmisplaced

/-- What follows an operand is added to the pieces. -/
theorem onTail_yields {r : ExpressionReader} (h : r.Going) {kind : NodeKind}
    {targetSlot tailSlot : Slot} (tail : Tree) (htarget : kind.declares targetSlot)
    (htail : kind.declares tailSlot) :
    Yields (r.onTail kind targetSlot tailSlot tail) fun r' =>
      r'.Going ∧ r'.body = r.body ++ tail.text := by
  refine (wrapOperand?_yields r.pieces tail htarget htail).bind fun result hresult => ?_
  refine yields_pure.2 ⟨⟨h.done, h.handback, h.line⟩, ?_⟩
  cases result with
  | none => simp [body, Piece.token]
  | some pieces => exact hresult pieces rfl

/-- A token that was not opened as a word or an operator is added to the pieces. -/
theorem onToken_yields {r : ExpressionReader} (h : r.Going) {goal : ExpressionGoal}
    (hgoal : ¬ (goal = .word ∨ goal = .operator)) (token : Tree) :
    Yields (r.onToken goal token) fun receipt =>
      receipt.opened = [] ∧ receipt.state.Going ∧ receipt.state.body = r.body ++ token.text := by
  unfold onToken
  split
  · exact yields_pure.2 ⟨rfl, h.push _, by simp [Piece.token]⟩
  · split
    · exact yields_pure.2 ⟨rfl, h.push _, by simp [Piece.token]⟩
    · cases goal with
      | word => exact absurd (.inl rfl) hgoal
      | operator => exact absurd (.inr rfl) hgoal
      | trivia => exact yields_pure.2 ⟨rfl, h.push _, by simp [Piece.token]⟩
      | operand => exact yields_pure.2 ⟨rfl, h.push _, by simp [Piece.token]⟩
      | member =>
        refine (onMember_yields h token).bind fun r' hr' => ?_
        exact yields_pure.2 ⟨rfl, hr'⟩
      | arguments =>
        refine (onTail_yields h token rfl rfl).bind fun r' hr' => ?_
        exact yields_pure.2 ⟨rfl, hr'⟩
      | subscript =>
        refine (onTail_yields h token rfl rfl).bind fun r' hr' => ?_
        exact yields_pure.2 ⟨rfl, hr'⟩

/-- The receipt of an expression fits what was delivered to it. -/
abbrev Fits (text : String) (budget : Nat) (receipt : Receipt ExpressionReader) : Prop :=
  (receipt.map Reader.expression).Fits .expression text budget

/-- An expression that goes on has nothing to pay for. -/
theorem Going.fits {r : ExpressionReader} (h : r.Going) {text : String} {budget : Nat}
    {notices : Notices} (htext : r.body = text) (hbudget : 1 ≤ budget) :
    Fits text budget { state := r, notices } := by
  refine ⟨rfl, h.rests, ?_, ?_⟩
  · simp [Receipt.map, Reader.textOfAll, h.text_eq, htext]
  · simpa [Receipt.map, Reader.costOfAll, Reader.cost, Reader.credit, h.handback, handbackCost]
      using hbudget

/-- A token that is handed on is paid for by the steps that come with it. -/
theorem Going.fits_handBack {r : ExpressionReader} (h : r.Going) (token : Tree) {text : String}
    {budget : Nat} (htext : r.body ++ token.text = text) (hbudget : 11 ≤ budget) :
    Fits text budget { state := r.handBack token } := by
  refine ⟨rfl, ⟨?_⟩, ?_, ?_⟩
  · have hline : (r.handBack token).line = none := h.line
    rw [hline]
    exact .token token
  · rw [← htext]
    simp [Receipt.map, Reader.textOfAll, handBack, ExpressionReader.text_eq, textHandedOn, h.line,
      body]
  · simpa [Receipt.map, Reader.costOfAll, Reader.cost, Reader.credit, handBack, handbackCost]
      using hbudget

/-- The production of an operand takes over its keyword. -/
theorem openProduction_yields {r : ExpressionReader} (h : r.Going) {kind : NodeKind}
    (hkind : kind = .lambda ∨ kind = .matchBinding) (word : Tree) {budget : Nat}
    (hbudget : 5 ≤ budget) :
    Yields (r.openProduction kind word) (Fits (r.body ++ word.text) budget) := by
  refine (afterKeyword_yields hkind r.ctx.level word).bind fun inner hinner => ?_
  obtain ⟨hrests, htext, hhandback⟩ := hinner
  have hhosts : ({ r with goal := .operand } : ExpressionReader).Hosts .sequence :=
    h.hosts (by simp)
  refine yields_pure.2 ⟨rfl, ⟨hhosts, hrests⟩, ?_, ?_⟩
  · have hsame : ({ r with goal := .operand } : ExpressionReader).text = r.body := h.text_eq
    simp [Receipt.map, Reader.textOfAll, htext, hsame]
  · have hblock := inner.blockCost_le
    simp only [Receipt.map, Reader.costOfAll, Reader.cost, Reader.credit, h.handback, hhandback,
      handbackCost, List.map_cons, List.map_nil, List.sum_cons, List.sum_nil]
    omega

/-- A word with which no expression may begin. -/
theorem canStartWith_eq_false {ctx : Context} {word : Tree} {kw : Keyword}
    (hword : word.keyword? = some kw)
    (hliteral : ¬ (ctx.operators && kw.isLiteral) = true)
    (hnot : ¬ (ctx.operators && kw == .notKw) = true)
    (hawait : ¬ (ctx.operators && kw == .awaitKw) = true)
    (hfunc : ¬ (ctx.operators && kw == .funcKw && !ctx.pattern) = true)
    (hvar : ¬ (ctx.pattern && kw == .varKw) = true) : ctx.canStartWith word = false := by
  have hleaf : word.leafKind? = some (.keyword kw) := by
    obtain ⟨kind, hkind, hkw⟩ := Option.bind_eq_some_iff.1 hword
    cases kind <;> cases hkw
    exact hkind
  cases hoperators : ctx.operators with
  | false => simp [Context.canStartWith, hleaf, hoperators]
  | true => cases hpattern : ctx.pattern <;> simp_all [Context.canStartWith]

/-- A word where an operand may begin. Only a word with which no expression may begin is handed
on. -/
theorem onOperandWord_yields {r : ExpressionReader} (h : r.Going) (word : Tree) {budget : Nat}
    (hbudget : 5 ≤ budget) (hhandBack : r.ctx.canStartWith word = false → 11 ≤ budget) :
    Yields (r.onOperandWord word) (Fits (r.body ++ word.text) budget) := by
  have hpush (piece : Piece) (hpiece : piece.token.text = word.text) :
      Fits (r.body ++ word.text) budget { state := r.push piece } :=
    (h.push piece).fits (by simp [hpiece]) (by omega)
  unfold onOperandWord
  split
  · exact yields_pure.2 (hpush _ rfl)
  · rename_i kw hword
    split
    · exact yields_pure.2 (hpush _ rfl)
    · split
      · exact yields_pure.2 (hpush _ (by simp [Piece.token]))
      · split
        · exact yields_pure.2 (hpush _ rfl)
        · split
          · exact openProduction_yields h (.inl rfl) word hbudget
          · split
            · exact openProduction_yields h (.inr rfl) word hbudget
            · rename_i hliteral hnot hawait hfunc hvar
              have hstart := canStartWith_eq_false hword hliteral hnot hawait hfunc hvar
              exact yields_pure.2 (h.fits_handBack word rfl (hhandBack hstart))

/-- An expression that a word begins takes over the word. -/
theorem seeded_yields {ctx : Context} {word : Tree} (h : ctx.canStartWith word) :
    Yields (seeded ctx word) (Fits word.text 5) := by
  have hgoing : ({ ctx } : ExpressionReader).Going := ⟨rfl, rfl, rfl⟩
  have hword := onOperandWord_yields hgoing word (Nat.le_refl 5) (by simp [h])
  have hbody : ({ ctx } : ExpressionReader).body = "" := by simp [body]
  rwa [hbody, String.empty_append] at hword

/-- A word after an operand. -/
theorem onOperatorWord_fits {r : ExpressionReader} (h : r.Going) (word : Tree) {budget : Nat}
    (hbudget : 11 ≤ budget) :
    Fits (r.body ++ word.text) budget { state := r.onOperatorWord word } := by
  have hhandBack := h.fits_handBack word rfl hbudget
  have hpush (r' : ExpressionReader) (piece : Piece) (heq : r'.pieces = (r.push piece).pieces)
      (hgoing : r'.Going) (hpiece : piece.token.text = word.text) :
      Fits (r.body ++ word.text) budget { state := r' } := by
    refine hgoing.fits ?_ (by omega)
    rw [← hpiece, ← body_push, body, heq, body]
  rw [onOperatorWord]
  split
  · exact hhandBack
  · split
    · exact hhandBack
    · split
      · exact hpush _ _ rfl (h.push _) (by simp [Piece.token])
      · split
        · exact hpush _ _ rfl (h.push _) rfl
        · split
          · exact hpush _ (.operation .ternaryIf word) rfl ⟨h.done, h.handback, h.line⟩ rfl
          · split
            · exact hpush _ (.operation .ternaryElse word) rfl ⟨h.done, h.handback, h.line⟩ rfl
            · exact hhandBack

/-- A complete word is placed, handed on, or begins a production. -/
theorem onWord_yields {r : ExpressionReader} (h : r.Going) (word : Tree) {budget : Nat}
    (hbudget : 11 ≤ budget) : Yields (r.onWord word) (Fits (r.body ++ word.text) budget) := by
  rw [onWord]
  split
  · have hgoing : ({ r with pieces := .trivia word :: r.pieces.map joinIn } :
        ExpressionReader).Going := ⟨h.done, h.handback, h.line⟩
    refine yields_pure.2 (hgoing.fits ?_ (by omega))
    simp [body, textOfPieces_joinIn, Piece.token]
  · have hsettled : ∃ r', (if awaitsIn r.pieces = true then { r with pieces := settle r.pieces }
        else r) = r' ∧ r'.Going ∧ r'.body = r.body := by
      split
      · exact ⟨_, rfl, ⟨h.done, h.handback, h.line⟩, textOfPieces_settle r.pieces⟩
      · exact ⟨r, rfl, h, rfl⟩
    obtain ⟨r', heq, hgoing, hbody⟩ := hsettled
    rw [heq, ← hbody]
    dsimp only
    split
    · exact onOperandWord_yields hgoing word (by omega) fun _ => hbudget
    · exact yields_pure.2 (onOperatorWord_fits hgoing word hbudget)

/-- A complete operator is placed or handed on. -/
theorem onOperator_fits {r : ExpressionReader} (h : r.Going) (token : Tree) {budget : Nat}
    (hbudget : 11 ≤ budget) :
    Fits (r.body ++ token.text) budget { state := r.onOperator token } := by
  have hhandBack := h.fits_handBack token rfl hbudget
  have hpush (piece : Piece) (hpiece : piece.token.text = token.text) :
      Fits (r.body ++ token.text) budget { state := r.push piece } :=
    (h.push piece).fits (by simp [hpiece]) (by omega)
  rw [onOperator]
  split
  · split
    · exact hpush _ (by simp [Piece.token])
    · split
      · exact hhandBack
      · exact hpush _ (by simp [Piece.token])
  · split
    · split
      · exact hhandBack
      · exact hpush _ rfl
    · split
      · exact hhandBack
      · exact hpush _ (by simp [Piece.token])

/-- A leaf that was opened for some purpose comes alone. -/
theorem onToken_fits {r : ExpressionReader} (h : r.Going) (goal : ExpressionGoal) (token : Tree)
    {budget : Nat} (hbudget : 11 ≤ budget) :
    Yields (r.onToken goal token) (Fits (r.body ++ token.text) budget) := by
  by_cases hgoal : goal = .word ∨ goal = .operator
  · unfold onToken
    split
    · exact yields_pure.2 ((h.push _).fits (by simp [Piece.token]) (by omega))
    · split
      · exact yields_pure.2 ((h.push _).fits (by simp [Piece.token]) (by omega))
      · rcases hgoal with rfl | rfl
        · exact onWord_yields h token hbudget
        · exact yields_pure.2 (onOperator_fits h token hbudget)
  · refine (onToken_yields h hgoal token).mono fun receipt hreceipt => ?_
    obtain ⟨state, opened, notices⟩ := receipt
    obtain ⟨rfl, hgoing, hbody⟩ := hreceipt
    exact hgoing.fits hbody (by omega)

/-- A token that was handed to an expression that goes on. -/
theorem onHandback_yields {r : ExpressionReader} (h : r.Going) (token : Tree) {budget : Nat}
    (hbudget : 11 ≤ budget) : Yields (r.onHandback token) (Fits (r.body ++ token.text) budget) := by
  unfold onHandback
  rw [if_neg (by simp [h.done])]
  split
  · exact onWord_yields h token hbudget
  · exact onWord_yields h token hbudget
  · exact yields_pure.2 (h.fits_handBack token rfl hbudget)

/-- The beginning of a line ends an expression, unless it stands inside brackets. -/
theorem onLine_fits {r : ExpressionReader} (h : r.Going) (line : LineStart) {budget : Nat}
    (hbudget : 1 ≤ budget) :
    Fits (r.body ++ textOfLine (some line)) budget { state := r.onLine line } := by
  rw [onLine]
  split
  · split
    · rename_i indent hindent
      exact (h.push _).fits (by simp [Piece.token, textOfLine, hindent]) hbudget
    · rename_i hindent
      exact h.fits (by simp [textOfLine, hindent]) hbudget
  · refine ⟨rfl, ⟨?_⟩, ?_, ?_⟩
    · rw [h.handback]
      exact .line line
    · simp [Receipt.map, Reader.textOfAll, text_eq, textHandedOn, h.handback, body]
    · simpa [Receipt.map, Reader.costOfAll, Reader.cost, Reader.credit, h.handback, handbackCost]
        using hbudget

/-- A delivery without a token adds nothing. -/
theorem onToken?_yields {r : ExpressionReader} (h : r.Going) {goal : ExpressionGoal}
    (hgoal : ¬ (goal = .word ∨ goal = .operator)) (token : Option Tree) :
    Yields (r.onToken? goal token) fun receipt => receipt.opened = [] ∧ receipt.state.Going ∧
      receipt.state.body = r.body ++ Tree.textOfTokens token.toList := by
  cases token with
  | none => exact yields_ok.2 ⟨rfl, h, by simp⟩
  | some token => simpa [onToken?] using onToken_yields h hgoal token

/-- What comes after the token of a delivery is placed, handed on, or begins a production. -/
theorem afterToken_yields {r : ExpressionReader} (h : r.Going) {handback : Option Tree}
    {line : Option LineStart} (hexclusive : handback = none ∨ line = none) :
    Yields (r.onHandback? handback) fun receipt =>
      Fits (r.body ++ textHandedOn handback line) (1 + handbackCost handback)
        { receipt with state := receipt.state.onLine? line } := by
  cases handback with
  | none =>
    refine yields_ok.2 ?_
    cases line with
    | none => exact h.fits (by simp) (Nat.le_refl 1)
    | some line =>
      simpa [textHandedOn, onLine?, handbackCost] using onLine_fits h line (Nat.le_refl 1)
  | some token =>
    obtain rfl : line = none := hexclusive.resolve_left (by simp)
    simpa [textHandedOn, onHandback?, onLine?, handbackCost]
      using onHandback_yields h token (Nat.le_refl 11)

/-- An expression takes every delivery of a state that it hosts. -/
theorem onDelivery_yields {r : ExpressionReader} {layer : Layer} {d : Delivery}
    (h : r.Hosts layer) (hd : d.From layer) :
    Yields (r.onDelivery d)
      (Fits (r.text ++ d.text) ((Reader.expression r).cost + d.credit layer)) := by
  have hcost : (Reader.expression r).cost = 1 := by
    simp [Reader.cost, Reader.credit, h.toGoing.handback, handbackCost]
  have hgoing : ({ r with goal := .trivia } : ExpressionReader).Going :=
    ⟨h.going, h.toGoing.handback, h.toGoing.line⟩
  have hbody : ({ r with goal := .trivia } : ExpressionReader).body = r.body := rfl
  rw [h.toGoing.text_eq, hcost, onDelivery]
  by_cases hleaf : layer.isLeaf
  · obtain ⟨leading, token, trailing, handback, line⟩ := d
    obtain ⟨rfl, rfl, rfl, rfl⟩ := hd.leaf hleaf
    have hcredit : Delivery.credit { token } layer = 10 := if_pos hleaf
    rw [hcredit]
    cases token with
    | none => exact yields_ok.2 (hgoing.fits (by simp [Delivery.text, body]) (by omega))
    | some token =>
      refine (onToken_fits hgoing r.goal token (show 11 ≤ 1 + 10 by omega)).bind
        fun receipt hreceipt => ?_
      have htext : ({ token := some token } : Delivery).text = token.text := by
        simp [Delivery.text]
      rw [htext]
      exact yields_pure.2 (hreceipt.of_eq rfl (by simp [Receipt.map]))
  · have hgoal : ¬ (r.goal = .word ∨ r.goal = .operator) := fun hgoal => hleaf (h.leaf hgoal)
    have hcredit : d.credit layer = handbackCost d.handback := if_neg hleaf
    refine (onToken?_yields (hgoing.pushTrivia d.leading) hgoal d.token).bind
      fun first hfirst => ?_
    obtain ⟨hopened, hstate, htoken⟩ := hfirst
    refine (afterToken_yields (hstate.pushTrivia d.trailing) hd.exclusive).bind
      fun second hsecond => ?_
    have htext : (first.state.pushTrivia d.trailing).body ++ textHandedOn d.handback d.line
        = r.body ++ d.text := by
      simp [htoken, hbody, Delivery.text, String.append_assoc]
    rw [htext] at hsecond
    rw [hcredit]
    exact yields_pure.2 (hsecond.of_eq rfl (by simp [Receipt.map, hopened]))

/-- An expression delivers its text, folded, and what it hands on. -/
theorem finish_meets {limited : Prop} {max? : Option Nat} (hlimited : max?.isSome → limited)
    {r : ExpressionReader} (h : HandsOn r.done r.handback r.line) :
    Meets limited (r.finish max?) fun d =>
      d.From .expression ∧ d.text = r.text ∧ d.handback = r.handback := by
  refine (Climbed.meets_fold hlimited _).bind fun d hd => ?_
  refine meets_pure.2 ⟨?_, ?_, rfl⟩
  · exact ⟨h.exclusive, nofun, nofun, nofun, nofun, False.elim⟩
  · have hpieces := textOfPieces_settle r.pieces
    simp only [Delivery.text, hd.1, hpieces, text_eq, body]

end ExpressionReader

end ScriptTree
