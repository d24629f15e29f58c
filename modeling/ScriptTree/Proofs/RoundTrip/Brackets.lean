import ScriptTree.Proofs.RoundTrip.Operands

/-!
# Reading expressions in brackets

A construct around an expression opens it at its first character and takes its tree at the first
character after it. In brackets the expressions of a list or a dictionary follow one another.
-/

namespace ScriptTree

open Automaton (Reaches Begins Feeds Delivers ofStack reaches_enter reaches_complete)

namespace Signal

/-- Whether an expression may begin here. -/
def BeginsExpr (signal : Signal) : Prop :=
  ∃ c, signal = .char c ∧ Text.isInlineSpace c = false ∧ (Context.value 0).canStart c = true ∧
    c ∉ [',', ':', ')', ']', '\x7d']

/-- Whether an expression ends here, whatever it is. -/
def EndsExpr (ctx : Context) : Signal → Prop
  | .char c => c ∈ [',', ':', ')', ']', '\x7d']
  | .endOfText => True
  | .newLine => ctx.brackets = false
  | _ => False

/-- The first character of an expression is no separator. -/
theorem BeginsExpr.exists_char {signal : Signal} (h : signal.BeginsExpr) {ctx : Context}
    (hctx : ctx.IsPlain) : ∃ c, signal = .char c ∧ Text.isInlineSpace c = false ∧
      ctx.canStart c = true ∧ c ≠ ',' ∧ c ∉ [',', ':', ')', ']', '\x7d'] := by
  obtain ⟨c, rfl, hblank, hstart, hclosers⟩ := h
  refine ⟨c, rfl, hblank, ?_, ?_, hclosers⟩
  · simpa [Context.canStart, hctx.operators, Context.value] using hstart
  · rintro rfl
    exact hclosers (by decide)

theorem endsBlank_of_beginsExpr (signal : Signal) (h : signal.BeginsExpr) : signal.EndsBlank := by
  obtain ⟨c, rfl, hblank, _⟩ := h
  exact hblank

/-- A separator or a closing bracket ends an expression. -/
theorem endsExpr_ofChar (ctx : Context) {c : Char} (hc : c ∈ [',', ':', ')', ']', '\x7d']) :
    (Signal.ofChar c).EndsExpr ctx := by
  have hclosers : ∀ c ∈ [',', ':', ')', ']', '\x7d'],
      c ≠ '\n' ∧ c ≠ '\r' ∧ c ≠ '#' ∧ c ≠ '\\' := by decide
  rw [ofChar_eq_char (hclosers c hc)]
  exact hc

theorem endsWord_of_endsExpr {ctx : Context} (signal : Signal) (h : signal.EndsExpr ctx) :
    signal.EndsWord := by
  have hclosers : ∀ c ∈ [',', ':', ')', ']', '\x7d'], Text.isWordContinue c = false := by decide
  cases signal with
  | char c => exact hclosers c h
  | _ => trivial

/-- A word may be the beginning of an expression. -/
theorem beginsExpr_of_isWordStart {c : Char} (hc : Text.isWordStart c = true) :
    (Signal.ofChar c).BeginsExpr := by
  refine ⟨c, ofChar_of_isWordContinue (Text.isWordContinue_of_isWordStart hc),
    Text.isInlineSpace_of_isWordStart hc, by simp [Context.canStart, hc], ?_⟩
  simp only [List.mem_cons, List.not_mem_nil, or_false]
  rintro (rfl | rfl | rfl | rfl | rfl) <;> exact absurd hc (by decide)

end Signal

/-- A word begins an expression. -/
theorem begins_of_isWord {cs : List Char} (hw : Text.isWord cs = true) :
    Begins Signal.BeginsExpr cs := by
  obtain ⟨c, rest, rfl, hc⟩ := Text.exists_cons_of_isWord hw
  exact Automaton.begins_cons (Signal.beginsExpr_of_isWordStart hc)

/-- A symbol before an operand begins an expression. -/
theorem PrefixOperator.begins (op : PrefixOperator) : Begins Signal.BeginsExpr op.text.toList := by
  obtain ⟨text, kind, hdenotes⟩ := op
  have hsymbols : ∀ symbol ∈ OperatorKind.symbols, (OperatorKind.unary? symbol).isSome →
      ∃ c ∈ ['!', '-', '+', '~'], symbol.toList = [c] := by decide
  have hchars : ∀ c ∈ ['!', '-', '+', '~'],
      (c ≠ '\n' ∧ c ≠ '\r' ∧ c ≠ '#' ∧ c ≠ '\\') ∧ Text.isInlineSpace c = false ∧
        (Context.value 0).canStart c = true ∧ c ∉ [',', ':', ')', ']', '\x7d'] := by decide
  rcases OperatorKind.unary?_eq_some hdenotes with hsymbol | ⟨rfl, _⟩
  · obtain ⟨c, hc, hlist⟩ := hsymbols text hsymbol (by rw [hdenotes]; rfl)
    obtain ⟨hplain, hbegins⟩ := hchars c hc
    exact ⟨c, [], hlist, c, Signal.ofChar_eq_char hplain, hbegins⟩
  · exact begins_of_isWord (Keyword.isWord_spelling _)

/-- An operator between operands ends the blank before it. -/
theorem InfixOperator.begins (op : InfixOperator) : Begins Signal.EndsBlank op.chars := by
  cases op with
  | notIn =>
    have hchars : InfixOperator.notIn.chars = Keyword.notKw.spelling.toList ++ " in".toList := rfl
    rw [hchars]
    exact (Automaton.begins_word (Keyword.isWord_spelling _)).append
  | spelled text kind hdenotes =>
    have hsymbols : ∀ symbol ∈ OperatorKind.symbols, symbol.toList ≠ [] ∧
        ∀ c ∈ symbol.toList.head?, (c ≠ '\n' ∧ c ≠ '\r' ∧ c ≠ '#' ∧ c ≠ '\\') ∧
          Text.isInlineSpace c = false := by decide
    rcases OperatorKind.binary?_eq_some hdenotes with hsymbol | ⟨word, rfl, _⟩
    · obtain ⟨hne, hhead⟩ := hsymbols text hsymbol
      obtain ⟨c, rest, hlist⟩ := List.exists_cons_of_ne_nil hne
      obtain ⟨hplain, hblank⟩ := hhead c (by simp [hlist])
      refine ⟨c, rest, hlist, ?_⟩
      rw [Signal.ofChar_eq_char hplain]
      exact hblank
    · exact Automaton.begins_word word.isWord_spelling

mutual

/-- The first character of a primary. -/
theorem Primary.begins (p : Primary) : Begins Signal.BeginsExpr p.chars := by
  match p with
  | .name name => 
    rw [Primary.chars]
    exact begins_of_isWord name.isWord
  | .constant constant =>
    rw [Primary.chars]
    exact begins_of_isWord constant.word.isWord_spelling
  | .member target name =>
    rw [Primary.chars]
    exact target.begins.append
  | .call callee arguments =>
    rw [Primary.chars]
    exact callee.begins.append
  | .subscript target index =>
    rw [Primary.chars]
    exact target.begins.append
  | .parenthesized inner =>
    rw [Primary.chars]
    exact Automaton.begins_cons ⟨'(', rfl, by decide⟩
  | .array items =>
    rw [Primary.chars]
    exact Automaton.begins_cons ⟨'[', rfl, by decide⟩
  | .dictionary entries =>
    rw [Primary.chars]
    exact Automaton.begins_cons ⟨'\x7b', rfl, by decide⟩

/-- The first character of an expression. -/
theorem Expr.begins (e : Expr) : Begins Signal.BeginsExpr e.chars := by
  match e with
  | .primary p =>
    rw [Expr.chars]
    exact p.begins
  | .prefixed op operand =>
    rw [Expr.chars]
    exact op.begins.append
  | .await operand =>
    rw [Expr.chars]
    exact (begins_of_isWord (Keyword.isWord_spelling _)).append
  | .binary op left right =>
    rw [Expr.chars]
    exact left.begins.append
  | .ternary value condition alternative =>
    rw [Expr.chars]
    exact value.begins.append

end

/-- An expression is read as its pieces. -/
def Expr.IsRead (config : Config) (assign : Bool) (e : Expr) : Prop :=
  ∀ (ctx : Context) (k : Nat) (pieces : List Piece) (below : List Reader), ctx.IsPlain →
    (assign = true → ctx.assign = true) → ExpressionReader.IsSettled pieces →
    ExpressionReader.expectsOperand pieces = true →
    Reaches config Signal.EndsWord (ofStack (exprReader ctx k pieces :: below)) e.chars
      (ofStack (exprReader ctx k (e.pieces.reverse ++ pieces) :: below))

variable {config : Config} {ctx : Context} {top top' after : Reader} {below : List Reader}
  {e : Expr} {assign : Bool}

namespace ExpressionReader

/-- No piece of an expression waits for anything. -/
theorem isSettled_pieces (e : Expr) : IsSettled e.pieces := by
  match e with
  | .primary p => exact isSettled_nil.cons rfl
  | .prefixed op operand => exact ((isSettled_pieces operand).cons rfl).cons rfl
  | .await operand => exact ((isSettled_pieces operand).cons rfl).cons rfl
  | .binary op left right =>
    have hleft := isSettled_pieces left
    have hright := isSettled_pieces right
    intro piece hpiece
    simp only [Expr.pieces, List.mem_append, List.mem_cons, List.mem_map] at hpiece
    rcases hpiece with h | rfl | rfl | ⟨t, _, rfl⟩ | h
    · exact hleft piece h
    · rfl
    · rfl
    · rfl
    · exact hright piece h
  | .ternary value condition alternative =>
    have hvalue := isSettled_pieces value
    have hcondition := isSettled_pieces condition
    have halternative := isSettled_pieces alternative
    intro piece hpiece
    simp only [Expr.pieces, List.mem_append, List.mem_cons] at hpiece
    rcases hpiece with h | rfl | rfl | rfl | h | rfl | rfl | rfl | h
    · exact hvalue piece h
    all_goals try rfl
    · exact hcondition piece h
    · exact halternative piece h

/-- The last piece of an expression is an operand. -/
theorem expectsOperand_pieces (e : Expr) (rest : List Piece) :
    expectsOperand (e.pieces.reverse ++ rest) = false := by
  match e with
  | .primary p => rfl
  | .prefixed op operand => simpa [Expr.pieces] using expectsOperand_pieces operand _
  | .await operand => simpa [Expr.pieces] using expectsOperand_pieces operand _
  | .binary op left right => simpa [Expr.pieces] using expectsOperand_pieces right _
  | .ternary value condition alternative =>
    simpa [Expr.pieces] using expectsOperand_pieces alternative _

/-- After an operand an expression ends at what cannot go on with it. -/
theorem onSignal_of_endsExpr {k : Nat} {pieces : List Piece} (hsettled : IsSettled pieces)
    (hoperator : expectsOperand pieces = false) (signal : Signal) (hends : signal.EndsExpr ctx) :
    (exprReader ctx k pieces).onSignal config signal =
      .ok ⟨exprReader ctx k pieces, .complete, {}⟩ := by
  cases signal with
  | char c =>
    have hclosers : ∀ c ∈ [',', ':', ')', ']', '\x7d'], Text.isInlineSpace c = false ∧
        c ≠ '.' ∧ c ≠ '[' ∧ c ≠ '(' ∧ Text.isWordStart c = false ∧
          OperatorKind.canStart c = false := by decide
    obtain ⟨hblank, hpoint, hbracket, hparen, hword, hstart⟩ := hclosers c hends
    rw [onSignal_char hsettled hblank]
    simp [hoperator, onOperatorChar, hpoint, hbracket, hparen, hword, hstart, complete,
      Reaction.map]
    rfl
  | endOfText =>
    cases hbrackets : ctx.brackets <;>
      simp [exprReader, Reader.onSignal, onSignal, TriviaStart.at?, hbrackets,
        TriviaStart.bracketed?, TriviaStart.inline?, complete, Reaction.map]
  | newLine =>
    have hbrackets : ctx.brackets = false := hends
    simp [exprReader, Reader.onSignal, onSignal, TriviaStart.at?, hbrackets, TriviaStart.inline?,
      complete, Reaction.map]
  | _ => cases hends

end ExpressionReader

/-- An expression of which all pieces were read is delivered as its tree. -/
theorem Expr.reaches_end (hconfig : config.IsUnlimited) (hvalid : e.isValid assign 0 = true)
    (hdelivery : top'.onDelivery { token := some e.tree } = .ok { state := after }) :
    Reaches config (Signal.EndsExpr ctx)
      (ofStack (exprReader ctx 0 e.pieces.reverse :: top' :: below)) []
      (ofStack (after :: below)) := by
  have hsettled : ExpressionReader.IsSettled e.pieces.reverse := fun piece hpiece =>
    ExpressionReader.isSettled_pieces e piece (List.mem_reverse.1 hpiece)
  have hoperand : ExpressionReader.expectsOperand e.pieces.reverse = false := by
    simpa using ExpressionReader.expectsOperand_pieces e []
  have hhands : (exprReader ctx 0 e.pieces.reverse).HandsTo config top' [after] := by
    refine .of_onDelivery ?_ hdelivery
    simp [exprReader, Reader.finish, ExpressionReader.finish, hsettled.settle_eq, hconfig.frames,
      Climbed.fold_pieces hvalid]
  exact reaches_complete hconfig (ExpressionReader.onSignal_of_endsExpr hsettled hoperand) hhands

/-- An expression that is read as its pieces is delivered as its tree. -/
theorem Expr.IsRead.reaches (hconfig : config.IsUnlimited) (hread : e.IsRead config assign)
    (hvalid : e.isValid assign 0 = true) (hctx : ctx.IsPlain)
    (hassign : assign = true → ctx.assign = true)
    (htop : ∀ signal, Signal.BeginsExpr signal →
      top.onSignal config signal = .ok ⟨top', .enter (.expression { ctx }), {}⟩)
    (hdelivery : top'.onDelivery { token := some e.tree } = .ok { state := after }) :
    Reaches config (Signal.EndsExpr ctx) (ofStack (top :: below)) e.chars
      (ofStack (after :: below)) := by
  have hinside : Reaches config Signal.EndsWord (ofStack (exprReader ctx 0 [] :: top' :: below))
      e.chars (ofStack (exprReader ctx 0 e.pieces.reverse :: top' :: below)) := by
    simpa using hread ctx 0 [] (top' :: below) hctx hassign ExpressionReader.isSettled_nil rfl
  refine reaches_enter hconfig e.begins htop ?_
  exact (hinside.mono Signal.endsWord_of_endsExpr).trans_nil
    (Expr.reaches_end hconfig hvalid hdelivery)

/-- A group whose opening bracket was read. -/
def groupReader (kind : GroupKind) (ctx : Context) (form : List Entry)
    (expected : GroupExpectation) (entry : Option (List Entry)) : Reader :=
  .group { kind, form, ctx, opened := true, expected, entry }

/-- The brackets around a group, as marks and as characters. -/
structure GroupKind.IsBetween (kind : GroupKind) (opening closing : Punct) (o c : Char) : Prop where
  brackets : kind.brackets? = some (opening, closing)
  opens : o ∈ ['(', '[', '\x7b']
  closes : closing.startsWith c = true
  ends : c ∈ [',', ':', ')', ']', '\x7d']

/-- Groups of expressions in brackets. -/
def GroupKind.holdsExpressions : GroupKind → Bool
  | .arguments | .array | .dictionary | .parenthesized | .subscript => true
  | _ => false

namespace GroupReader

variable {kind : GroupKind} {opening closing : Punct} {form : List Entry} {c : Char}
  {expected : GroupExpectation} {entry : Option (List Entry)} {signal : Signal} {t : Tree}

/-- The children before the closing bracket. -/
def IsInner (inner : List Entry) : Prop :=
  ∀ entry ∈ inner, entry.1 ∈ [.slot .opening, .slot .inner, .item, .extra]

/-- The closing bracket stands after all other children. -/
theorem appends_closing (kind : GroupKind) (h : IsInner form) :
    Form.Appends kind.nodeKind .closing form := by
  have hroles : ∀ role ∈ [Role.slot .opening, .slot .inner, .item, .extra],
      role ≠ .slot .closing ∧
        Form.standsAfter kind.nodeKind .closing role = false := by
    cases kind <;> decide
  exact fun entry hentry => hroles entry.1 (h entry hentry)

/-- A bracket is a character of its own. -/
theorem char_of_startsWith {mark : Punct} (h : mark.startsWith c = true) :
    Signal.ofChar c = .char c ∧ Text.isInlineSpace c = false := by
  have hmarks : ∀ c ∈ mark.spelling.toList.head?,
      (c ≠ '\n' ∧ c ≠ '\r' ∧ c ≠ '#' ∧ c ≠ '\\') ∧ Text.isInlineSpace c = false := by
    cases mark <;> decide
  obtain ⟨hplain, hblank⟩ := hmarks c (by simpa [Punct.startsWith] using h)
  exact ⟨Signal.ofChar_eq_char hplain, hblank⟩

/-- The opening bracket. -/
theorem delivers_open (hbrackets : kind.brackets? = some (opening, closing)) :
    Delivers config signal (ofStack (.group (.start kind ctx) :: below))
      (ofStack (groupReader kind ctx [(.slot .opening, .ofPunct opening)] .item none ::
        below)) := by
  have hdeclares : kind.nodeKind.declares .opening = true := by
    cases kind <;> first | rfl | cases hbrackets
  have hplace : Form.place kind.nodeKind .opening (Tree.ofPunct opening) [] =
      .ok [(.slot .opening, .ofPunct opening)] :=
    Form.place_of_appends _ hdeclares (Form.appends_nil _ _)
  refine Automaton.delivers_accept ?_
  simp [Reader.onSignal, onSignal, start, GroupKind.isBare, hbrackets, hplace]
  rfl

/-- A character inside a group that is no trivia. -/
theorem onSignal_char (hblank : Text.isInlineSpace c = false) :
    (groupReader kind ctx form expected entry).onSignal config (.char c) =
      (onChar { kind, form, ctx, opened := true, expected, entry } c).map (·.map .group) := by
  simp [groupReader, Reader.onSignal, onSignal, TriviaStart.at?_char _ hblank]

/-- A character that does not close a group. -/
theorem onSignal_innerChar (hbrackets : kind.brackets? = some (opening, closing))
    (hblank : Text.isInlineSpace c = false) (hc : closing.startsWith c = false) :
    (groupReader kind ctx form expected entry).onSignal config (.char c) =
      (onInnerChar { kind, form, ctx, opened := true, expected, entry } c).map (·.map .group) := by
  rw [onSignal_char hblank]
  simp [onChar, hbrackets, hc]

/-- The closing bracket ends the group. -/
theorem delivers_close (hbrackets : kind.brackets? = some (opening, closing))
    (hc : closing.startsWith c = true) (hinner : IsInner form)
    (hdelivery : top.onDelivery { token := some (.ofForm kind.nodeKind
      (form ++ [(Role.slot .closing, Tree.ofPunct closing)])) } = .ok { state := after }) :
    Delivers config (.ofChar c) (ofStack (groupReader kind ctx form expected none :: top :: below))
      (ofStack (after :: below)) := by
  obtain ⟨hchar, hblank⟩ := char_of_startsWith hc
  have hdeclares : kind.nodeKind.declares .closing = true := by
    cases kind <;> first | rfl | cases hbrackets
  have hplace : Form.place kind.nodeKind .closing (Tree.ofPunct closing) form =
      .ok (form ++ [(Role.slot .closing, Tree.ofPunct closing)]) :=
    Form.place_of_appends _ hdeclares (appends_closing kind hinner)
  have hsplit : Form.splitTrailing (form ++ [(Role.slot .closing, Tree.ofPunct closing)]) =
      (form ++ [(Role.slot .closing, Tree.ofPunct closing)], []) :=
    Form.splitTrailing_append_extras (nofun : Role.slot .closing ≠ .extra) _ form []
  have hsignal : (groupReader kind ctx form expected none).onSignal config (.char c) =
      .ok ⟨groupReader kind ctx (form ++ [(Role.slot .closing, Tree.ofPunct closing)]) expected
        none, .acceptAndComplete, {}⟩ := by
    rw [onSignal_char hblank]
    simp [onChar, hbrackets, hc, sealEntry, sealedForm, hplace]
    rfl
  rw [hchar]
  refine Automaton.delivers_acceptAndComplete hsignal (.of_onDelivery ?_ hdelivery)
  simp [groupReader, Reader.finish, finish, sealedForm, hsplit]

/-- A blank is opened as trivia. -/
theorem onSignal_blank :
    (groupReader kind ctx form expected entry).onSignal config (.char ' ') =
      .ok ⟨groupReader kind ctx form expected entry, .enter (.leaf (.blank .space "")), {}⟩ := by
  have hblank : Text.isInlineSpace ' ' = true := by decide
  simp [groupReader, Reader.onSignal, onSignal, TriviaStart.at?_blank _ hblank]
  rfl

/-- A blank in brackets is an extra. -/
theorem reaches_blank (hconfig : config.IsUnlimited) :
    Reaches config Signal.EndsBlank (ofStack (groupReader kind ctx form expected none :: below))
      [' ']
      (ofStack (groupReader kind ctx (form ++ [(Role.extra, blank)]) expected none :: below)) := by
  refine Automaton.reaches_blank hconfig onSignal_blank ?_
  simp [groupReader, Reader.onDelivery, onDelivery, pushExtras, onToken?]
  rfl

/-- A blank between the key and the value of an entry belongs to the entry. -/
theorem reaches_blankInEntry (hconfig : config.IsUnlimited) {children : List Entry} :
    Reaches config Signal.EndsBlank
      (ofStack (groupReader kind ctx form expected (some children) :: below)) [' ']
      (ofStack (groupReader kind ctx form expected (some (children ++ [(Role.extra, blank)])) ::
        below)) := by
  refine Automaton.reaches_blank hconfig onSignal_blank ?_
  simp [groupReader, Reader.onDelivery, onDelivery, pushExtras, onToken?]
  rfl

/-- A comma after an item. -/
theorem delivers_comma (hkind : kind.isSingle = false)
    (hbrackets : kind.brackets? = some (opening, closing)) :
    Delivers config (.ofChar ',') (ofStack (groupReader kind ctx form expected none :: below))
      (ofStack (groupReader kind ctx (form ++ [(Role.extra, Tree.ofPunct .comma)]) .item none ::
        below)) := by
  have hclosing : closing.startsWith ',' = false := by
    cases kind <;> cases hbrackets <;> decide
  refine Automaton.delivers_accept (Eq.trans (onSignal_innerChar hbrackets (by decide) hclosing) ?_)
  simp [onInnerChar, hkind, sealEntry, sealedForm]
  rfl

/-- No expression begins with a closing bracket. -/
theorem exists_brackets (hkind : kind.holdsExpressions = true) :
    ∃ opening closing, kind.brackets? = some (opening, closing) ∧
      ∀ c ∉ [',', ':', ')', ']', '\x7d'], closing.startsWith c = false := by
  have hclosing : ∀ mark ∈ [Punct.closeParen, .closeBracket, .closeBrace],
      ∃ c ∈ [',', ':', ')', ']', '\x7d'], mark.spelling.toList.head? = some c := by decide
  have hstarts : ∀ mark ∈ [Punct.closeParen, .closeBracket, .closeBrace],
      ∀ c ∉ [',', ':', ')', ']', '\x7d'], mark.startsWith c = false := by
    intro mark hmark c hc
    obtain ⟨first, hfirst, hhead⟩ := hclosing mark hmark
    rw [Punct.startsWith, hhead]
    refine beq_eq_false_iff_ne.2 fun heq => hc ?_
    rwa [← Option.some.inj heq]
  cases kind <;> first | exact ⟨_, _, rfl, hstarts _ (by decide)⟩ | cases hkind

/-- An item is opened by its first character. -/
theorem onSignal_item (hkind : kind.holdsExpressions = true) (hctx : ctx.IsPlain)
    (hsignal : signal.BeginsExpr) :
    (groupReader kind ctx form .item none).onSignal config signal =
      .ok ⟨.group { kind, form, ctx, opened := true, goal := .item },
        .enter (.expression { ctx }), {}⟩ := by
  obtain ⟨c, rfl, hblank, hstart, hcomma, hclosers⟩ := hsignal.exists_char hctx
  obtain ⟨opening, closing, hbrackets, hclosing⟩ := exists_brackets hkind
  rw [onSignal_innerChar hbrackets hblank (hclosing c hclosers)]
  have hitem : canStartItem { kind, form, ctx, opened := true } c = true ∧
      itemReader { kind, form, ctx, opened := true } = .expression { ctx } := by
    cases kind <;> cases hkind <;> exact ⟨hstart, rfl⟩
  simp [onInnerChar, hcomma, hitem]
  rfl

/-- A value is opened by its first character. -/
theorem onSignal_value (hctx : ctx.IsPlain) (hsignal : signal.BeginsExpr) :
    (groupReader .dictionary ctx form .value entry).onSignal config signal =
      .ok ⟨.group { kind := .dictionary, form, ctx, opened := true, goal := .value, entry
                    expected := .value },
        .enter (.expression { ctx }), {}⟩ := by
  obtain ⟨c, rfl, hblank, hstart, hcomma, hclosers⟩ := hsignal.exists_char hctx
  obtain ⟨opening, closing, hbrackets, hclosing⟩ :=
    exists_brackets (rfl : GroupKind.dictionary.holdsExpressions = true)
  rw [onSignal_innerChar hbrackets hblank (hclosing c hclosers)]
  simp [onInnerChar, hcomma, hstart, itemReader]
  rfl

/-- A whole group, and what stands in it. -/
theorem feeds_group (hconfig : config.IsUnlimited) {o c : Char} {cs : List Char}
    {inner : List Entry} (hkind : kind.IsBetween opening closing o c)
    (htop : top.onSignal config (.ofChar o) = .ok ⟨top', .enter (.group (.start kind ctx)), {}⟩)
    (hinside : Reaches config (Signal.EndsExpr ctx)
      (ofStack (groupReader kind ctx [(.slot .opening, .ofPunct opening)] .item none ::
        top' :: below)) cs
      (ofStack (groupReader kind ctx ((.slot .opening, .ofPunct opening) :: inner) expected none ::
        top' :: below)))
    (hinner : IsInner inner)
    (hdelivery : top'.onDelivery { token := some (groupTree kind.nodeKind opening closing inner) } =
      .ok { state := after }) :
    Feeds config (ofStack (top :: below)) (o :: (cs ++ [c])) (ofStack (after :: below)) := by
  obtain ⟨between, hfeeds, hdelivers⟩ := hinside
  have hform : IsInner ((.slot .opening, .ofPunct opening) :: inner) :=
    List.forall_mem_cons.2 ⟨by simp, hinner⟩
  have hclose : Delivers config (.ofChar c)
      (ofStack (groupReader kind ctx ((.slot .opening, .ofPunct opening) :: inner) expected none ::
        top' :: below)) (ofStack (after :: below)) :=
    delivers_close hkind.brackets hkind.closes hform hdelivery
  exact .cons (Automaton.delivers_enter hconfig htop (delivers_open hkind.brackets))
    (hfeeds.append (.cons (hdelivers _ _ (Signal.endsExpr_ofChar ctx hkind.ends) hclose) (.nil _)))

end GroupReader

end ScriptTree
