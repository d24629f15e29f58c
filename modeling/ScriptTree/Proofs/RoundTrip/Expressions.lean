import ScriptTree.Proofs.RoundTrip.Brackets

/-!
# Reading whole expressions

By induction on an expression, its text is read as its pieces: a primary as a single operand that
grows with every member, call and subscript, and what has operators as the pieces of its operands
with the operators between them.
-/

namespace ScriptTree

open Automaton (Reaches Begins Feeds Delivers ofStack)
open ExpressionReader (IsSettled expectsOperand)

variable {config : Config} {ctx : Context} {below : List Reader} {assign : Bool} {k : Nat}
  {pieces : List Piece} {t : Tree} {e : Expr}

/-- The tree of an expression is no trivia, no text without a place and no point. -/
theorem Expr.tree_kind (e : Expr) : e.tree.isTrivia = false ∧ e.tree.isInvalid = false ∧
    (e.tree.leafKind? == some (.punct .point)) = false := by
  cases e with
  | primary p => cases p <;> (rw [Expr.tree, Primary.tree]; exact ⟨rfl, rfl, rfl⟩)
  | _ => rw [Expr.tree]; exact ⟨rfl, rfl, rfl⟩

/-! ### Lists -/

namespace GroupReader

variable {kind : GroupKind} {form : List Entry} {expected : GroupExpectation}

theorem pushExtras_nil (r : GroupReader) : r.pushExtras [] = r := by
  obtain ⟨_, _, _, _, _, _, entry, _, _, _⟩ := r
  cases entry <;> simp [pushExtras]

/-- What a state inside read goes where the state was opened for. -/
theorem onDelivery_of_onToken {r r' : GroupReader}
    (h : { r with goal := .trivia }.onToken r.goal t = .ok r') :
    (Reader.group r).onDelivery { token := some t } = .ok { state := .group r' } := by
  simp only [Reader.onDelivery, onDelivery, pushExtras_nil, onToken?, h, bind, Except.bind]
  rfl

/-- An expression that was opened as an item is placed as one. -/
theorem reaches_placed (hconfig : config.IsUnlimited) (hctx : ctx.IsPlain)
    (hkind : kind.holdsExpressions = true) (hread : e.IsRead config false)
    (hvalid : e.isValid false 0 = true) {r : GroupReader}
    (hplace : placeItem { kind, form, ctx, opened := true } e.tree = .ok r) :
    Reaches config (Signal.EndsExpr ctx) (ofStack (groupReader kind ctx form .item none :: below))
      e.chars (ofStack (.group r :: below)) := by
  obtain ⟨htrivia, hinvalid, _⟩ := e.tree_kind
  refine hread.reaches hconfig hvalid hctx nofun (fun signal => onSignal_item hkind hctx)
    (onDelivery_of_onToken ?_)
  simpa [onToken, htrivia, hinvalid] using hplace

/-- An item of a list. -/
theorem reaches_item (hconfig : config.IsUnlimited) (hctx : ctx.IsPlain)
    (hkind : kind ∈ [.arguments, .array]) (hread : e.IsRead config false)
    (hvalid : e.isValid false 0 = true) :
    Reaches config (Signal.EndsExpr ctx) (ofStack (groupReader kind ctx form .item none :: below))
      e.chars (ofStack (groupReader kind ctx (form ++ [(Role.item, e.tree)]) .separator none ::
        below)) := by
  have hkinds : kind.holdsExpressions = true ∧ kind.nodeKind.hasItems = true := by
    revert kind
    decide
  have hitem : placeItem { kind, form, ctx, opened := true } e.tree =
      placeElement { kind, form, ctx, opened := true } e.tree := by
    simp only [List.mem_cons, List.not_mem_nil, or_false] at hkind
    rcases hkind with rfl | rfl <;> rfl
  refine reaches_placed hconfig hctx hkinds.1 hread hvalid (hitem.trans ?_)
  simp [placeElement, Form.addItem_of_hasItems e.tree form hkinds.2]

/-- The one expression in brackets. -/
theorem reaches_inner (hconfig : config.IsUnlimited) (hctx : ctx.IsPlain)
    (hkind : kind ∈ [.parenthesized, .subscript]) (hread : e.IsRead config false)
    (hvalid : e.isValid false 0 = true) {opening : Tree} :
    Reaches config (Signal.EndsExpr ctx)
      (ofStack (groupReader kind ctx [(.slot .opening, opening)] .item none :: below)) e.chars
      (ofStack (groupReader kind ctx [(.slot .opening, opening), (.slot .inner, e.tree)] .separator
        none :: below)) := by
  have hkinds : kind.holdsExpressions = true ∧ kind.nodeKind.declares .inner = true ∧
      Form.standsAfter kind.nodeKind .inner (.slot .opening) = false := by
    revert kind
    decide
  have hplace : Form.place kind.nodeKind .inner e.tree [(.slot .opening, opening)] =
      .ok [(.slot .opening, opening), (.slot .inner, e.tree)] := by
    refine Form.place_of_appends _ hkinds.2.1 (List.forall_mem_singleton.2 ⟨?_, hkinds.2.2⟩)
    simp
  have hitem : placeItem { kind, form := [(.slot .opening, opening)], ctx, opened := true } e.tree =
      placeInner { kind, form := [(.slot .opening, opening)], ctx, opened := true } e.tree := by
    simp only [List.mem_cons, List.not_mem_nil, or_false] at hkind
    rcases hkind with rfl | rfl <;> rfl
  refine reaches_placed hconfig hctx hkinds.1 hread hvalid (hitem.trans ?_)
  simp [placeInner, hplace]

/-- A comma and the blank after it. -/
theorem reaches_comma (hconfig : config.IsUnlimited) (hkind : kind.isSingle = false)
    {opening closing : Punct} (hbrackets : kind.brackets? = some (opening, closing)) :
    Reaches config Signal.EndsBlank (ofStack (groupReader kind ctx form expected none :: below))
      [',', ' '] (ofStack (groupReader kind ctx (form ++ commaForm) .item none :: below)) := by
  have hcomma : Reaches config Signal.IsBlank
      (ofStack (groupReader kind ctx form expected none :: below)) [',']
      (ofStack (groupReader kind ctx (form ++ [(Role.extra, Tree.ofPunct .comma)]) .item none ::
        below)) :=
    .of_feeds (.cons (delivers_comma hkind hbrackets) (.nil _))
  simpa [commaForm] using hcomma.trans (reaches_blank hconfig) (Automaton.begins_blank [])

/-- Whether a group reads some text as an item. -/
def ReadsItem (config : Config) (kind : GroupKind) (ctx : Context) (cs : List Char) (t : Tree) :
    Prop :=
  Begins Signal.BeginsExpr cs ∧ ∀ (form : List Entry) (below : List Reader),
    Reaches config (Signal.EndsExpr ctx) (ofStack (groupReader kind ctx form .item none :: below))
      cs (ofStack (groupReader kind ctx (form ++ [(Role.item, t)]) .separator none :: below))

variable {α : Type} {chars : α → List Char} {tree : α → Tree} {items : List α}

/-- An item ends before the next one. -/
theorem begins_moreItems (chars : α → List Char) (items : List α) :
    (items.flatMap fun item => ',' :: ' ' :: chars item) = [] ∨
      Begins (Signal.EndsExpr ctx) (items.flatMap fun item => ',' :: ' ' :: chars item) := by
  cases items with
  | nil => exact .inl rfl
  | cons item rest => exact .inr (Automaton.begins_cons (Signal.endsExpr_ofChar ctx (by decide)))

/-- The items after the first one. -/
theorem reaches_moreItems (hconfig : config.IsUnlimited) (hkind : kind.isSingle = false)
    {opening closing : Punct} (hbrackets : kind.brackets? = some (opening, closing))
    (hitems : ∀ item ∈ items, ReadsItem config kind ctx (chars item) (tree item)) :
    Reaches config (Signal.EndsExpr ctx)
      (ofStack (groupReader kind ctx form .separator none :: below))
      (items.flatMap fun item => ',' :: ' ' :: chars item)
      (ofStack (groupReader kind ctx
        (form ++ items.flatMap fun item => commaForm ++ [(Role.item, tree item)]) .separator none ::
          below)) := by
  induction items generalizing form with
  | nil => simpa using Reaches.refl config _ _
  | cons item rest ih =>
    obtain ⟨⟨hbegins, hitem⟩, hrest⟩ := List.forall_mem_cons.1 hitems
    have hfirst : Reaches config (Signal.EndsExpr ctx)
        (ofStack (groupReader kind ctx form .separator none :: below)) ([',', ' '] ++ chars item)
        (ofStack (groupReader kind ctx (form ++ commaForm ++ [(Role.item, tree item)]) .separator
          none :: below)) :=
      (reaches_comma hconfig hkind hbrackets).trans (hitem _ _)
        (hbegins.mono Signal.endsBlank_of_beginsExpr)
    simpa using hfirst.trans_of_eq_nil_or (ih hrest) (begins_moreItems chars rest)

/-- All items of a list. -/
theorem reaches_items (hconfig : config.IsUnlimited) (hkind : kind.isSingle = false)
    {opening closing : Punct} (hbrackets : kind.brackets? = some (opening, closing))
    (hitems : ∀ item ∈ items, ReadsItem config kind ctx (chars item) (tree item)) :
    ∃ expected, Reaches config (Signal.EndsExpr ctx)
      (ofStack (groupReader kind ctx form .item none :: below)) (separated chars items)
      (ofStack (groupReader kind ctx (form ++ separatedForm tree items) expected none ::
        below)) := by
  cases items with
  | nil => exact ⟨.item, by simpa [separated, separatedForm] using Reaches.refl config _ _⟩
  | cons item rest =>
    obtain ⟨⟨_, hitem⟩, hrest⟩ := List.forall_mem_cons.1 hitems
    refine ⟨.separator, ?_⟩
    simpa [separated, separatedForm] using (hitem form below).trans_of_eq_nil_or
      (reaches_moreItems hconfig hkind hbrackets hrest) (begins_moreItems chars rest)

/-! ### Dictionaries -/

variable {key value : Expr}

/-- The key of an entry opens the entry. -/
theorem reaches_key (hconfig : config.IsUnlimited) (hctx : ctx.IsPlain)
    (hread : key.IsRead config false) (hvalid : key.isValid false 0 = true) :
    Reaches config (Signal.EndsExpr ctx)
      (ofStack (groupReader .dictionary ctx form .item none :: below)) key.chars
      (ofStack (groupReader .dictionary ctx form .separator (some [(.slot .key, key.tree)]) ::
        below)) := by
  refine reaches_placed hconfig hctx rfl hread hvalid ?_
  have hplace : Form.place .keyValue .key key.tree [] = .ok [(.slot .key, key.tree)] :=
    Form.place_of_appends _ rfl (Form.appends_nil _ _)
  simp [placeItem, placeKey, hplace]
  rfl

/-- The colon after a key, and the blank after it. -/
theorem reaches_colon (hconfig : config.IsUnlimited) :
    Reaches config Signal.EndsBlank
      (ofStack (groupReader .dictionary ctx form .separator (some [(.slot .key, t)]) :: below))
      [':', ' ']
      (ofStack (groupReader .dictionary ctx form .value (some [(.slot .key, t),
        (.slot .colon, .ofPunct .colon), (.extra, blank)]) :: below)) := by
  have hplace : Form.place .keyValue .colon (Tree.ofPunct .colon) [(.slot .key, t)] =
      .ok [(.slot .key, t), (.slot .colon, .ofPunct .colon)] :=
    Form.place_of_appends _ rfl (List.forall_mem_singleton.2 ⟨by simp, rfl⟩)
  have hcolon : Reaches config Signal.IsBlank
      (ofStack (groupReader .dictionary ctx form .separator (some [(.slot .key, t)]) :: below))
      [':'] (ofStack (groupReader .dictionary ctx form .value
        (some [(.slot .key, t), (.slot .colon, .ofPunct .colon)]) :: below)) := by
    refine .of_feeds (.cons (Automaton.delivers_accept ?_) (.nil _))
    refine (onSignal_innerChar rfl (by decide) (by decide)).trans ?_
    simp [onInnerChar, hplace]
    rfl
  exact hcolon.trans (reaches_blankInEntry hconfig) (Automaton.begins_blank [])

/-- The value of an entry completes the entry. -/
theorem reaches_value (hconfig : config.IsUnlimited) (hctx : ctx.IsPlain)
    (hread : value.IsRead config false) (hvalid : value.isValid false 0 = true) :
    Reaches config (Signal.EndsExpr ctx)
      (ofStack (groupReader .dictionary ctx form .value (some [(.slot .key, t),
        (.slot .colon, .ofPunct .colon), (.extra, blank)]) :: below)) value.chars
      (ofStack (groupReader .dictionary ctx
        (form ++ [(Role.item, keyValueTree t value.tree)]) .separator none :: below)) := by
  obtain ⟨htrivia, hinvalid, _⟩ := value.tree_kind
  refine hread.reaches hconfig hvalid hctx (by simp) (fun signal => onSignal_value hctx)
    (onDelivery_of_onToken ?_)
  have hplace : Form.place .keyValue .value value.tree [(.slot .key, t),
      (.slot .colon, .ofPunct .colon), (.extra, blank)] = .ok [(.slot .key, t),
        (.slot .colon, .ofPunct .colon), (.extra, blank), (.slot .value, value.tree)] :=
    Form.place_of_appends _ rfl (by simp [Form.Appends]; decide)
  simp [onToken, htrivia, hinvalid, placeValue, hplace, sealEntry, sealedForm, keyValueTree]

/-- A whole entry. -/
theorem readsItem_entry (hconfig : config.IsUnlimited) (hctx : ctx.IsPlain) (entry : Expr × Expr)
    (hkey : entry.1.IsRead config false) (hkeyValid : entry.1.isValid false 0 = true)
    (hvalue : entry.2.IsRead config false) (hvalueValid : entry.2.isValid false 0 = true) :
    ReadsItem config .dictionary ctx (Expr.charsOfEntry entry) (Expr.treeOfEntry entry) := by
  refine ⟨entry.1.begins.append, fun form below => ?_⟩
  have hcolon : Begins (Signal.EndsExpr ctx) ([':', ' '] ++ entry.2.chars) :=
    Automaton.begins_cons (Signal.endsExpr_ofChar ctx (by decide))
  exact (reaches_key hconfig hctx hkey hkeyValid).trans
    ((reaches_colon hconfig).trans (reaches_value hconfig hctx hvalue hvalueValid)
      (entry.2.begins.mono Signal.endsBlank_of_beginsExpr)) hcolon

/-- A whole item of a list. -/
theorem readsItem_expr (hconfig : config.IsUnlimited) (hctx : ctx.IsPlain)
    (hkind : kind ∈ [.arguments, .array]) (hread : e.IsRead config false)
    (hvalid : e.isValid false 0 = true) : ReadsItem config kind ctx e.chars e.tree :=
  ⟨e.begins, fun _ _ => reaches_item hconfig hctx hkind hread hvalid⟩

/-- Items and extras stand before the closing bracket. -/
theorem isInner_separatedForm (tree : α → Tree) (items : List α) :
    IsInner (separatedForm tree items) := by
  cases items with
  | nil => exact nofun
  | cons item rest =>
    refine List.forall_mem_cons.2 ⟨by simp, fun entry hentry => ?_⟩
    obtain ⟨next, _, hmem⟩ := List.mem_flatMap.1 hentry
    simp only [commaForm, List.cons_append, List.nil_append, List.mem_cons, List.not_mem_nil,
      or_false] at hmem
    rcases hmem with rfl | rfl | rfl <;> simp

/-- A group reads a text as the children between its brackets. -/
structure Holds (config : Config) (kind : GroupKind) (opening : Punct) (cs : List Char)
    (inner : List Entry) : Prop where
  isInner : IsInner inner
  reaches : ∀ {ctx : Context} (below : List Reader), ctx.IsPlain → ∃ expected,
    Reaches config (Signal.EndsExpr ctx)
      (ofStack (groupReader kind ctx [(.slot .opening, .ofPunct opening)] .item none :: below)) cs
      (ofStack (groupReader kind ctx ((.slot .opening, .ofPunct opening) :: inner) expected none ::
        below))

/-- The items of a list stand between its brackets. -/
theorem holds_items (hconfig : config.IsUnlimited) (hkind : kind ∈ [.arguments, .array])
    {opening closing : Punct} (hbrackets : kind.brackets? = some (opening, closing))
    {items : List Expr}
    (hitems : ∀ item ∈ items, item.IsRead config false ∧ item.isValid false 0 = true) :
    Holds config kind opening (Expr.charsOfItems items) (Expr.formOfItems items) := by
  have hsingle : kind.isSingle = false := by
    clear hbrackets
    revert kind
    decide
  rw [Expr.charsOfItems_eq, Expr.formOfItems_eq]
  refine ⟨isInner_separatedForm _ _, fun below hctx =>
    reaches_items hconfig hsingle hbrackets fun item hitem => ?_⟩
  obtain ⟨hread, hvalid⟩ := hitems item hitem
  exact readsItem_expr hconfig hctx hkind hread hvalid

/-- The entries of a dictionary stand between its brackets. -/
theorem holds_entries (hconfig : config.IsUnlimited) {entries : List (Expr × Expr)}
    (hentries : ∀ entry ∈ entries,
      (entry.1.IsRead config false ∧ entry.1.isValid false 0 = true) ∧
        entry.2.IsRead config false ∧ entry.2.isValid false 0 = true) :
    Holds config .dictionary .openBrace (Expr.charsOfEntries entries)
      (Expr.formOfEntries entries) := by
  rw [Expr.charsOfEntries_eq, Expr.formOfEntries_eq]
  refine ⟨isInner_separatedForm _ _, fun below hctx =>
    reaches_items hconfig rfl rfl fun entry hentry => ?_⟩
  obtain ⟨⟨hkey, hkeyValid⟩, hvalue, hvalueValid⟩ := hentries entry hentry
  exact readsItem_entry hconfig hctx entry hkey hkeyValid hvalue hvalueValid

/-- A single expression stands between its brackets. -/
theorem holds_inner (hconfig : config.IsUnlimited) (hkind : kind ∈ [.parenthesized, .subscript])
    {opening : Punct} (hread : e.IsRead config false) (hvalid : e.isValid false 0 = true) :
    Holds config kind opening e.chars [(.slot .inner, e.tree)] :=
  ⟨by simp [IsInner], fun _ hctx => ⟨_, reaches_inner hconfig hctx hkind hread hvalid⟩⟩

end GroupReader

/-! ### Primaries -/

namespace ExpressionReader

/-- The point before a member. -/
theorem delivers_point (hsettled : IsSettled pieces) (hoperator : expectsOperand pieces = false) :
    Delivers config (.ofChar '.') (ofStack (exprReader ctx k pieces :: below))
      (ofStack (exprReader ctx k (.point (.ofPunct .point) :: pieces) :: below)) := by
  refine Automaton.delivers_accept ((onSignal_char hsettled (by decide)).trans ?_)
  simp [hoperator, onOperatorChar]
  rfl

/-- A member makes one operand of what it is a member of. -/
theorem reaches_member (hconfig : config.IsUnlimited) (name : Name) :
    Reaches config Signal.EndsWord
      (ofStack (exprReader ctx k (.point (.ofPunct .point) :: .operand t :: pieces) :: below))
      name.text.toList
      (ofStack (exprReader ctx k (.operand (.ofForm .memberAccess [(.slot .target, t),
        (.slot .point, .ofPunct .point), (.slot .member, .ofText .identifier name.text)]) ::
          pieces) :: below)) := by
  obtain ⟨c, cs, hlist, hc⟩ := Text.exists_cons_of_isWord name.isWord
  have hblank : Text.isInlineSpace c = false := Text.isInlineSpace_of_isWordStart hc
  have htoken : (LeafReader.word name.text).token? = some (.ofText .identifier name.text) := by
    rw [LeafReader.token?_word, wordTree, name.notReserved]
  have htop : (exprReader ctx k (.point (.ofPunct .point) :: .operand t :: pieces)).onSignal config
      (.char c) = .ok ⟨.expression { ctx, pieces := .point (.ofPunct .point) :: .operand t :: pieces
                                     goal := .member, openTernaries := k },
        .enter (.leaf (.word "")), {}⟩ := by
    simp [exprReader, Reader.onSignal, onSignal, TriviaStart.at?_char _ hblank, onChar, hc,
      awaitsMember, enter, Reaction.map]
  have hmember : wrapOperand? (.point (.ofPunct .point) :: .operand t :: pieces) .memberAccess
      .target .member (.ofText .identifier name.text) =
        .ok (some (.operand (.ofForm .memberAccess [(.slot .target, t),
          (.slot .point, .ofPunct .point), (.slot .member, .ofText .identifier name.text)]) ::
            pieces)) := by
    simp [wrapOperand?, splitOperand?, innerEntry]
    rw [Tree.assemble_of_declared (by simp; decide)]
    rfl
  have honMember : onMember
      { ctx, pieces := .point (.ofPunct .point) :: .operand t :: pieces, openTernaries := k }
      (.ofText .identifier name.text) =
        .ok { ctx, openTernaries := k, pieces := .operand (.ofForm .memberAccess [(.slot .target, t),
          (.slot .point, .ofPunct .point), (.slot .member, .ofText .identifier name.text)]) ::
            pieces } := by
    have hname : (Tree.ofText .identifier name.text).keyword? = none := rfl
    simp [onMember, awaitsMember, hname, hmember]
    rfl
  refine (Automaton.spells_word name.isWord).reaches hconfig hlist htop
    (.of_onDelivery (Reader.finish_leaf_of_token? htoken config) (onDelivery_of_onToken ?_))
  have hplain : (Tree.ofText .identifier name.text).isTrivia = false ∧
      (Tree.ofText .identifier name.text).isInvalid = false ∧
        ((Tree.ofText .identifier name.text).leafKind? == some (.punct .point)) = false :=
    ⟨rfl, rfl, rfl⟩
  simp only [onToken, hplain, honMember]
  rfl

theorem onToken_arguments (r : ExpressionReader) (kind : NodeKind) (form : List Entry) :
    r.onToken .arguments (.ofForm kind form) =
      (r.onTail .call .callee .arguments (.ofForm kind form)).map ({ state := · }) := rfl

theorem onToken_subscript (r : ExpressionReader) (kind : NodeKind) (form : List Entry) :
    r.onToken .subscript (.ofForm kind form) =
      (r.onTail .indexer .target .subscript (.ofForm kind form)).map ({ state := · }) := rfl

/-- What follows an operand makes one operand with it. -/
theorem onTail_operand {kind : NodeKind} {targetSlot tailSlot : Slot}
    (htarget : kind.declares targetSlot = true) (htail : kind.declares tailSlot = true)
    (tail : Tree) :
    ({ ctx, pieces := .operand t :: pieces, openTernaries := k } : ExpressionReader).onTail kind
      targetSlot tailSlot tail =
        .ok { ctx, openTernaries := k, pieces :=
          .operand (.ofForm kind [(.slot targetSlot, t), (.slot tailSlot, tail)]) :: pieces } := by
  have hassemble : Tree.assemble kind [(.slot targetSlot, t), (.slot tailSlot, tail)] =
      .ok (.ofForm kind [(.slot targetSlot, t), (.slot tailSlot, tail)]) :=
    Tree.assemble_of_declared (by simp [htarget, htail])
  simp [onTail, wrapOperand?, splitOperand?, hassemble]

end ExpressionReader

namespace Expr

variable {target callee : Primary} {name : Name}

theorem isRead_name (hconfig : config.IsUnlimited) (name : Name) :
    (Expr.primary (.name name)).IsRead config assign := by
  intro ctx k pieces below hctx _ hsettled hoperand
  have hword : wordTree name.text = .ofText .identifier name.text := by
    rw [wordTree, name.notReserved]
  rw [Expr.chars, Primary.chars]
  refine ExpressionReader.reaches_word hconfig hctx (.inr hsettled) name.isWord ?_
  rw [ExpressionReader.onWord_of_expectsOperand hsettled hoperand, hword]
  rfl

theorem isRead_constant (hconfig : config.IsUnlimited) (constant : Constant) :
    (Expr.primary (.constant constant)).IsRead config assign := by
  intro ctx k pieces below hctx _ hsettled hoperand
  rw [Expr.chars, Primary.chars]
  refine ExpressionReader.reaches_keyword hconfig hctx (.inr hsettled) ?_
  rw [ExpressionReader.onWord_of_expectsOperand hsettled hoperand]
  simp [ExpressionReader.onOperandWord, hctx.operators, constant.isLiteral]
  rfl

/-- The state after a primary. -/
theorem IsRead.reaches_primary {p : Primary} (h : (Expr.primary p).IsRead config assign)
    (hctx : ctx.IsPlain) (hassign : assign = true → ctx.assign = true) (hsettled : IsSettled pieces)
    (hoperand : expectsOperand pieces = true) :
    Reaches config Signal.EndsWord (ofStack (exprReader ctx k pieces :: below)) p.chars
      (ofStack (exprReader ctx k (.operand p.tree :: pieces) :: below)) := by
  simpa [Expr.chars, Expr.pieces] using h ctx k pieces below hctx hassign hsettled hoperand

theorem isRead_member (hconfig : config.IsUnlimited)
    (htarget : (Expr.primary target).IsRead config assign) (name : Name) :
    (Expr.primary (.member target name)).IsRead config assign := by
  intro ctx k pieces below hctx hassign hsettled hoperand
  have hoperator : IsSettled (.operand target.tree :: pieces) := hsettled.cons rfl
  have hpoint : Reaches config Signal.EndsBlank
      (ofStack (exprReader ctx k (.operand target.tree :: pieces) :: below)) ['.']
      (ofStack (exprReader ctx k (.point (.ofPunct .point) :: .operand target.tree :: pieces) ::
        below)) :=
    .of_feeds (.cons (ExpressionReader.delivers_point hoperator rfl) (.nil _))
  have hmember := hpoint.trans (ExpressionReader.reaches_member hconfig name)
    (Automaton.begins_word name.isWord)
  have hends : Begins Signal.EndsWord (['.'] ++ name.text.toList) :=
    Automaton.begins_cons (Signal.endsWord_ofChar (by decide))
  have hwhole := (htarget.reaches_primary hctx hassign hsettled hoperand).trans hmember hends
  simpa [Expr.chars, Primary.chars, Expr.pieces, Primary.tree] using hwhole

/-- A group in brackets is an operand. -/
theorem isRead_group (hconfig : config.IsUnlimited) {p : Primary} {kind : GroupKind}
    {opening closing : Punct} {o c : Char} {cs : List Char} {inner : List Entry}
    (hkind : kind.IsBetween opening closing o c)
    (ho : ExpressionReader.groupOpenedBy? o = some kind)
    (hholds : GroupReader.Holds config kind opening cs inner)
    (hchars : p.chars = o :: (cs ++ [c]))
    (htree : p.tree = groupTree kind.nodeKind opening closing inner) :
    (Expr.primary p).IsRead config assign := by
  intro ctx k pieces below hctx hassign hsettled hoperand
  have hopens : ∀ o ∈ ['(', '[', '\x7b'], (o ≠ '\n' ∧ o ≠ '\r' ∧ o ≠ '#' ∧ o ≠ '\\') ∧
      Text.isInlineSpace o = false ∧ Text.isWordStart o = false ∧ o ≠ '.' ∧
        ExpressionReader.leafBegunBy? (.value 0) o = none := by decide
  obtain ⟨hplain, hblank, hword, hpoint, hleaf⟩ := hopens o hkind.opens
  rw [← ExpressionReader.leafBegunBy?_of_ne_point ctx hpoint] at hleaf
  have htop : (exprReader ctx k pieces).onSignal config (.ofChar o) =
      .ok ⟨.expression { ctx, pieces, goal := .operand, openTernaries := k },
        .enter (.group (.start kind ctx.bracketed)), {}⟩ := by
    rw [Signal.ofChar_eq_char hplain, ExpressionReader.onSignal_char hsettled hblank]
    simp [hoperand, ExpressionReader.onOperandChar, hword, hctx.operators, hleaf, ho]
    rfl
  have hdelivery : (Reader.expression { ctx, pieces, goal := .operand, openTernaries := k }).onDelivery
      { token := some (groupTree kind.nodeKind opening closing inner) } =
        .ok { state := exprReader ctx k (.operand p.tree :: pieces) } := by
    rw [htree]
    exact ExpressionReader.onDelivery_of_onToken rfl
  obtain ⟨expected, hinside⟩ := hholds.reaches (_ :: below) hctx.bracketed
  rw [Expr.chars, hchars]
  exact .of_feeds (GroupReader.feeds_group hconfig hkind htop hinside hholds.isInner hdelivery)

/-- A tail in brackets makes one operand with what it follows. -/
theorem isRead_tail (hconfig : config.IsUnlimited) {q p : Primary}
    (hq : (Expr.primary q).IsRead config assign) {kind : GroupKind} {opening closing : Punct}
    {goal : ExpressionGoal} {o c : Char} {cs : List Char} {inner : List Entry}
    (hkind : kind.IsBetween opening closing o c)
    (ho : (o, goal, kind) ∈ [('(', .arguments, .arguments), ('[', .subscript, .subscript)])
    (hholds : GroupReader.Holds config kind opening cs inner)
    (hchars : p.chars = q.chars ++ o :: (cs ++ [c]))
    (htoken : ∀ (ctx : Context) (k : Nat) (pieces : List Piece),
      ({ ctx, pieces := .operand q.tree :: pieces, openTernaries := k } : ExpressionReader).onToken
        goal (groupTree kind.nodeKind opening closing inner) =
          .ok { state := { ctx, pieces := .operand p.tree :: pieces, openTernaries := k } }) :
    (Expr.primary p).IsRead config assign := by
  intro ctx k pieces below hctx hassign hsettled hoperand
  have hafter : IsSettled (.operand q.tree :: pieces) := hsettled.cons rfl
  have htop : (exprReader ctx k (.operand q.tree :: pieces)).onSignal config (.ofChar o) =
      .ok ⟨.expression { ctx, pieces := .operand q.tree :: pieces, goal, openTernaries := k },
        .enter (.group (.start kind ctx.bracketed)), {}⟩ := by
    simp only [List.mem_cons, Prod.mk.injEq, List.not_mem_nil, or_false] at ho
    rcases ho with ⟨rfl, rfl, rfl⟩ | ⟨rfl, rfl, rfl⟩
    · refine (ExpressionReader.onSignal_char hafter (by decide)).trans ?_
      simp [expectsOperand, ExpressionReader.onOperatorChar, hctx.operators]
      rfl
    · refine (ExpressionReader.onSignal_char hafter (by decide)).trans ?_
      simp [expectsOperand, ExpressionReader.onOperatorChar]
      rfl
  have hopens : ∀ o ∈ ['(', '[', '\x7b'], Text.isWordContinue o = false := by decide
  obtain ⟨expected, hinside⟩ := hholds.reaches (_ :: below) hctx.bracketed
  have htail := GroupReader.feeds_group hconfig hkind htop hinside hholds.isInner
    (ExpressionReader.onDelivery_of_onToken (htoken ctx k pieces))
  rw [Expr.chars, hchars]
  exact (hq.reaches_primary hctx hassign hsettled hoperand).trans (.of_feeds htail)
    (Automaton.begins_cons (Signal.endsWord_ofChar (hopens o hkind.opens)))

theorem isRead_call (hconfig : config.IsUnlimited) {callee : Primary}
    (hcallee : (Expr.primary callee).IsRead config assign) {arguments : List Expr}
    (harguments : ∀ item ∈ arguments, item.IsRead config false ∧ item.isValid false 0 = true) :
    (Expr.primary (.call callee arguments)).IsRead config assign := by
  have hkind : GroupKind.arguments.IsBetween .openParen .closeParen '(' ')' :=
    ⟨rfl, by decide, by decide, by decide⟩
  refine isRead_tail hconfig hcallee hkind (.head _)
    (GroupReader.holds_items hconfig (.head _) rfl harguments) (by rw [Primary.chars])
    fun ctx k pieces => ?_
  rw [groupTree, ExpressionReader.onToken_arguments, ExpressionReader.onTail_operand rfl rfl,
    Primary.tree]
  rfl

theorem isRead_subscript (hconfig : config.IsUnlimited) {target : Primary}
    (htarget : (Expr.primary target).IsRead config assign) {index : Expr}
    (hindex : index.IsRead config false) (hvalid : index.isValid false 0 = true) :
    (Expr.primary (.subscript target index)).IsRead config assign := by
  have hkind : GroupKind.subscript.IsBetween .openBracket .closeBracket '[' ']' :=
    ⟨rfl, by decide, by decide, by decide⟩
  refine isRead_tail hconfig htarget hkind (.tail _ (.head _))
    (GroupReader.holds_inner hconfig (.tail _ (.head _)) hindex hvalid) (by rw [Primary.chars])
    fun ctx k pieces => ?_
  rw [groupTree, ExpressionReader.onToken_subscript, ExpressionReader.onTail_operand rfl rfl,
    Primary.tree]
  rfl

theorem isRead_parenthesized (hconfig : config.IsUnlimited) {inner : Expr}
    (hinner : inner.IsRead config false) (hvalid : inner.isValid false 0 = true) :
    (Expr.primary (.parenthesized inner)).IsRead config assign := by
  have hkind : GroupKind.parenthesized.IsBetween .openParen .closeParen '(' ')' :=
    ⟨rfl, by decide, by decide, by decide⟩
  refine isRead_group hconfig hkind rfl (GroupReader.holds_inner hconfig (.head _) hinner hvalid)
    (by rw [Primary.chars]) ?_
  rw [Primary.tree]
  rfl

theorem isRead_array (hconfig : config.IsUnlimited) {items : List Expr}
    (hitems : ∀ item ∈ items, item.IsRead config false ∧ item.isValid false 0 = true) :
    (Expr.primary (.array items)).IsRead config assign := by
  have hkind : GroupKind.array.IsBetween .openBracket .closeBracket '[' ']' :=
    ⟨rfl, by decide, by decide, by decide⟩
  refine isRead_group hconfig hkind rfl
    (GroupReader.holds_items hconfig (.tail _ (.head _)) rfl hitems) (by rw [Primary.chars]) ?_
  rw [Primary.tree]
  rfl

theorem isRead_dictionary (hconfig : config.IsUnlimited) {entries : List (Expr × Expr)}
    (hentries : ∀ entry ∈ entries,
      (entry.1.IsRead config false ∧ entry.1.isValid false 0 = true) ∧
        entry.2.IsRead config false ∧ entry.2.isValid false 0 = true) :
    (Expr.primary (.dictionary entries)).IsRead config assign := by
  have hkind : GroupKind.dictionary.IsBetween .openBrace .closeBrace '\x7b' '\x7d' :=
    ⟨rfl, by decide, by decide, by decide⟩
  refine isRead_group hconfig hkind rfl (GroupReader.holds_entries hconfig hentries)
    (by rw [Primary.chars]) ?_
  rw [Primary.tree]
  rfl

/-! ### Operators -/

variable {operand left right value condition alternative : Expr}

/-- What comes before an operand leaves nothing waiting. -/
theorem isSettled_append (e : Expr) (h : IsSettled pieces) :
    IsSettled (e.pieces.reverse ++ pieces) := by
  intro piece hpiece
  rcases List.mem_append.1 hpiece with hpiece | hpiece
  · exact ExpressionReader.isSettled_pieces e piece (List.mem_reverse.1 hpiece)
  · exact h piece hpiece

/-- An expression and the blank after it. -/
theorem IsRead.reaches_spaced (hconfig : config.IsUnlimited) (h : e.IsRead config assign)
    (hctx : ctx.IsPlain) (hassign : assign = true → ctx.assign = true) (hsettled : IsSettled pieces)
    (hoperand : expectsOperand pieces = true) :
    Reaches config Signal.EndsBlank (ofStack (exprReader ctx k pieces :: below)) (e.chars ++ [' '])
      (ofStack (exprReader ctx k (.trivia blank :: (e.pieces.reverse ++ pieces)) :: below)) :=
  (h ctx k pieces below hctx hassign hsettled hoperand).trans
    (ExpressionReader.reaches_blank hconfig)
    ((Automaton.begins_blank []).mono Signal.endsWord_of_isBlank)

/-- An operator, the blank after it, and its operand. -/
theorem IsRead.reaches_operated (hconfig : config.IsUnlimited) (h : e.IsRead config assign)
    (hctx : ctx.IsPlain) (hassign : assign = true → ctx.assign = true) (hsettled : IsSettled pieces)
    {k' : Nat} {op : Operation} {cs : List Char}
    (hop : Reaches config Signal.IsBlank (ofStack (exprReader ctx k pieces :: below)) cs
      (ofStack (exprReader ctx k' (.operation op t :: pieces) :: below))) :
    Reaches config Signal.EndsWord (ofStack (exprReader ctx k pieces :: below))
      (cs ++ ' ' :: e.chars)
      (ofStack (exprReader ctx k' (e.pieces.reverse ++ .trivia blank :: .operation op t :: pieces) ::
        below)) := by
  have hspaced := hop.trans (ExpressionReader.reaches_blank hconfig) (Automaton.begins_blank [])
  have hrest := h ctx k' (.trivia blank :: .operation op t :: pieces) below hctx hassign
    ((hsettled.cons rfl).cons rfl) rfl
  simpa using hspaced.trans hrest (e.begins.mono Signal.endsBlank_of_beginsExpr)

theorem isRead_prefixed (hconfig : config.IsUnlimited) (op : PrefixOperator)
    (hread : operand.IsRead config assign) : (Expr.prefixed op operand).IsRead config assign := by
  intro ctx k pieces below hctx hassign hsettled hoperand
  simpa [Expr.chars, Expr.pieces] using hread.reaches_operated hconfig hctx hassign hsettled
    (ExpressionReader.reaches_prefix hconfig hctx hsettled hoperand op)

theorem isRead_await (hconfig : config.IsUnlimited) (hread : operand.IsRead config assign) :
    (Expr.await operand).IsRead config assign := by
  intro ctx k pieces below hctx hassign hsettled hoperand
  simpa [Expr.chars, Expr.pieces] using hread.reaches_operated hconfig hctx hassign hsettled
    ((ExpressionReader.reaches_await hconfig hctx hsettled hoperand).mono
      Signal.endsWord_of_isBlank)

theorem isRead_binary (hconfig : config.IsUnlimited) (op : InfixOperator)
    (hop : op.kind.isAssignment = true → assign = true) (hleft : left.IsRead config assign)
    (hright : right.IsRead config assign) : (Expr.binary op left right).IsRead config assign := by
  intro ctx k pieces below hctx hassign hsettled hoperand
  have hbefore : IsSettled (.trivia blank :: (left.pieces.reverse ++ pieces)) :=
    (isSettled_append left hsettled).cons rfl
  have hoperator : expectsOperand (.trivia blank :: (left.pieces.reverse ++ pieces)) = false :=
    ExpressionReader.expectsOperand_pieces left pieces
  have hafter : IsSettled ((op.after.map .trivia).reverse ++
      .operation (.binary op.kind) op.token :: .trivia blank :: (left.pieces.reverse ++ pieces)) := by
    cases op with
    | spelled => exact (hbefore.cons rfl).cons rfl
    | notIn => exact (((hbefore.cons rfl).cons rfl).cons rfl).cons rfl
  have hexpects : expectsOperand ((op.after.map .trivia).reverse ++
      .operation (.binary op.kind) op.token :: .trivia blank :: (left.pieces.reverse ++ pieces)) =
        true := by
    cases op <;> rfl
  have hrest := (ExpressionReader.reaches_infix hconfig hctx hbefore hoperator op fun h =>
    hassign (hop h)).trans (hright ctx k _ below hctx hassign hafter hexpects)
      (right.begins.mono Signal.endsBlank_of_beginsExpr)
  simpa [Expr.chars, Expr.pieces] using
    (hleft.reaches_spaced hconfig hctx hassign hsettled hoperand).trans hrest
      op.begins.append.append

theorem isRead_ternary (hconfig : config.IsUnlimited) (hvalue : value.IsRead config assign)
    (hcondition : condition.IsRead config assign)
    (halternative : alternative.IsRead config assign) :
    (Expr.ternary value condition alternative).IsRead config assign := by
  intro ctx k pieces below hctx hassign hsettled hoperand
  have hopened : IsSettled (.trivia blank :: (value.pieces.reverse ++ pieces)) :=
    (isSettled_append value hsettled).cons rfl
  have hbetween : IsSettled (.trivia blank :: (condition.pieces.reverse ++ .trivia blank ::
      .operation .ternaryIf (keywordTree .ifKw) :: .trivia blank ::
        (value.pieces.reverse ++ pieces))) :=
    (isSettled_append condition ((hopened.cons rfl).cons rfl)).cons rfl
  have hif : Reaches config Signal.IsBlank
      (ofStack (exprReader ctx k (.trivia blank :: (value.pieces.reverse ++ pieces)) :: below))
      Keyword.ifKw.spelling.toList (ofStack (exprReader ctx (k + 1)
        (.operation .ternaryIf (keywordTree .ifKw) :: .trivia blank ::
          (value.pieces.reverse ++ pieces)) :: below)) :=
    (ExpressionReader.reaches_if hconfig hctx hopened
      (ExpressionReader.expectsOperand_pieces value pieces)).mono Signal.endsWord_of_isBlank
  have helse : Reaches config Signal.IsBlank
      (ofStack (exprReader ctx (k + 1) (.trivia blank :: (condition.pieces.reverse ++
        .trivia blank :: .operation .ternaryIf (keywordTree .ifKw) :: .trivia blank ::
          (value.pieces.reverse ++ pieces))) :: below))
      Keyword.elseKw.spelling.toList (ofStack (exprReader ctx k
        (.operation .ternaryElse (keywordTree .elseKw) :: .trivia blank ::
          (condition.pieces.reverse ++ .trivia blank ::
            .operation .ternaryIf (keywordTree .ifKw) :: .trivia blank ::
              (value.pieces.reverse ++ pieces))) :: below)) :=
    (ExpressionReader.reaches_else hconfig hctx hbetween
      (ExpressionReader.expectsOperand_pieces condition _)).mono Signal.endsWord_of_isBlank
  have hword : ∀ word : Keyword, Begins Signal.EndsBlank word.spelling.toList :=
    fun word => Automaton.begins_word word.isWord_spelling
  have hopenedIf := hcondition.reaches_operated hconfig hctx hassign hopened hif
  have hrest := (hopenedIf.trans (ExpressionReader.reaches_blank hconfig)
    ((Automaton.begins_blank []).mono Signal.endsWord_of_isBlank)).trans
      (halternative.reaches_operated hconfig hctx hassign hbetween helse) (hword _).append
  simpa [Expr.chars, Expr.pieces] using
    (hvalue.reaches_spaced hconfig hctx hassign hsettled hoperand).trans hrest
      (hword _).append.append.append

end Expr

/-! ### All expressions -/

mutual

/-- Every primary is read as its tree. -/
theorem Primary.isRead (hconfig : config.IsUnlimited) (assign : Bool) (p : Primary)
    (h : p.isValid = true) : (Expr.primary p).IsRead config assign := by
  match p with
  | .name name => exact Expr.isRead_name hconfig name
  | .constant constant => exact Expr.isRead_constant hconfig constant
  | .member target name =>
    rw [Primary.isValid] at h
    exact Expr.isRead_member hconfig (Primary.isRead hconfig assign target h) name
  | .call callee arguments =>
    rw [Primary.isValid, Bool.and_eq_true] at h
    exact Expr.isRead_call hconfig (Primary.isRead hconfig assign callee h.1)
      (Expr.areRead hconfig arguments h.2)
  | .subscript target index =>
    rw [Primary.isValid, Bool.and_eq_true] at h
    exact Expr.isRead_subscript hconfig (Primary.isRead hconfig assign target h.1)
      (Expr.isRead hconfig index h.2) h.2
  | .parenthesized inner =>
    rw [Primary.isValid] at h
    exact Expr.isRead_parenthesized hconfig (Expr.isRead hconfig inner h) h
  | .array items =>
    rw [Primary.isValid] at h
    exact Expr.isRead_array hconfig (Expr.areRead hconfig items h)
  | .dictionary entries =>
    rw [Primary.isValid] at h
    exact Expr.isRead_dictionary hconfig (Expr.areReadEntries hconfig entries h)

/-- Every expression that needs no brackets is read as its pieces. -/
theorem Expr.isRead (hconfig : config.IsUnlimited) {assign : Bool} {least : Nat} (e : Expr)
    (h : e.isValid assign least = true) : e.IsRead config assign := by
  match e with
  | .primary p =>
    rw [Expr.isValid] at h
    exact Primary.isRead hconfig assign p h
  | .prefixed op operand =>
    rw [Expr.isValid] at h
    exact Expr.isRead_prefixed hconfig op (Expr.isRead hconfig operand h)
  | .await operand =>
    rw [Expr.isValid] at h
    exact Expr.isRead_await hconfig (Expr.isRead hconfig operand h)
  | .binary op left right =>
    simp only [Expr.isValid, Bool.and_eq_true, Bool.or_eq_true, Bool.not_eq_true'] at h
    obtain ⟨⟨⟨⟨_, hassign⟩, hleft⟩, _⟩, hright⟩ := h
    have hop : op.kind.isAssignment = true → assign = true := fun hkind =>
      hassign.resolve_right (by simp [hkind])
    exact Expr.isRead_binary hconfig op hop (Expr.isRead hconfig left hleft)
      (Expr.isRead hconfig right hright)
  | .ternary value condition alternative =>
    simp only [Expr.isValid, Bool.and_eq_true] at h
    obtain ⟨⟨⟨⟨_, hvalue⟩, _⟩, hcondition⟩, halternative⟩ := h
    exact Expr.isRead_ternary hconfig (Expr.isRead hconfig value hvalue)
      (Expr.isRead hconfig condition hcondition) (Expr.isRead hconfig alternative halternative)

/-- Every item of a list is read as its pieces. -/
theorem Expr.areRead (hconfig : config.IsUnlimited) (items : List Expr)
    (h : Expr.areValid items = true) :
    ∀ item ∈ items, item.IsRead config false ∧ item.isValid false 0 = true := by
  match items with
  | [] => exact nofun
  | item :: rest =>
    rw [Expr.areValid, Bool.and_eq_true] at h
    exact List.forall_mem_cons.2
      ⟨⟨Expr.isRead hconfig item h.1, h.1⟩, Expr.areRead hconfig rest h.2⟩

/-- Every key and every value of a dictionary is read as its pieces. -/
theorem Expr.areReadEntries (hconfig : config.IsUnlimited) (entries : List (Expr × Expr))
    (h : Expr.areValidEntries entries = true) :
    ∀ entry ∈ entries, (entry.1.IsRead config false ∧ entry.1.isValid false 0 = true) ∧
      entry.2.IsRead config false ∧ entry.2.isValid false 0 = true := by
  match entries with
  | [] => exact nofun
  | (key, value) :: rest =>
    simp only [Expr.areValidEntries, Bool.and_eq_true] at h
    obtain ⟨⟨hkey, hvalue⟩, hrest⟩ := h
    exact List.forall_mem_cons.2 ⟨⟨⟨Expr.isRead hconfig key hkey, hkey⟩,
      Expr.isRead hconfig value hvalue, hvalue⟩, Expr.areReadEntries hconfig rest hrest⟩

end

end ScriptTree
