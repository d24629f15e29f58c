import ScriptTree.Proofs.RoundTrip.Expressions

/-!
# Expressions parse back

The text of an expression that needs no brackets parses as the tree of the expression.
-/

namespace ScriptTree

namespace Tree

mutual

/-- Whether a tree is well formed does not depend on where it stands. -/
theorem isWellFormed_placeFrom (start : Position) (t : Tree) :
    (t.placeFrom start).1.isWellFormed = t.isWellFormed := by
  match t with
  | .leaf kind s extent => simp [placeFrom]
  | .node kind form extent =>
    have h := all_isWellFormed_placeForm start form
    simp [placeFrom, h]

/-- Whether children are well formed does not depend on where they stand. -/
theorem all_isWellFormed_placeForm (start : Position) (form : List Entry) :
    (placeForm start form).1.all (fun entry => entry.2.isWellFormed) =
      form.all fun entry => entry.2.isWellFormed := by
  match form with
  | [] => simp [placeForm]
  | (role, t) :: rest =>
    have h := isWellFormed_placeFrom start t
    have hrest := all_isWellFormed_placeForm (t.placeFrom start).2 rest
    simp [placeForm, h, hrest]

end

@[simp]
theorem isWellFormed_placed (t : Tree) : t.placed.isWellFormed = t.isWellFormed :=
  isWellFormed_placeFrom .start t

@[simp]
theorem isWellFormed_ofText (kind : LeafKind) (s : String) :
    (ofText kind s).isWellFormed = (kind != .invalid) :=
  isWellFormed_leaf kind s _

@[simp]
theorem isWellFormed_ofPunct (mark : Punct) : (ofPunct mark).isWellFormed = true :=
  isWellFormed_ofText (.punct mark) _

@[simp]
theorem isWellFormed_ofForm (kind : NodeKind) (form : List Entry) :
    (ofForm kind form).isWellFormed = form.all fun entry => entry.2.isWellFormed :=
  isWellFormed_node kind form _

end Tree

@[simp]
theorem isWellFormed_blank : blank.isWellFormed = true := rfl

@[simp]
theorem isWellFormed_keywordTree (word : Keyword) : (keywordTree word).isWellFormed = true :=
  Tree.isWellFormed_ofText (.keyword word) _

@[simp]
theorem PrefixOperator.isWellFormed_token (op : PrefixOperator) : op.token.isWellFormed = true :=
  Tree.isWellFormed_ofText (.operator op.kind) _

@[simp]
theorem InfixOperator.isWellFormed_token (op : InfixOperator) : op.token.isWellFormed = true := by
  cases op <;> rfl

@[simp]
theorem InfixOperator.isWellFormed_after (op : InfixOperator) :
    ((Form.extras op.after).all fun entry => entry.2.isWellFormed) = true := by
  cases op <;> rfl

@[simp]
theorem isWellFormed_groupTree (kind : NodeKind) (opening closing : Punct) (inner : List Entry) :
    (groupTree kind opening closing inner).isWellFormed =
      inner.all fun entry => entry.2.isWellFormed := by
  simp [groupTree]

/-- A list of well-formed items is well formed. -/
theorem isWellFormed_separatedForm {α : Type} {tree : α → Tree} {items : List α}
    (h : ∀ item ∈ items, (tree item).isWellFormed = true) :
    ((separatedForm tree items).all fun entry => entry.2.isWellFormed) = true := by
  cases items with
  | nil => rfl
  | cons item rest =>
    obtain ⟨hitem, hrest⟩ := List.forall_mem_cons.1 h
    simp [separatedForm, commaForm, hitem, List.all_flatMap]
    exact hrest

mutual

/-- The tree of a primary has no text without a place. -/
theorem Primary.isWellFormed_tree (p : Primary) : p.tree.isWellFormed = true := by
  match p with
  | .name name => simp [Primary.tree]
  | .constant constant => simp [Primary.tree]
  | .member target name =>
    have htarget := target.isWellFormed_tree
    simp [Primary.tree, htarget]
  | .call callee arguments =>
    have hcallee := callee.isWellFormed_tree
    have harguments := isWellFormed_separatedForm (Expr.areWellFormed_tree arguments)
    rw [← Expr.formOfItems_eq] at harguments
    simpa [Primary.tree, hcallee] using harguments
  | .subscript target index =>
    have htarget := target.isWellFormed_tree
    have hindex := index.isWellFormed_tree
    simp [Primary.tree, htarget, hindex]
  | .parenthesized inner =>
    have hinner := inner.isWellFormed_tree
    simp [Primary.tree, hinner]
  | .array items =>
    have hitems := isWellFormed_separatedForm (Expr.areWellFormed_tree items)
    rw [← Expr.formOfItems_eq] at hitems
    simpa [Primary.tree] using hitems
  | .dictionary entries =>
    have hentries := isWellFormed_separatedForm (Expr.areWellFormed_treeOfEntry entries)
    rw [← Expr.formOfEntries_eq] at hentries
    simpa [Primary.tree] using hentries

/-- The tree of an expression has no text without a place. -/
theorem Expr.isWellFormed_tree (e : Expr) : e.tree.isWellFormed = true := by
  match e with
  | .primary p =>
    rw [Expr.tree]
    exact p.isWellFormed_tree
  | .prefixed op operand =>
    have hoperand := operand.isWellFormed_tree
    simp [Expr.tree, hoperand]
  | .await operand =>
    have hoperand := operand.isWellFormed_tree
    simp [Expr.tree, hoperand]
  | .binary op left right =>
    have hleft := left.isWellFormed_tree
    have hright := right.isWellFormed_tree
    simp [Expr.tree, hleft, hright]
  | .ternary value condition alternative =>
    have hvalue := value.isWellFormed_tree
    have hcondition := condition.isWellFormed_tree
    have halternative := alternative.isWellFormed_tree
    simp [Expr.tree, hvalue, hcondition, halternative]

/-- The trees of items have no text without a place. -/
theorem Expr.areWellFormed_tree (items : List Expr) :
    ∀ item ∈ items, item.tree.isWellFormed = true := by
  match items with
  | [] => exact nofun
  | item :: rest =>
    exact List.forall_mem_cons.2 ⟨item.isWellFormed_tree, Expr.areWellFormed_tree rest⟩

/-- The trees of entries have no text without a place. -/
theorem Expr.areWellFormed_treeOfEntry (entries : List (Expr × Expr)) :
    ∀ entry ∈ entries, (Expr.treeOfEntry entry).isWellFormed = true := by
  match entries with
  | [] => exact nofun
  | (key, value) :: rest =>
    have hkey := key.isWellFormed_tree
    have hvalue := value.isWellFormed_tree
    refine List.forall_mem_cons.2 ⟨?_, Expr.areWellFormed_treeOfEntry rest⟩
    simp [Expr.treeOfEntry, keyValueTree, hkey, hvalue]

end

/-- The tree of a text that holds nothing but an expression. -/
def Expr.statementTree (e : Expr) : Tree :=
  .ofForm .expressionStatement [(.slot .expression, e.tree)]

/-- A text that is nothing but an expression is read from its first character to its end. -/
theorem reaches_root {config : Config} (hconfig : config.IsUnlimited) {e : Expr}
    (h : e.isValid true 0 = true) :
    Automaton.Reaches config (Signal.EndsExpr .standalone) (.ofStack [.root {}]) e.chars
      (.ofStack [.root { form := [(.slot .expression, e.tree)], begun := true }]) := by
  have hplain : Context.standalone.IsPlain := ⟨rfl, rfl⟩
  obtain ⟨htrivia, hinvalid, _⟩ := e.tree_kind
  have htop : ∀ signal, Signal.BeginsExpr signal → (Reader.root {}).onSignal config signal =
      .ok ⟨.root { begun := true }, .enter (.expression { ctx := .standalone }), {}⟩ := by
    intro signal hsignal
    obtain ⟨c, rfl, hblank, hstart, _⟩ := hsignal.exists_char hplain
    have htrivia : TriviaStart.bracketed? (.char c) = none := TriviaStart.at?_char true hblank
    simp [Reader.onSignal, RootReader.onSignal, htrivia, hstart, Reaction.map]
  have hplace : Form.place .expressionStatement .expression e.tree [] =
      .ok [(.slot .expression, e.tree)] :=
    Form.place_of_appends _ rfl (Form.appends_nil _ _)
  have hunfilled : Form.isFilled .expression ([] : List Entry) = false := rfl
  refine (Expr.isRead hconfig e h).reaches hconfig h hplain (fun _ => rfl) htop ?_
  simp [Reader.onDelivery, RootReader.onDelivery, RootReader.pushExtras, RootReader.onToken?,
    RootReader.onToken, htrivia, hinvalid, hunfilled, hplace]
  rfl

/-- An expression that needs no brackets parses back: its text has exactly its tree, of which every
leaf has a place. -/
theorem parse_print {config : Config} (hconfig : config.IsUnlimited) (e : Expr)
    (h : e.isValid true 0 = true) :
    parse .expression config e.print = .ok e.statementTree.placed ∧
      e.statementTree.placed.isWellFormed = true := by
  constructor
  · have hreaches := reaches_root hconfig h
    rw [← String.toList_ofList (l := e.chars)] at hreaches
    refine Automaton.Reaches.parse_eq hconfig .expression hreaches trivial
      (Automaton.delivers_endOfText rfl rfl) ?_
    simp [Entrance.rootOf, Entrance.surround, RootReader.finish, Expr.statementTree]
    rfl
  · simp [Expr.statementTree, e.isWellFormed_tree]

/-- An assignment of a conditional value, with a member, an array, a dictionary and a call. -/
theorem parse_print_conditional : ∃ e : Expr,
    e.print = "x += not a.b in [c, true] if - d else \x7bk: f()\x7d" ∧ e.isValid true 0 = true ∧
      parse .expression .unlimited e.print = .ok e.statementTree.placed ∧
        e.statementTree.placed.isWellFormed = true := by
  refine ⟨.binary (.spelled "+=" .addAssign rfl) (.primary (.name ⟨"x", by decide, by decide⟩))
    (.ternary (.prefixed ⟨"not", .not, rfl⟩ (.binary (.spelled "in" .containedIn rfl)
        (.primary (.member (.name ⟨"a", by decide, by decide⟩) ⟨"b", by decide, by decide⟩))
        (.primary (.array [.primary (.name ⟨"c", by decide, by decide⟩),
          .primary (.constant ⟨.trueKw, rfl⟩)]))))
      (.prefixed ⟨"-", .negate, rfl⟩ (.primary (.name ⟨"d", by decide, by decide⟩)))
      (.primary (.dictionary [(.primary (.name ⟨"k", by decide, by decide⟩),
        .primary (.call (.name ⟨"f", by decide, by decide⟩) []))]))), by cbv, by cbv, ?_⟩
  exact parse_print ⟨rfl, rfl⟩ _ (by cbv)

end ScriptTree
