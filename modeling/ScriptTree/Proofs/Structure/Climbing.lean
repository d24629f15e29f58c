import ScriptTree.Proofs.Structure.Pieces

/-!
# Precedence climbing keeps operators in order

An operand that is being built ends where the next operator binds too loosely, and that operator
binds more loosely than everything at the right end of the operand asked for. So whoever takes the
operand as its first one finds nothing inside that could have taken the operator instead. Fuel of
twice the number of pieces is enough for every operand to end there and not earlier.
-/

namespace ScriptTree

namespace Form

variable {slot : Slot} {role : Role} {t : Tree} {rest : List Entry} {tokens : List Tree}

@[simp]
theorem occupant?_nil (slot : Slot) : occupant? slot ([] : List Entry) = none := rfl

@[simp]
theorem occupant?_cons :
    occupant? slot ((role, t) :: rest) =
      if role = .slot slot then some t else occupant? slot rest := by
  by_cases h : role = .slot slot
  · simp [occupant?, h]
  · simp [occupant?, h, beq_eq_false_iff_ne.2 h]

@[simp]
theorem occupant?_append (form rest : List Entry) :
    occupant? slot (form ++ rest) = (occupant? slot form).or (occupant? slot rest) := by
  simp [occupant?, Option.map_or]

@[simp]
theorem occupant?_extras (tokens : List Tree) : occupant? slot (extras tokens) = none := by
  induction tokens with
  | nil => rfl
  | cons t tokens ih => simp [ih]

/-- A slot is filled if it has an occupant. -/
theorem isFilled_eq_isSome (slot : Slot) (form : List Entry) :
    isFilled slot form = (occupant? slot form).isSome := by
  rw [Bool.eq_iff_iff]
  simp [isFilled, occupant?]

end Form

namespace Tree

/-- The left end of a slot is that of its occupant. -/
theorem leftRanksAt_eq (slot : Slot) (form : List Entry) :
    leftRanksAt slot form = ((Form.occupant? slot form).map leftRanks).getD [] := by
  induction form with
  | nil => simp [leftRanksAt]
  | cons entry rest ih =>
    obtain ⟨role, t⟩ := entry
    rw [leftRanksAt, Form.occupant?_cons]
    split
    · rfl
    · exact ih

/-- The right end of a slot is that of its occupant. -/
theorem rightMinimaAt_eq (slot : Slot) (form : List Entry) :
    rightMinimaAt slot form = ((Form.occupant? slot form).map rightMinima).getD [] := by
  induction form with
  | nil => simp [rightMinimaAt]
  | cons entry rest ih =>
    obtain ⟨role, t⟩ := entry
    rw [rightMinimaAt, Form.occupant?_cons]
    split
    · rfl
    · exact ih

end Tree

namespace Climbed

open Piece

variable {a : Allowance} {least precedence : Nat} {left right operand c : Climbed}
  {before gap : List Tree} {token : Tree} {kind : NodeKind} {form : List Entry}
  {pieces rest : List Piece} {op : OperatorKind} {max? : Option Nat} {fuel frames : Nat}

/-- An operand that may go on. The next operator, if it finds an operand of its own, binds more
loosely than everything at the right end asked for. -/
structure Built (a : Allowance) (least : Nat) (c : Climbed) : Prop where
  before : Form.Tidy a (Form.extras c.before)
  regular : c.token.Regular
  ranks : ∀ rank ∈ c.token.leftRanks, least ≤ rank
  behind : Behind c.rest
  order : ∀ p ∈ pending? c.rest, ∀ minimum ∈ c.token.rightMinima, p < minimum

/-- An operand that has ended: the next operator binds too loosely to go on with it. -/
structure Complete (a : Allowance) (least : Nat) (c : Climbed) : Prop extends Built a least c where
  stops : ∀ p ∈ pending? c.rest, p < least

/-- What comes of pieces: an operand if one comes next, which takes some of them. -/
def Builds (pieces : List Piece) (P : Climbed → Prop) (result : Option Climbed) : Prop :=
  result.isSome = startsOperand pieces ∧
    ∀ c ∈ result, P c ∧ c.rest.length < pieces.length

/-! ### Nodes of operators -/

/-- A node that is put together is the operand. -/
theorem assemble_promises :
    Promises (assemble before kind form rest) (· = ⟨before, .ofForm kind form, rest⟩) := by
  have htree : Promises (ParseError.ofTree (Tree.assemble kind form)) (· = .ofForm kind form) :=
    Promises.mapError ((promises_true _).bind fun _ _ => promises_pure.2 rfl)
  exact htree.bind fun t ht => promises_pure.2 (by rw [ht])

/-- The entries of an operand are tidy where the trivia before it are. -/
theorem Built.tidy_entries (h : c.Built a least) (slot : Slot) : Form.Tidy a (c.entries slot) :=
  Form.tidy_append.2 ⟨h.before, Form.tidy_singleton (by simp) h.regular⟩

/-- The entries of a leaf are tidy where the trivia before it are. -/
theorem tidy_leafEntries (hgap : Form.Tidy a (Form.extras gap)) (slot : Slot) (ht : token.IsLeaf) :
    Form.Tidy a (leafEntries slot gap token) :=
  Form.tidy_append.2 ⟨hgap, Form.tidy_singleton (by simp) ht.regular⟩

/-- After the leaf of an operator comes what may come after the operator. -/
theorem allowance_le_next (hsuits : (Operation.binary op).Suits token) (a : Allowance) :
    (Operation.binary op).allowance.Le (a.next (.slot .operator, token)) := by
  refine ⟨fun hword => ?_, nofun⟩
  obtain rfl : op = .notContainedIn := by simpa [Operation.allowance] using hword
  simp [Allowance.next, hsuits.1]

/-- An operator between operands is a regular node, if nothing at the right end of the first one
could have taken the operator. -/
theorem dual_regular {left : Tree} (hsuits : (Operation.binary op).Suits token)
    (hprecedence : op.binaryPrecedence? = some precedence) (hleft : left.Regular)
    (hgap : Form.Tidy {} (Form.extras gap))
    (horder : ∀ minimum ∈ left.rightMinima, precedence < minimum)
    (hright : right.Built (Operation.binary op).allowance (op.rightPrecedence precedence)) :
    let t := Tree.ofForm .dualOperator
      ((.slot .left, left) :: leafEntries .operator gap token ++ right.entries .right)
    t.Regular ∧ t.leftRanks = precedence :: left.leftRanks ∧
      t.rightMinima = op.rightPrecedence precedence :: right.token.rightMinima := by
  intro t
  have hleftSlot : Form.occupant? .left t.form = some left := by simp [t, Tree.ofForm, Tree.form]
  have hrightSlot : Form.occupant? .right t.form = some right.token := by
    simp [t, Tree.ofForm, Tree.form, leafEntries, entries]
  have hoperator : Form.operator? t.form = some op := by
    simp [t, Tree.ofForm, Tree.form, Form.operator?, leafEntries, hsuits.1]
  have htidy : Form.Tidy {} t.form := by
    refine Form.tidy_append.2 ⟨Form.tidy_cons.2 ⟨.inl (by simp), hleft, ?_⟩, ?_⟩
    · exact tidy_leafEntries (hgap.of_le (Allowance.le_of_default _)) _ hsuits.isLeaf
    · refine (hright.tidy_entries .right).of_le ?_
      rw [List.foldl_cons, leafEntries, List.foldl_append]
      exact allowance_le_next hsuits {}
  have hform : Form.Suits .dualOperator t.form := by
    refine Form.suits_of_declared ?_ ?_ <;> simp [t, Tree.ofForm, Tree.form, leafEntries, entries]
    decide
  refine ⟨.node _ ⟨⟨htidy.fit, ?_, hform⟩, by simp, htidy.loose⟩ htidy.regular, ?_, ?_⟩
  · exact ⟨op, precedence, left, right.token, hoperator, hprecedence, hleftSlot, hrightSlot,
      horder, hright.ranks⟩
  · change ((Form.operator? t.form).bind OperatorKind.binaryPrecedence?).toList ++
      Tree.leftRanksAt .left t.form = _
    simp [hoperator, hprecedence, Tree.leftRanksAt_eq, hleftSlot]
  · change ((Form.operator? t.form).bind fun op =>
      op.binaryPrecedence?.map op.rightPrecedence).toList ++ Tree.rightMinimaAt .right t.form = _
    simp [hoperator, hprecedence, Tree.rightMinimaAt_eq, hrightSlot]

/-- A ternary, complete or not, is a regular node, if nothing at the right end of its first operand
could have taken the `if`. Only a ternary with a last operand has operators at its right end. -/
theorem ternary_regular {left : Tree} {more : List Entry} (htoken : token.IsLeaf)
    (hleft : left.Regular) (hgap : Form.Tidy {} (Form.extras gap))
    (horder : ∀ minimum ∈ left.rightMinima, OperatorKind.ternaryPrecedence < minimum)
    (hmore : Form.Tidy {} more) (hdeclared : Form.Declared .ternary more)
    (hslots : (Form.slots more).Sublist [.condition, .elseKeyword, .falseValue])
    (hcondition : ∀ condition ∈ Form.occupant? .condition more,
      ∀ rank ∈ condition.leftRanks, OperatorKind.ternaryPrecedence + 1 ≤ rank)
    (hvalue : ∀ value ∈ Form.occupant? .falseValue more,
      ∀ rank ∈ value.leftRanks, OperatorKind.ternaryPrecedence ≤ rank) :
    let t := Tree.ofForm .ternary
      ((.slot .trueValue, left) :: leafEntries .ifKeyword gap token ++ more)
    t.Regular ∧ t.leftRanks = OperatorKind.ternaryPrecedence :: left.leftRanks ∧
      t.rightMinima = ((Form.occupant? .falseValue more).map fun value =>
        OperatorKind.ternaryPrecedence :: value.rightMinima).getD [] := by
  intro t
  have hleftSlot : Form.occupant? .trueValue t.form = some left := by
    simp [t, Tree.ofForm, Tree.form]
  have hslot (slot : Slot) (hne : slot ≠ .trueValue ∧ slot ≠ .ifKeyword) :
      Form.occupant? slot t.form = Form.occupant? slot more := by
    simp [t, Tree.ofForm, Tree.form, leafEntries, hne.1.symm, hne.2.symm]
  have htidy : Form.Tidy {} t.form := by
    refine Form.Tidy.append (Form.tidy_cons.2 ⟨.inl (by simp), hleft, ?_⟩) hmore
    exact tidy_leafEntries (hgap.of_le (Allowance.le_of_default _)) _ htoken
  have hall : Form.slots t.form = .trueValue :: .ifKeyword :: Form.slots more := by
    simp [t, Tree.ofForm, Tree.form, leafEntries]
  have hform : Form.Suits .ternary t.form := by
    refine Form.suits_of_declared ?_ ?_
    · simpa [t, Tree.ofForm, Tree.form, leafEntries, hdeclared] using by decide
    · rw [hall]
      exact List.Nodup.sublist ((hslots.cons_cons _).cons_cons _) (by decide)
  refine ⟨.node _ ⟨⟨htidy.fit, ?_, hform⟩, by simp, htidy.loose⟩ htidy.regular, ?_, ?_⟩
  · exact ⟨left, hleftSlot, horder,
      fun condition h => hcondition condition (hslot .condition (by decide) ▸ h),
      fun value h => hvalue value (hslot .falseValue (by decide) ▸ h)⟩
  · change OperatorKind.ternaryPrecedence :: Tree.leftRanksAt .trueValue t.form = _
    simp [Tree.leftRanksAt_eq, hleftSlot]
  · change (if Form.isFilled .falseValue t.form then
      OperatorKind.ternaryPrecedence :: Tree.rightMinimaAt .falseValue t.form else []) = _
    rw [Form.isFilled_eq_isSome, Tree.rightMinimaAt_eq, hslot .falseValue (by decide)]
    cases Form.occupant? .falseValue more <;> rfl

/-- The node of an operator before its operand. -/
theorem single_regular (hsuits : (Operation.unary op).Suits token)
    (hprecedence : op.unaryPrecedence? = some precedence)
    (hoperand : operand.Built {} precedence) :
    let t := Tree.ofForm .singleOperator ((.slot .operator, token) :: operand.entries .operand)
    t.Regular ∧ t.leftRanks = [] ∧ t.rightMinima = precedence :: operand.token.rightMinima := by
  intro t
  have hslot : Form.occupant? .operand ((.slot .operator, token) :: operand.entries .operand) =
      some operand.token := by
    simp [entries]
  have hoperator :
      Form.operator? ((.slot .operator, token) :: operand.entries .operand) = some op := by
    simp [Form.operator?, hsuits.1]
  have htidy : Form.Tidy {} ((.slot .operator, token) :: operand.entries .operand) :=
    Form.tidy_cons.2 ⟨.inl (by simp), hsuits.isLeaf.regular,
      (hoperand.tidy_entries .operand).of_le (Allowance.le_of_default _)⟩
  have hform : Form.Suits .singleOperator
      ((.slot .operator, token) :: operand.entries .operand) := by
    refine Form.suits_of_declared ?_ ?_ <;> simp [entries]
    decide
  refine ⟨.node _ ⟨⟨htidy.fit, ?_, hform⟩, by simp, htidy.loose⟩ htidy.regular, ?_, ?_⟩
  · exact ⟨op, precedence, operand.token, hoperator, hprecedence, hslot, hoperand.ranks⟩
  · simp [t, Tree.ofForm, Tree.leftRanks]
  · simp [t, Tree.ofForm, Tree.rightMinima, hoperator, hprecedence, Tree.rightMinimaAt_eq, hslot]

/-- The node of an `await`. -/
theorem await_regular (hsuits : Operation.await.Suits token)
    (hoperand : operand.Built {} OperatorKind.awaitPrecedence) :
    let t := Tree.ofForm .await ((.slot .keyword, token) :: operand.entries .operand)
    t.Regular ∧ t.leftRanks = [] ∧
      t.rightMinima = OperatorKind.awaitPrecedence :: operand.token.rightMinima := by
  intro t
  have hslot : Form.occupant? .operand ((.slot .keyword, token) :: operand.entries .operand) =
      some operand.token := by
    simp [entries]
  have htidy : Form.Tidy {} ((.slot .keyword, token) :: operand.entries .operand) :=
    Form.tidy_cons.2 ⟨.inl (by simp), hsuits.isLeaf.regular,
      (hoperand.tidy_entries .operand).of_le (Allowance.le_of_default _)⟩
  have hform : Form.Suits .await ((.slot .keyword, token) :: operand.entries .operand) := by
    refine Form.suits_of_declared ?_ ?_ <;> simp [entries]
    decide
  refine ⟨.node _ ⟨⟨htidy.fit, ?_, hform⟩, by simp, htidy.loose⟩ htidy.regular, ?_, ?_⟩
  · exact ⟨operand.token, hslot, hoperand.ranks⟩
  · simp [t, Tree.ofForm, Tree.leftRanks]
  · simp [t, Tree.ofForm, Tree.rightMinima, Tree.rightMinimaAt_eq, hslot]

/-! ### Building operands -/

/-- Operands with this much fuel end where they should. -/
def ClimbBuilds (max? : Option Nat) (fuel : Nat) : Prop :=
  ∀ {a frames least pieces}, Ordered a true pieces → 2 * pieces.length + 1 ≤ fuel →
    Promises (climb max? fuel frames least pieces) (Builds pieces (Complete a least))

/-- Single operands with this much fuel may be extended. -/
def PrimaryBuilds (max? : Option Nat) (fuel : Nat) : Prop :=
  ∀ {a frames pieces}, Ordered a true pieces → 2 * pieces.length ≤ fuel →
    Promises (primary max? fuel frames pieces) (Builds pieces fun c => ∀ least, c.Built a least)

/-- Operands that are extended with this much fuel end where they should. -/
def ExtendBuilds (max? : Option Nat) (fuel : Nat) : Prop :=
  ∀ {a frames least left}, Built a least left → 2 * left.rest.length ≤ fuel →
    Promises (extend max? fuel frames least left) fun c =>
      c.Complete a least ∧ c.rest.length ≤ left.rest.length

/-- The trivia that are skipped are not counted. -/
theorem length_of_skipTrivia (h : skipTrivia pieces = (gap, rest)) :
    pieces.length = gap.length + rest.length := by
  rw [eq_of_skipTrivia h, List.length_append, List.length_map]

/-- No trivia are left where they are skipped. -/
theorem skipTrivia_ne (pieces : List Piece) {t : Tree} :
    skipTrivia pieces ≠ (gap, .trivia t :: rest) := by
  induction pieces generalizing gap with
  | nil => nofun
  | cons piece more ih =>
    cases piece with
    | trivia t' =>
      intro h
      exact ih (Prod.ext rfl (Prod.mk.inj h).2)
    | _ => nofun

/-- An operand with an operator before it ends where its own operand does. -/
theorem Complete.built_of_node {t : Tree} (h : operand.Complete {} precedence)
    (hbefore : Form.Tidy a (Form.extras before))
    (ht : t.Regular ∧ t.leftRanks = [] ∧ t.rightMinima = precedence :: operand.token.rightMinima)
    (least : Nat) : Built a least ⟨before, t, operand.rest⟩ where
  before := hbefore
  regular := ht.1
  ranks := by simp [ht.2.1]
  behind := h.behind
  order p hp minimum hminimum := by
    rw [ht.2.2] at hminimum
    rcases List.mem_cons.1 hminimum with rfl | hminimum
    · exact h.stops p hp
    · exact h.order p hp minimum hminimum

/-- An operator before its operand, if pieces come next that an operand begins with. -/
theorem prefixed_builds {form : Climbed → List Entry} (hbefore : Form.Tidy a (Form.extras before))
    (hstarts : startsOperand pieces = startsOperand rest) (hlength : rest.length < pieces.length)
    (hoperand : Promises (climb max? fuel frames precedence rest)
      (Builds rest (Complete {} precedence)))
    (hnode : ∀ operand : Climbed, operand.Built {} precedence →
      (Tree.ofForm kind (form operand)).Regular ∧
        (Tree.ofForm kind (form operand)).leftRanks = [] ∧
        (Tree.ofForm kind (form operand)).rightMinima =
          precedence :: operand.token.rightMinima) :
    Promises (do
      match ← climb max? fuel frames precedence rest with
      | none => return none
      | some operand => return some (← assemble before kind (form operand) operand.rest))
      (Builds pieces fun c => ∀ least, c.Built a least) := by
  refine hoperand.bind fun result hresult => ?_
  obtain ⟨hsome, hresult⟩ := hresult
  cases result with
  | none => exact promises_pure.2 ⟨hsome.trans hstarts.symm, nofun⟩
  | some operand =>
    obtain ⟨hcomplete, hless⟩ := hresult operand rfl
    refine assemble_promises.bind fun c hc => promises_pure.2 ⟨hsome.trans hstarts.symm, ?_⟩
    intro c' hc'
    obtain rfl := Option.mem_some_iff.1 hc'
    subst hc
    exact ⟨hcomplete.built_of_node hbefore (hnode operand hcomplete.toBuilt),
      Nat.lt_trans hless hlength⟩

/-- A single operand, or an operator with its operand. -/
theorem primary_builds (hclimb : ClimbBuilds max? fuel) : PrimaryBuilds max? (fuel + 1) := by
  intro a frames pieces horder hfuel
  rcases hskip : skipTrivia pieces with ⟨before, more⟩
  obtain ⟨hbefore, hmore⟩ := tidy_of_skipTrivia horder hskip
  have hstarts := startsOperand_of_skipTrivia hskip
  have hlength := length_of_skipTrivia hskip
  rw [primary, hskip]
  cases more with
  | nil => exact promises_ok.2 ⟨by rw [hstarts]; rfl, by simp⟩
  | cons piece rest =>
    rw [List.length_cons] at hlength
    cases piece with
    | operand token =>
      obtain ⟨⟨_, hoperand, hregular⟩, hrest⟩ := hmore
      obtain ⟨hranks, hminima⟩ := Tree.ends_of_isOperand (Tree.isOperand_of_isLooseOperand hoperand)
      refine promises_ok.2 ⟨by rw [hstarts]; rfl, fun c hc => ?_⟩
      obtain rfl := Option.mem_some_iff.1 hc
      exact ⟨fun least => ⟨hbefore, hregular, by simp [hranks], .inl hrest, by simp [hminima]⟩,
        by dsimp only; omega⟩
    | operation op token =>
      obtain ⟨⟨hstands, hsuits⟩, hrest⟩ := hmore
      cases op with
      | unary op =>
        obtain ⟨precedence, hprecedence⟩ := Option.isSome_iff_exists.1 hsuits.2
        simp only [hprecedence, Option.getD_some]
        exact prefixed_builds hbefore hstarts (by omega) (hclimb hrest (by omega)) fun operand =>
          single_regular hsuits hprecedence
      | await =>
        exact prefixed_builds hbefore hstarts (by omega) (hclimb hrest (by omega)) fun operand =>
          await_regular hsuits
      | binary | ternaryIf | ternaryElse => cases hstands
    | trivia t => exact absurd hskip (skipTrivia_ne pieces)
    | point t | negation t => exact False.elim hmore.1

/-- What stands behind an operand begins with trivia and then an operator after operands, if any
piece follows that may go on with the operand. -/
theorem Behind.ordered (h : Behind pieces) {operation : Operation}
    (hskip : skipTrivia pieces = (gap, .operation operation token :: rest))
    (hleads : operation.leads = false) :
    Form.Tidy {} (Form.extras gap) ∧ operation.Suits token ∧
      Ordered operation.allowance true rest := by
  rcases h with h | ⟨h, _⟩
  · obtain ⟨hgap, hpiece, hrest⟩ := tidy_of_skipTrivia h hskip
    exact ⟨hgap, hpiece.2, hrest⟩
  · obtain ⟨_, hpiece, _⟩ := tidy_of_skipTrivia h hskip
    rw [hpiece.1] at hleads
    cases hleads

/-- An operand ends where no operator goes on with it. -/
theorem Built.complete (h : left.Built a least) (hstops : ∀ p ∈ pending? left.rest, p < least) :
    left.Complete a least ∧ left.rest.length ≤ left.rest.length :=
  ⟨⟨h, hstops⟩, Nat.le_refl _⟩

/-- A node that takes the operand as its first one stands in its place. -/
theorem Built.of_node (h : left.Built a least) {t : Tree} {rank : Nat} (ht : t.Regular)
    (hranks : t.leftRanks = rank :: left.token.leftRanks) (hleast : least ≤ rank)
    (hbehind : Behind rest)
    (horder : ∀ p ∈ pending? rest, ∀ minimum ∈ t.rightMinima, p < minimum) :
    Built a least ⟨left.before, t, rest⟩ where
  before := h.before
  regular := ht
  ranks := by
    rw [hranks]
    exact List.forall_mem_cons.2 ⟨hleast, h.ranks⟩
  behind := hbehind
  order := horder

/-- What comes behind the `if` of a ternary, and the pieces behind it: the operands bind as tightly
as the ternary asks for, and the next operator more loosely than the last one does. -/
structure Arms (more : List Entry) (rest : List Piece) : Prop where
  tidy : Form.Tidy {} more
  declared : Form.Declared .ternary more
  slots : (Form.slots more).Sublist [.condition, .elseKeyword, .falseValue]
  condition : ∀ condition ∈ Form.occupant? .condition more,
    ∀ rank ∈ condition.leftRanks, OperatorKind.ternaryPrecedence + 1 ≤ rank
  value : ∀ value ∈ Form.occupant? .falseValue more,
    ∀ rank ∈ value.leftRanks, OperatorKind.ternaryPrecedence ≤ rank
  behind : Behind rest
  order : ∀ p ∈ pending? rest, ∀ value ∈ Form.occupant? .falseValue more,
    ∀ minimum ∈ OperatorKind.ternaryPrecedence :: value.rightMinima, p < minimum

/-- No operand has to come behind an `if`. -/
theorem arms_nil (hbehind : Behind rest) : Arms [] rest :=
  ⟨Form.tidy_nil _, by simp, by simp, nofun, nofun, hbehind, nofun⟩

/-- A condition may come without an `else`. -/
theorem Complete.arms {condition : Climbed}
    (h : condition.Complete {} (OperatorKind.ternaryPrecedence + 1)) :
    Arms (condition.entries .condition) condition.rest where
  tidy := h.tidy_entries .condition
  declared := by simp [entries]; decide
  slots := by simp [entries]
  condition := by simpa [entries] using h.ranks
  value := by simp [entries]
  behind := h.behind
  order := by simp [entries]

/-- An `else` may come without an operand. -/
theorem Complete.arms_else {condition : Climbed}
    (h : condition.Complete {} (OperatorKind.ternaryPrecedence + 1))
    (hgap : Form.Tidy {} (Form.extras gap)) (htoken : token.IsLeaf) (hbehind : Behind rest) :
    Arms (condition.entries .condition ++ leafEntries .elseKeyword gap token) rest where
  tidy := (h.tidy_entries .condition).append (tidy_leafEntries hgap .elseKeyword htoken)
  declared := by simp [entries, leafEntries]; decide
  slots := by simp [entries, leafEntries]
  condition := by simpa [entries, leafEntries] using h.ranks
  value := by simp [entries, leafEntries]
  behind := hbehind
  order := by simp [entries, leafEntries]

/-- The last operand of a complete ternary is complete as well. -/
theorem Complete.arms_value {condition value : Climbed}
    (h : condition.Complete {} (OperatorKind.ternaryPrecedence + 1))
    (hgap : Form.Tidy {} (Form.extras gap)) (htoken : token.IsLeaf)
    (hvalue : value.Complete {} OperatorKind.ternaryPrecedence) :
    Arms (condition.entries .condition ++ leafEntries .elseKeyword gap token ++
      value.entries .falseValue) value.rest where
  tidy := ((h.tidy_entries .condition).append (tidy_leafEntries hgap .elseKeyword htoken)).append
    (hvalue.tidy_entries .falseValue)
  declared := by simp [entries, leafEntries]; decide
  slots := by simp [entries, leafEntries]
  condition := by simpa [entries, leafEntries] using h.ranks
  value := by simpa [entries, leafEntries] using hvalue.ranks
  behind := hvalue.behind
  order p hp := by
    simpa [entries, leafEntries] using ⟨hvalue.stops p hp, hvalue.order p hp⟩

/-- A longer operand is extended from where it ends. -/
theorem ExtendBuilds.from (hextend : ExtendBuilds max? fuel) (h : c.Built a least) {n : Nat}
    (hlength : c.rest.length < n) (hfuel : 2 * n ≤ fuel + 1) :
    Promises (extend max? fuel frames least c) fun c =>
      c.Complete a least ∧ c.rest.length ≤ n :=
  (hextend h (by omega)).mono fun _ hc => ⟨hc.1, Nat.le_trans hc.2 (Nat.le_of_lt hlength)⟩

/-- An operator between operands takes the operand before it, if it binds tightly enough and finds
an operand of its own. -/
theorem extend_binary_builds (hclimb : ClimbBuilds max? fuel) (hextend : ExtendBuilds max? fuel)
    (h : left.Built a least)
    (hskip : skipTrivia left.rest = (gap, .operation (.binary op) token :: rest))
    (hfuel : 2 * left.rest.length ≤ fuel + 1) :
    Promises (extend max? (fuel + 1) frames least left) fun c =>
      c.Complete a least ∧ c.rest.length ≤ left.rest.length := by
  obtain ⟨hgap, hsuits, hrest⟩ := h.behind.ordered hskip rfl
  obtain ⟨precedence, hprecedence⟩ := Option.isSome_iff_exists.1 hsuits.2.1
  have hlength := length_of_skipTrivia hskip
  rw [List.length_cons] at hlength
  have hpending : pending? left.rest = if startsOperand rest then some precedence else none := by
    simp [pending?, hskip, hprecedence]
  rw [extend, hskip]
  simp only [hprecedence]
  split
  · rename_i hless
    refine promises_ok.2 (h.complete fun p hp => ?_)
    rw [hpending] at hp
    split at hp
    · rwa [← Option.mem_some_iff.1 hp]
    · cases hp
  · rename_i hleast
    refine (hclimb hrest (by omega)).bind fun result hresult => ?_
    obtain ⟨hsome, hresult⟩ := hresult
    cases result with
    | none =>
      refine promises_pure.2 (h.complete fun p hp => ?_)
      rw [hpending, ← hsome] at hp
      cases hp
    | some right =>
      obtain ⟨hright, hless⟩ := hresult right rfl
      have hstarts : pending? left.rest = some precedence := by rw [hpending, ← hsome]; rfl
      obtain ⟨hregular, hranks, hminima⟩ := dual_regular hsuits hprecedence h.regular hgap
        (h.order precedence hstarts) hright.toBuilt
      refine assemble_promises.bind fun c hc => ?_
      subst hc
      refine hextend.from (h.of_node hregular hranks (Nat.le_of_not_lt hleast) hright.behind
        fun p hp => ?_) (by dsimp only; omega) hfuel
      rw [hminima]
      exact List.forall_mem_cons.2 ⟨hright.stops p hp, hright.order p hp⟩

/-- A ternary of any completeness goes on as the first operand of what comes behind it. -/
theorem ternary_extends (hextend : ExtendBuilds max? fuel) (h : left.Built a least)
    (hgap : Form.Tidy {} (Form.extras gap))
    (hpending : pending? left.rest = some OperatorKind.ternaryPrecedence) (htoken : token.IsLeaf)
    (hleast : least ≤ OperatorKind.ternaryPrecedence) {more : List Entry} {behind : List Piece}
    (hmore : Arms more behind) (hless : behind.length < left.rest.length)
    (hfuel : 2 * left.rest.length ≤ fuel + 1) :
    Promises (assemble left.before .ternary
      ((.slot .trueValue, left.token) :: leafEntries .ifKeyword gap token ++ more) behind >>=
        extend max? fuel frames least)
      fun c => c.Complete a least ∧ c.rest.length ≤ left.rest.length := by
  obtain ⟨hregular, hranks, hminima⟩ := ternary_regular htoken h.regular hgap
    (h.order _ hpending) hmore.tidy hmore.declared hmore.slots hmore.condition hmore.value
  refine assemble_promises.bind fun c hc => ?_
  subst hc
  refine hextend.from (h.of_node hregular hranks hleast hmore.behind
    fun p hp minimum hminimum => ?_) hless hfuel
  rw [hminima] at hminimum
  cases hfilled : Form.occupant? .falseValue more with
  | none =>
    rw [hfilled] at hminimum
    cases hminimum
  | some value =>
    rw [hfilled] at hminimum
    exact hmore.order p hp value hfilled minimum hminimum

/-- A ternary takes the operand before its `if`, whatever it is complete of. -/
theorem extend_ternary_builds (hclimb : ClimbBuilds max? fuel) (hextend : ExtendBuilds max? fuel)
    (h : left.Built a least)
    (hskip : skipTrivia left.rest = (gap, .operation .ternaryIf token :: rest))
    (hfuel : 2 * left.rest.length ≤ fuel + 1) :
    Promises (extend max? (fuel + 1) frames least left) fun c =>
      c.Complete a least ∧ c.rest.length ≤ left.rest.length := by
  obtain ⟨hgap, hsuits, hrest⟩ := h.behind.ordered hskip rfl
  have hlength := length_of_skipTrivia hskip
  rw [List.length_cons] at hlength
  have hpending : pending? left.rest = some OperatorKind.ternaryPrecedence := by
    simp [pending?, hskip]
  have hlost := hsuits.isLeaf.invalidated
  rw [extend, hskip]
  dsimp only
  split
  · rename_i hless
    refine promises_ok.2 (h.complete fun p hp => ?_)
    rw [hpending] at hp
    rwa [← Option.mem_some_iff.1 hp]
  · rename_i hless
    have hleast := Nat.le_of_not_lt hless
    refine (hclimb hrest (by omega)).bind fun result hresult => ?_
    obtain ⟨hsome, hresult⟩ := hresult
    cases result with
    | none =>
      have hmore := arms_nil (.inr ⟨hrest, hsome.symm⟩)
      simpa only [List.append_nil] using
        ternary_extends hextend h hgap hpending hlost hleast hmore (by omega) hfuel
    | some condition =>
      obtain ⟨hcondition, hshorter⟩ := hresult condition rfl
      dsimp only
      split
      · rename_i elseGap elseToken elseRest helse
        obtain ⟨helseGap, helseSuits, helseRest⟩ := hcondition.behind.ordered helse rfl
        have helseLength := length_of_skipTrivia helse
        rw [List.length_cons] at helseLength
        refine (hclimb helseRest (by omega)).bind fun result hresult => ?_
        obtain ⟨hsome, hresult⟩ := hresult
        cases result with
        | none =>
          have hmore := hcondition.arms_else helseGap helseSuits.isLeaf.invalidated
            (.inr ⟨helseRest, hsome.symm⟩)
          simpa only [List.append_assoc, List.cons_append] using
            ternary_extends hextend h hgap hpending hlost hleast hmore (by omega) hfuel
        | some value =>
          obtain ⟨hvalue, hvalueShorter⟩ := hresult value rfl
          have hmore := hcondition.arms_value helseGap helseSuits.isLeaf hvalue
          simpa only [List.append_assoc, List.cons_append] using
            ternary_extends hextend h hgap hpending hsuits.isLeaf hleast hmore (by omega) hfuel
      · simpa only [List.append_assoc, List.cons_append] using
          ternary_extends hextend h hgap hpending hlost hleast hcondition.arms (by omega) hfuel

/-- An operand is extended by the operators that bind tightly enough. -/
theorem extend_builds (hclimb : ClimbBuilds max? fuel) (hextend : ExtendBuilds max? fuel) :
    ExtendBuilds max? (fuel + 1) := by
  intro a frames least left h hfuel
  rcases hskip : skipTrivia left.rest with ⟨gap, pieces⟩
  match pieces with
  | .operation (.binary op) token :: rest =>
    exact extend_binary_builds hclimb hextend h hskip hfuel
  | .operation .ternaryIf token :: rest =>
    exact extend_ternary_builds hclimb hextend h hskip hfuel
  | [] | .operand _ :: _ | .trivia _ :: _ | .point _ :: _ | .negation _ :: _
  | .operation (.unary _) _ :: _ | .operation .await _ :: _
  | .operation .ternaryElse _ :: _ =>
    rw [extend, hskip]
    exact promises_ok.2 (h.complete (by simp [pending?, hskip]))

/-- A single operand together with the operators that take it. -/
theorem climb_builds (hprimary : PrimaryBuilds max? fuel) (hextend : ExtendBuilds max? fuel) :
    ClimbBuilds max? (fuel + 1) := by
  intro a frames least pieces horder hfuel
  rw [climb]
  refine (promises_true _).bind fun _ _ => ?_
  refine (hprimary horder (by omega)).bind fun result hresult => ?_
  obtain ⟨hsome, hresult⟩ := hresult
  cases result with
  | none => exact promises_pure.2 ⟨hsome, by simp⟩
  | some left =>
    obtain ⟨hleft, hless⟩ := hresult left rfl
    refine (hextend (hleft least) (by omega)).bind fun c hc => promises_pure.2 ⟨hsome, ?_⟩
    intro c' hc'
    obtain rfl := Option.mem_some_iff.1 hc'
    exact ⟨hc.1, by omega⟩

/-- Building and extending operands end where they should, by induction on the fuel. -/
theorem builds (max? : Option Nat) (fuel : Nat) :
    ClimbBuilds max? fuel ∧ PrimaryBuilds max? fuel ∧ ExtendBuilds max? fuel := by
  induction fuel with
  | zero =>
    have hnil {pieces : List Piece} (hfuel : 2 * pieces.length ≤ 0) : pieces = [] :=
      List.eq_nil_of_length_eq_zero (by omega)
    refine ⟨fun _ hfuel => absurd hfuel (by omega), fun _ hfuel => ?_, fun h hfuel => ?_⟩
    · obtain rfl := hnil hfuel
      rw [primary]
      exact promises_ok.2 ⟨rfl, by simp⟩
    · rw [extend]
      exact promises_ok.2 (h.complete (by simp [hnil hfuel, pending?, skipTrivia]))
  | succ fuel ih =>
    obtain ⟨hclimb, hprimary, hextend⟩ := ih
    exact ⟨climb_builds hprimary hextend, primary_builds hclimb, extend_builds hclimb hextend⟩

/-- Folding the pieces of an expression gives an operand in which operators bind in order, and tidy
extras around it. -/
theorem fold_tidy (max? : Option Nat) (h : Ordered {} true pieces) :
    Promises (fold max? pieces) fun d => Form.Tidy {} (Form.extras d.leading) ∧
      (∀ t ∈ d.token, t.Regular) ∧ Form.Tidy {} (Form.extras d.trailing) := by
  have hbuilds : Promises (climb max? (2 * pieces.length + 2) 0 0 pieces)
      (Builds pieces (Complete {} 0)) := (builds max? _).1 h (by omega)
  refine hbuilds.bind fun result hresult => ?_
  obtain ⟨hsome, hresult⟩ := hresult
  cases result with
  | none =>
    exact promises_pure.2 ⟨Form.tidy_nil _, nofun,
      tidy_leftovers_of_startsOperand h hsome.symm⟩
  | some top =>
    obtain ⟨htop, _⟩ := hresult top rfl
    refine promises_pure.2 ⟨htop.before, by simpa using htop.regular, ?_⟩
    refine htop.behind.tidy_leftovers (Option.eq_none_iff_forall_not_mem.2 fun p hp => ?_)
    exact absurd (htop.stops p hp) (Nat.not_lt_zero p)

end Climbed

end ScriptTree
