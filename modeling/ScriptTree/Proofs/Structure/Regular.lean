import ScriptTree.Grammar.Branch
import ScriptTree.Proofs.Moves

/-!
# Regular trees

What holds of every node of a parsed tree. Its extras are trivia, separators and text without a
place, but for what an interrupted operator leaves behind; and operators stand below each other in
the order of their precedence. A form that is being read is kept tidy, so that the node it becomes
is regular.
-/

namespace ScriptTree

/-! ### What may stand among extras -/

/-- What has been read in a run of extras decides what may come next besides trivia, separators and
text without a place. -/
structure Allowance where
  /-- The second word of `not in` may come. -/
  secondWord : Bool := false
  /-- Operands may come that an `else` without a place left behind. -/
  operands : Bool := false
  deriving DecidableEq, Repr

/-- The kinds of nodes that an operator makes of its operands. -/
def NodeKind.isOperation : NodeKind → Bool
  | .dualOperator | .singleOperator | .ternary | .await => true
  | _ => false

/-- A node of the kind is put together part by part and stands inside another node. -/
def NodeKind.isPlain (kind : NodeKind) : Bool :=
  !kind.isOperation && kind != .file

/-- A plain node of the kind is no list of lines, which stands only where it has a slot. -/
def NodeKind.isLoose (kind : NodeKind) : Bool :=
  kind.isPlain && !kind.isBlockList

/-- Whether leaves of the kind may be operands. -/
def LeafKind.isOperand : LeafKind → Bool
  | .identifier | .keyword _ | .number | .string | .nodePath | .punct _ => true
  | _ => false

theorem NodeKind.isPlain_of_isLoose {kind : NodeKind} (h : kind.isLoose) : kind.isPlain :=
  (Bool.and_eq_true_iff.1 h).1

/-- Plain nodes have no slot for an operator. -/
theorem NodeKind.ne_operator_of_isPlain {kind : NodeKind} {slot : Slot} (hkind : kind.isPlain)
    (hslot : kind.declares slot) : slot ≠ .operator := by
  rintro rfl
  revert hkind hslot
  cases kind <;> decide

namespace Tree

/-- The operator that a leaf stands for. -/
def operator? (t : Tree) : Option OperatorKind :=
  match t.leafKind? with
  | some (.operator op) => some op
  | _ => none

/-- Whether an operator may take the token as it is. -/
def isOperand (t : Tree) : Bool :=
  match t.kind with
  | .leaf kind => kind.isOperand
  | .node kind => !kind.isOperation

/-- Whether the token is a list of lines. -/
def isLines (t : Tree) : Bool :=
  t.nodeKind?.any NodeKind.isBlockList

/-- Whether an operator may take the token as it is, or leave it over. -/
def isLooseOperand (t : Tree) : Bool :=
  t.isOperand && !t.isLines

theorem isOperand_of_isLooseOperand {t : Tree} (h : t.isLooseOperand) : t.isOperand :=
  (Bool.and_eq_true_iff.1 h).1

/-- Whether the token is trivia, a separator or text without a place. -/
def isPlainExtra (t : Tree) : Bool :=
  t.isTrivia || t.isInvalid || t.leafKind? == some (.punct .comma)
    || t.leafKind? == some (.punct .semicolon)

/-- Whether the token is the given word, without a place. -/
def isLostWord (word : String) (t : Tree) : Bool :=
  t.isInvalid && t.leafText? == some word

/-- A reserved word is neither trivia nor a separator, and has a place. -/
theorem isPlainExtra_of_keyword? {t : Tree} {word : Keyword} (h : t.keyword? = some word) :
    t.isPlainExtra = false := by
  cases t with
  | leaf kind s extent => cases kind <;> first | rfl | cases h
  | node kind form extent => cases h

end Tree

namespace Allowance

/-- Whether an extra may come. -/
def admits (a : Allowance) (t : Tree) : Bool :=
  t.isPlainExtra || (a.secondWord && t.keyword? == some .inKw) || (a.operands && t.isOperand)

/-- What may come after an extra. The second word of `not in` comes once. -/
def afterExtra (a : Allowance) (t : Tree) : Allowance where
  secondWord := (a.secondWord && t.keyword? != some .inKw) || t.isLostWord "not"
  operands := a.operands || t.isLostWord "else"

/-- What may come after a child. Of the operators only `not in` is followed by another word. -/
def next (a : Allowance) (entry : Entry) : Allowance :=
  match entry with
  | (.extra, t) => a.afterExtra t
  | (role, t) => { secondWord := role == .slot .operator && t.operator? == some .notContainedIn }

/-- The allowance permits no more than another. -/
def Le (a b : Allowance) : Prop :=
  (a.secondWord → b.secondWord) ∧ (a.operands → b.operands)

end Allowance

/-- Whether every extra of a form may stand where it does. -/
def Form.extrasFit : Allowance → List Entry → Bool
  | _, [] => true
  | a, entry :: rest =>
    (entry.1 != .extra || a.admits entry.2) && extrasFit (a.next entry) rest

/-! ### The order of operators -/

/-- The operator of a node. -/
def Form.operator? (form : List Entry) : Option OperatorKind :=
  (Form.occupant? .operator form).bind Tree.operator?

namespace Tree

mutual

/-- The precedences of the operators at the left end of an operand: each takes the next one as its
first operand. -/
def leftRanks : Tree → List Nat
  | .leaf _ _ _ => []
  | .node .dualOperator form _ =>
    ((Form.operator? form).bind OperatorKind.binaryPrecedence?).toList ++ leftRanksAt .left form
  | .node .ternary form _ => OperatorKind.ternaryPrecedence :: leftRanksAt .trueValue form
  | .node _ _ _ => []

/-- The precedences at the left end of the operand in a slot. -/
def leftRanksAt (slot : Slot) : List Entry → List Nat
  | [] => []
  | (role, t) :: rest => if role = .slot slot then t.leftRanks else leftRanksAt slot rest

end

mutual

/-- The least precedences that the operators at the right end of an operand asked for: each takes
the next one as its last operand. A ternary without a last operand asks for nothing. -/
def rightMinima : Tree → List Nat
  | .leaf _ _ _ => []
  | .node .dualOperator form _ =>
    ((Form.operator? form).bind fun op => op.binaryPrecedence?.map op.rightPrecedence).toList
      ++ rightMinimaAt .right form
  | .node .singleOperator form _ =>
    ((Form.operator? form).bind OperatorKind.unaryPrecedence?).toList
      ++ rightMinimaAt .operand form
  | .node .await form _ => OperatorKind.awaitPrecedence :: rightMinimaAt .operand form
  | .node .ternary form _ =>
    if Form.isFilled .falseValue form then
      OperatorKind.ternaryPrecedence :: rightMinimaAt .falseValue form
    else []
  | .node _ _ _ => []

/-- The least precedences at the right end of the operand in a slot. -/
def rightMinimaAt (slot : Slot) : List Entry → List Nat
  | [] => []
  | (role, t) :: rest => if role = .slot slot then t.rightMinima else rightMinimaAt slot rest

end

end Tree

/-- The operands of an operator bind at least as tightly as it asks for, and nothing at the right
end of its first operand could have taken the operator. -/
def Form.BindsInOrder (kind : NodeKind) (form : List Entry) : Prop :=
  match kind with
  | .dualOperator => ∃ op precedence left right,
    Form.operator? form = some op ∧ op.binaryPrecedence? = some precedence ∧
    Form.occupant? .left form = some left ∧ Form.occupant? .right form = some right ∧
    (∀ minimum ∈ left.rightMinima, precedence < minimum) ∧
    ∀ rank ∈ right.leftRanks, op.rightPrecedence precedence ≤ rank
  | .singleOperator => ∃ op precedence operand,
    Form.operator? form = some op ∧ op.unaryPrecedence? = some precedence ∧
    Form.occupant? .operand form = some operand ∧ ∀ rank ∈ operand.leftRanks, precedence ≤ rank
  | .await => ∃ operand, Form.occupant? .operand form = some operand ∧
    ∀ rank ∈ operand.leftRanks, OperatorKind.awaitPrecedence ≤ rank
  | .ternary => ∃ value, Form.occupant? .trueValue form = some value ∧
    (∀ minimum ∈ value.rightMinima, OperatorKind.ternaryPrecedence < minimum) ∧
    (∀ condition ∈ Form.occupant? .condition form, ∀ rank ∈ condition.leftRanks,
      OperatorKind.ternaryPrecedence + 1 ≤ rank) ∧
    ∀ value ∈ Form.occupant? .falseValue form, ∀ rank ∈ value.leftRanks,
      OperatorKind.ternaryPrecedence ≤ rank
  | _ => True

/-- Every node of a tree has a property of its kind and its form. -/
inductive Tree.EveryNode (P : NodeKind → List Entry → Prop) : Tree → Prop
  | leaf (kind : LeafKind) (text : String) (extent : Extent) : EveryNode P (.leaf kind text extent)
  | node {kind : NodeKind} {form : List Entry} (extent : Extent) (own : P kind form)
    (children : ∀ entry ∈ form, EveryNode P entry.2) : EveryNode P (.node kind form extent)

/-- A node whose extras may stand where they do, whose operands bind in order, and whose children
have a place in a node of its kind. -/
structure Form.IsLawful (kind : NodeKind) (form : List Entry) : Prop where
  fit : Form.extrasFit {} form
  order : Form.BindsInOrder kind form
  suits : Form.Suits kind form

/-- A node inside a tree of which this is true, without lists of lines among its extras. -/
structure Form.IsRegular (kind : NodeKind) (form : List Entry) : Prop
    extends Form.IsLawful kind form where
  inner : kind ≠ .file
  loose : ∀ entry ∈ form, entry.1 = .extra → entry.2.isLines = false

/-- A tree of regular nodes. -/
abbrev Tree.Regular (t : Tree) : Prop := t.EveryNode Form.IsRegular

/-- A part of a form that is being read, before which the extras had an allowance. -/
structure Form.Tidy (a : Allowance) (form : List Entry) : Prop where
  fit : Form.extrasFit a form
  loose : ∀ entry ∈ form, entry.1 = .extra → entry.2.isLines = false
  regular : ∀ entry ∈ form, entry.2.Regular

/-- An extra that may come, which is no list of lines. -/
structure Allowance.Admits (a : Allowance) (t : Tree) : Prop where
  admits : a.admits t
  loose : t.isLines = false

/-! ### Allowances -/

namespace Allowance

variable {a b : Allowance} {t : Tree} {entry : Entry}

theorem Le.refl (a : Allowance) : a.Le a := ⟨id, id⟩

/-- To begin with, nothing is allowed. -/
theorem le_of_default (a : Allowance) : Le {} a := ⟨nofun, nofun⟩

/-- A greater allowance admits more. -/
theorem admits_of_le (h : a.Le b) (ht : a.admits t) : b.admits t := by
  simp only [admits, Bool.or_eq_true, Bool.and_eq_true] at ht ⊢
  exact ht.imp (Or.imp id (And.imp_left h.1)) (And.imp_left h.2)

/-- What is allowed stays allowed behind trivia, separators and text without a place. -/
theorem le_afterExtra (a : Allowance) (ht : t.isPlainExtra) : a.Le (a.afterExtra t) := by
  have hword : t.keyword? ≠ some .inKw := fun hword => by
    rw [Tree.isPlainExtra_of_keyword? hword] at ht
    cases ht
  simp only [Le, afterExtra, Bool.or_eq_true, Bool.and_eq_true, bne_iff_ne]
  exact ⟨fun h => .inl ⟨h, hword⟩, .inl⟩

/-- A greater allowance stays greater. -/
theorem next_le (h : a.Le b) (entry : Entry) : (a.next entry).Le (b.next entry) := by
  obtain ⟨role, t⟩ := entry
  cases role with
  | extra =>
    simp only [next, Le, afterExtra, Bool.or_eq_true, Bool.and_eq_true]
    exact ⟨Or.imp_left (And.imp_left h.1), Or.imp_left h.2⟩
  | slot slot => exact .refl _
  | item => exact .refl _

/-- What may come after a child that is no extra depends on the child alone. -/
theorem next_eq (hrole : entry.1 ≠ .extra) : a.next entry = b.next entry := by
  obtain ⟨role, t⟩ := entry
  cases role with
  | extra => exact absurd rfl hrole
  | slot slot => rfl
  | item => rfl

/-- After a child that is neither an extra nor an operator nothing is allowed. -/
theorem next_default (hextra : entry.1 ≠ .extra) (hoperator : entry.1 ≠ .slot .operator) :
    a.next entry = {} := by
  obtain ⟨role, t⟩ := entry
  cases role with
  | extra => exact absurd rfl hextra
  | slot slot =>
    have hne : (Role.slot slot == .slot .operator) = false := by simpa using hoperator
    simp [next, hne]
  | item => rfl

/-- Trivia, separators and text without a place are always admitted. -/
theorem admits_of_isPlainExtra (a : Allowance) (ht : t.isPlainExtra) : a.admits t := by
  simp [admits, ht]

/-- They are no lists of lines. -/
theorem admits_extra (a : Allowance) (ht : t.isPlainExtra) : a.Admits t := by
  refine ⟨admits_of_isPlainExtra a ht, ?_⟩
  cases t with
  | leaf kind s extent => rfl
  | node kind form extent => cases ht

/-- More extras may come. -/
theorem Admits.of_le (h : a.Admits t) (hle : a.Le b) : b.Admits t :=
  ⟨admits_of_le hle h.admits, h.loose⟩

end Allowance

namespace Form

variable {a b : Allowance} {form more : List Entry} {entry : Entry} {kind : NodeKind}
  {slot : Slot} {t : Tree}

theorem extrasFit_cons (a : Allowance) (entry : Entry) (rest : List Entry) :
    extrasFit a (entry :: rest) =
      ((entry.1 != .extra || a.admits entry.2) && extrasFit (a.next entry) rest) := rfl

/-- A greater allowance fits as well. -/
theorem extrasFit_of_le (h : a.Le b) (hform : extrasFit a form) : extrasFit b form := by
  induction form generalizing a b with
  | nil => rfl
  | cons entry rest ih =>
    rw [extrasFit_cons, Bool.and_eq_true, Bool.or_eq_true] at hform ⊢
    exact ⟨hform.1.imp id (Allowance.admits_of_le h), ih (Allowance.next_le h entry) hform.2⟩

/-- A form that begins with a child that is no extra fits anywhere. -/
theorem extrasFit_cons_of_ne (hrole : entry.1 ≠ .extra) :
    extrasFit a (entry :: form) = extrasFit b (entry :: form) := by
  rw [extrasFit_cons, extrasFit_cons, bne_iff_ne.2 hrole, Allowance.next_eq (a := a) (b := b) hrole]
  rfl

/-! ### Tidy forms -/

@[simp]
theorem tidy_nil (a : Allowance) : Tidy a [] := ⟨rfl, by simp, by simp⟩

/-- A form is tidy if its first child fits and what comes after it is tidy. -/
theorem tidy_cons : Tidy a (entry :: form) ↔
    (entry.1 ≠ .extra ∨ a.Admits entry.2) ∧ entry.2.Regular ∧ Tidy (a.next entry) form := by
  constructor
  · intro h
    have hfit := h.fit
    rw [extrasFit_cons, Bool.and_eq_true, Bool.or_eq_true, bne_iff_ne] at hfit
    refine ⟨?_, h.regular _ List.mem_cons_self, hfit.2,
      fun e he => h.loose e (List.mem_cons_of_mem _ he),
      fun e he => h.regular e (List.mem_cons_of_mem _ he)⟩
    by_cases hextra : entry.1 = .extra
    · exact .inr ⟨hfit.1.resolve_left (absurd hextra), h.loose _ List.mem_cons_self hextra⟩
    · exact .inl hextra
  · rintro ⟨hfirst, hregular, hrest⟩
    refine ⟨?_, List.forall_mem_cons.2 ⟨fun hextra => ?_, hrest.loose⟩,
      List.forall_mem_cons.2 ⟨hregular, hrest.regular⟩⟩
    · rw [extrasFit_cons, Bool.and_eq_true, Bool.or_eq_true, bne_iff_ne]
      exact ⟨hfirst.imp id Allowance.Admits.admits, hrest.fit⟩
    · exact (hfirst.resolve_left (absurd hextra)).loose

/-- What stands first decides what may come after it. -/
theorem tidy_append :
    Tidy a (form ++ more) ↔ Tidy a form ∧ Tidy (form.foldl Allowance.next a) more := by
  induction form generalizing a with
  | nil => simp
  | cons entry rest ih => rw [List.cons_append, tidy_cons, tidy_cons, ih, List.foldl_cons,
      and_assoc, and_assoc]

theorem Tidy.of_le (h : Tidy a form) (hle : a.Le b) : Tidy b form :=
  ⟨extrasFit_of_le hle h.fit, h.loose, h.regular⟩

/-- What needs no allowance may come anywhere. -/
theorem Tidy.append (h : Tidy a form) (hmore : Tidy {} more) : Tidy a (form ++ more) :=
  tidy_append.2 ⟨h, hmore.of_le (Allowance.le_of_default _)⟩

/-- A child that is no extra may come anywhere. -/
theorem tidy_singleton (hrole : entry.1 ≠ .extra) (ht : entry.2.Regular) : Tidy a [entry] :=
  tidy_cons.2 ⟨.inl hrole, ht, tidy_nil _⟩

/-- Trivia, separators and text without a place may come anywhere. -/
theorem tidy_extra (hextra : t.isPlainExtra) (ht : t.Regular) : Tidy a (extras [t]) :=
  tidy_cons.2 ⟨.inr (Allowance.admits_extra a hextra), ht, tidy_nil _⟩

/-- So may any number of them. -/
theorem tidy_extras {tokens : List Tree} (h : ∀ t ∈ tokens, t.isPlainExtra ∧ t.Regular) :
    Tidy a (extras tokens) := by
  induction tokens with
  | nil => exact tidy_nil a
  | cons t rest ih =>
    have hrest : Tidy a (extras rest) := ih fun t ht => h t (List.mem_cons_of_mem _ ht)
    obtain ⟨hextra, ht⟩ := h t List.mem_cons_self
    exact tidy_cons.2 ⟨.inr (Allowance.admits_extra a hextra), ht,
      hrest.of_le (Allowance.le_afterExtra a hextra)⟩

/-- A child may be put into an empty slot. -/
theorem Tidy.insertSlot (h : Tidy a form) (ht : t.Regular) :
    Tidy a (insertSlot kind slot t form) := by
  induction form generalizing a with
  | nil => exact tidy_singleton nofun ht
  | cons entry rest ih =>
    rw [Form.insertSlot]
    split
    · rename_i hafter
      have hrole : entry.1 ≠ .extra := fun hextra => by
        rw [hextra] at hafter
        cases hafter
      refine tidy_cons.2 ⟨.inl nofun, ht, ?_, h.loose, h.regular⟩
      rw [extrasFit_cons_of_ne hrole (b := a)]
      exact h.fit
    · obtain ⟨hfirst, hregular, hrest⟩ := tidy_cons.1 h
      exact tidy_cons.2 ⟨hfirst, hregular, ih hrest⟩

/-- The occupant of a slot may be replaced, unless it is an operator. -/
theorem Tidy.replaceSlot? (h : Tidy a form) (ht : t.Regular) (hslot : slot ≠ .operator)
    {old : Tree} {form' : List Entry} (hreplace : replaceSlot? slot t form = some (old, form')) :
    Tidy a form' := by
  obtain ⟨before, after, rfl, rfl⟩ := exists_of_replaceSlot? hreplace
  obtain ⟨hbefore, hrest⟩ := tidy_append.1 h
  have hnext (a : Allowance) (t : Tree) : a.next (.slot slot, t) = {} :=
    Allowance.next_default (by simp) (by simpa using hslot)
  obtain ⟨_, _, hafter⟩ := tidy_cons.1 hrest
  rw [hnext] at hafter
  refine tidy_append.2 ⟨hbefore, tidy_cons.2 ⟨.inl (by simp), ht, ?_⟩⟩
  rwa [hnext]

/-- A child may be put into a slot, filled or not, that is not for operators. -/
theorem Tidy.setSlot (h : Tidy a form) (ht : t.Regular) (hslot : slot ≠ .operator) :
    Tidy a (setSlot kind slot t form) := by
  unfold Form.setSlot
  split
  · rename_i hreplace
    exact h.replaceSlot? ht hslot hreplace
  · exact h.insertSlot ht

/-! ### Forms of plain nodes -/

/-- The form of a node that is put together part by part and is being read. -/
structure Plain (kind : NodeKind) (form : List Entry) : Prop extends Tidy {} form where
  suits : Suits kind form

theorem plain_nil (kind : NodeKind) : Plain kind [] := ⟨tidy_nil _, suits_nil kind⟩

/-- A form of nothing but extras. -/
theorem Tidy.plain {tokens : List Tree} (h : Tidy {} (extras tokens)) (kind : NodeKind) :
    Plain kind (extras tokens) :=
  ⟨h, suits_extras kind tokens⟩

/-- A child that is no extra, if the kind has a place for it. -/
theorem plain_singleton {role : Role} (hrole : role ≠ .extra)
    (hcheck : kind.checkRole role = .ok ()) (ht : t.Regular) : Plain kind [(role, t)] :=
  ⟨tidy_singleton hrole ht, suits_singleton hcheck t⟩

/-- Children may be added that fill other slots. -/
theorem Plain.append (h : Plain kind form) (hmore : Plain kind more)
    (hother : ∀ slot ∈ slots more, slot ∉ slots form) : Plain kind (form ++ more) :=
  ⟨h.toTidy.append hmore.toTidy, h.suits.append hmore.suits hother⟩

/-- Extras may be added at the end. -/
theorem Plain.extras {tokens : List Tree} (h : Plain kind form)
    (htokens : Tidy {} (extras tokens)) : Plain kind (form ++ Form.extras tokens) :=
  h.append (htokens.plain kind) (by simp)

/-- No slot is for an operator. -/
theorem Plain.operator_notMem (h : Plain kind form) (hkind : kind.isPlain) :
    .operator ∉ slots form :=
  fun hmem => NodeKind.ne_operator_of_isPlain hkind (h.suits.declares _ hmem) rfl

/-- A node of a plain form is regular. -/
theorem Plain.regular_ofForm (h : Plain kind form) (hkind : kind.isPlain) :
    (Tree.ofForm kind form).Regular := by
  refine .node _ ⟨⟨h.fit, ?_, h.suits⟩, ?_, h.loose⟩ h.regular
  · revert hkind
    cases kind <;> first | exact fun _ => trivial | exact nofun
  · rintro rfl
    cases hkind

/-- What is left when trailing extras are split off is plain, and so are the extras. -/
theorem Plain.splitTrailing (h : Plain kind form) (hkind : kind.isPlain) :
    Plain kind (splitTrailing form).1 ∧ Tidy {} (Form.extras (splitTrailing form).2) := by
  have hform := append_extras_of_splitTrailing form
  rw [← hform] at h
  obtain ⟨hkept, htrailing⟩ := tidy_append.1 h.toTidy
  have hplain : Plain kind (Form.splitTrailing form).1 :=
    ⟨hkept, h.suits.sublist (List.sublist_append_left _ _)⟩
  have hoperator := hplain.operator_notMem hkind
  refine ⟨hplain, ?_⟩
  rcases List.eq_nil_or_concat (Form.splitTrailing form).1 with hnil | ⟨before, last, hlast⟩
  · rwa [hnil] at htrailing
  · obtain ⟨role, t⟩ := last
    have hextra := ne_extra_of_splitTrailing (hlast.trans List.concat_eq_append)
    have hne : role ≠ .slot .operator := by
      rintro rfl
      simp [hlast] at hoperator
    rwa [hlast, List.concat_eq_append, List.foldl_append, List.foldl_cons, List.foldl_nil,
      Allowance.next_default hextra hne] at htrailing

/-- A child may be put into a slot of a plain node. -/
theorem Plain.place (h : Plain kind form) (hkind : kind.isPlain) (ht : t.Regular) :
    Promises (place kind slot t form) (Plain kind) := by
  rw [Form.place]
  have hcheck : Promises (kind.checkRole (.slot slot)) fun _ => kind.declares slot = true := by
    rw [NodeKind.checkRole]
    split
    · exact promises_ok.2 ‹_›
    · intro _ herror
      cases herror
  refine hcheck.bind fun _ hslot => ?_
  have hne := NodeKind.ne_operator_of_isPlain hkind hslot
  exact promises_pure.2 ⟨h.toTidy.setSlot ht hne, h.suits.setSlot hslot t⟩

/-- An item may be added to a node. -/
theorem Plain.addItem (h : Plain kind form) (ht : t.Regular) :
    Promises (addItem kind t form) (Plain kind) := by
  rw [Form.addItem]
  have hcheck : Promises (kind.checkRole .item) fun _ => kind.checkRole .item = .ok () :=
    fun _ hok => hok
  exact hcheck.bind fun _ hitem =>
    promises_pure.2 (h.append (plain_singleton (by simp) hitem ht) (by simp))

end Form

end ScriptTree
