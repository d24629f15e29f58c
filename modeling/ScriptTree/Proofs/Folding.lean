import ScriptTree.Grammar.Climb
import ScriptTree.Proofs.Forms

/-!
# Folding keeps the text

However operators are nested, the operand that is built, the trivia before it and the pieces
after it spell the pieces that were folded. Every node on the way is put together from slots that
its kind declares.
-/

namespace ScriptTree

/-- The text of pieces one after another. -/
def textOfPieces (pieces : List Piece) : String :=
  Tree.textOfTokens (pieces.map Piece.token)

@[simp]
theorem textOfPieces_nil : textOfPieces [] = "" := by
  simp [textOfPieces]

@[simp]
theorem textOfPieces_cons (piece : Piece) (rest : List Piece) :
    textOfPieces (piece :: rest) = piece.token.text ++ textOfPieces rest := by
  simp [textOfPieces]

@[simp]
theorem textOfPieces_append (xs ys : List Piece) :
    textOfPieces (xs ++ ys) = textOfPieces xs ++ textOfPieces ys := by
  simp [textOfPieces]

namespace Climbed

/-- The text of an operand with everything around it. -/
def text (c : Climbed) : String :=
  Tree.textOfTokens c.before ++ c.token.text ++ textOfPieces c.rest

/-- Skipping trivia keeps the text. -/
theorem text_skipTrivia (pieces : List Piece) :
    Tree.textOfTokens (skipTrivia pieces).1 ++ textOfPieces (skipTrivia pieces).2
      = textOfPieces pieces := by
  induction pieces with
  | nil => simp [skipTrivia]
  | cons piece rest ih =>
    cases piece with
    | trivia t => simp [skipTrivia, Piece.token, String.append_assoc, ih]
    | _ => simp [skipTrivia]

/-- The text of pieces whose trivia at the beginning is known. -/
theorem text_of_skipTrivia {pieces rest : List Piece} {skipped : List Tree}
    (h : skipTrivia pieces = (skipped, rest)) :
    textOfPieces pieces = Tree.textOfTokens skipped ++ textOfPieces rest := by
  rw [← text_skipTrivia pieces, h]

@[simp]
theorem text_entries (slot : Slot) (c : Climbed) :
    Tree.textOfForm (c.entries slot) = Tree.textOfTokens c.before ++ c.token.text := by
  simp [entries]

@[simp]
theorem text_leafEntries (slot : Slot) (before : List Tree) (token : Tree) :
    Tree.textOfForm (leafEntries slot before token) = Tree.textOfTokens before ++ token.text := by
  simp [leafEntries]

@[simp]
theorem declared_entries {kind : NodeKind} {slot : Slot} {c : Climbed} :
    Form.Declared kind (c.entries slot) ↔ kind.declares slot := by
  simp [entries]

@[simp]
theorem declared_leafEntries {kind : NodeKind} {slot : Slot} {before : List Tree}
    {token : Tree} : Form.Declared kind (leafEntries slot before token) ↔ kind.declares slot := by
  simp [leafEntries]

variable {limited : Prop} {max? : Option Nat}

/-- A node of declared slots is an operand with the text of its children. -/
theorem meets_assemble {before : List Tree} {kind : NodeKind} {form : List Entry}
    {rest : List Piece} (h : Form.Declared kind form) :
    Meets limited (assemble before kind form rest) fun c =>
      c.text = Tree.textOfTokens before ++ Tree.textOfForm form ++ textOfPieces rest := by
  simp [assemble, Tree.assemble_of_declared h, text, bind, Except.bind, pure, Except.pure]

/-- Building operands with this much fuel keeps the text. -/
def ClimbKeepsText (limited : Prop) (max? : Option Nat) (fuel : Nat) : Prop :=
  ∀ frames least pieces, Meets limited (climb max? fuel frames least pieces) fun result =>
    ∀ c ∈ result, c.text = textOfPieces pieces

/-- Building a single operand with this much fuel keeps the text. -/
def PrimaryKeepsText (limited : Prop) (max? : Option Nat) (fuel : Nat) : Prop :=
  ∀ frames pieces, Meets limited (primary max? fuel frames pieces) fun result =>
    ∀ c ∈ result, c.text = textOfPieces pieces

/-- Extending operands with this much fuel keeps the text. -/
def ExtendKeepsText (limited : Prop) (max? : Option Nat) (fuel : Nat) : Prop :=
  ∀ frames least left, Meets limited (extend max? fuel frames least left) fun c =>
    c.text = left.text

/-- A single operand keeps the text. -/
theorem primary_keepsText {fuel : Nat} (hclimb : ClimbKeepsText limited max? fuel) :
    PrimaryKeepsText limited max? (fuel + 1) := by
  intro frames pieces
  rw [primary]
  split
  · rename_i before token rest hskip
    simp [text, text_of_skipTrivia hskip, Piece.token, String.append_assoc]
  · rename_i before op token rest hskip
    refine (hclimb frames _ rest).bind fun result hresult => ?_
    cases result with
    | none => simp
    | some operand =>
      have hoperand := hresult operand rfl
      refine (meets_assemble (by simp; decide)).bind fun c hc => ?_
      rw [text_of_skipTrivia hskip]
      simp only [text] at hoperand
      simp [hc, Piece.token, ← hoperand, String.append_assoc]
  · rename_i before token rest hskip
    refine (hclimb frames _ rest).bind fun result hresult => ?_
    cases result with
    | none => simp
    | some operand =>
      have hoperand := hresult operand rfl
      refine (meets_assemble (by simp; decide)).bind fun c hc => ?_
      rw [text_of_skipTrivia hskip]
      simp only [text] at hoperand
      simp [hc, Piece.token, ← hoperand, String.append_assoc]
  · simp

/-- An operator with its operands keeps the text. -/
theorem extend_binary_keepsText {fuel : Nat} (hclimb : ClimbKeepsText limited max? fuel)
    (hextend : ExtendKeepsText limited max? fuel) (frames least : Nat) (left : Climbed)
    {gap : List Tree} {op : OperatorKind} {token : Tree} {rest : List Piece}
    (hskip : skipTrivia left.rest = (gap, .operation (.binary op) token :: rest)) :
    Meets limited (extend max? (fuel + 1) frames least left) fun c => c.text = left.text := by
  rw [extend, hskip]
  dsimp only
  split
  · exact rfl
  · split
    · exact rfl
    · refine (hclimb frames _ rest).bind fun result hresult => ?_
      cases result with
      | none => exact rfl
      | some right =>
        have hright := hresult right rfl
        refine (meets_assemble (by simp; decide)).bind fun c hc => ?_
        refine (hextend frames least c).mono fun c' hc' => ?_
        rw [hc', hc, text, text_of_skipTrivia hskip, textOfPieces_cons, ← hright, text]
        simp [Piece.token, String.append_assoc]

/-- A ternary operator, complete or not, keeps the text. -/
theorem extend_ternary_keepsText {fuel : Nat} (hclimb : ClimbKeepsText limited max? fuel)
    (hextend : ExtendKeepsText limited max? fuel) (frames least : Nat) (left : Climbed)
    {gap : List Tree} {token : Tree} {rest : List Piece}
    (hskip : skipTrivia left.rest = (gap, .operation .ternaryIf token :: rest)) :
    Meets limited (extend max? (fuel + 1) frames least left) fun c => c.text = left.text := by
  rw [extend, hskip]
  dsimp only
  have hleft : left.text = Tree.textOfTokens left.before ++ left.token.text
      ++ (Tree.textOfTokens gap ++ (token.text ++ textOfPieces rest)) := by
    rw [text, text_of_skipTrivia hskip, textOfPieces_cons]
    rfl
  split
  · exact rfl
  · refine (hclimb frames _ rest).bind fun result hresult => ?_
    cases result with
    | none =>
      refine (meets_assemble (by simp; decide)).bind fun c hc => ?_
      refine (hextend frames least c).mono fun c' hc' => ?_
      rw [hc', hc, hleft]
      simp [String.append_assoc]
    | some condition =>
      have hcondition : Tree.textOfTokens condition.before ++ condition.token.text
          ++ textOfPieces condition.rest = textOfPieces rest := hresult condition rfl
      rw [← hcondition] at hleft
      dsimp only
      split
      · rename_i elseGap elseToken elseRest helse
        rw [text_of_skipTrivia helse, textOfPieces_cons] at hleft
        refine (hclimb frames _ elseRest).bind fun result hresult => ?_
        cases result with
        | none =>
          refine (meets_assemble (by simp; decide)).bind fun c hc => ?_
          refine (hextend frames least c).mono fun c' hc' => ?_
          rw [hc', hc, hleft]
          simp [Piece.token, String.append_assoc]
        | some value =>
          have hvalue := hresult value rfl
          refine (meets_assemble (by simp; decide)).bind fun c hc => ?_
          refine (hextend frames least c).mono fun c' hc' => ?_
          rw [hc', hc, hleft, ← hvalue, text]
          simp [Piece.token, String.append_assoc]
      · refine (meets_assemble (by simp; decide)).bind fun c hc => ?_
        refine (hextend frames least c).mono fun c' hc' => ?_
        rw [hc', hc, hleft]
        simp [String.append_assoc]

/-- Extending an operand keeps the text when both recursive calls do. -/
theorem extend_keepsText {fuel : Nat} (hclimb : ClimbKeepsText limited max? fuel)
    (hextend : ExtendKeepsText limited max? fuel) : ExtendKeepsText limited max? (fuel + 1) := by
  intro frames least left
  rcases hskip : skipTrivia left.rest with ⟨gap, pieces⟩
  match pieces with
  | .operation (.binary op) token :: rest =>
    exact extend_binary_keepsText hclimb hextend frames least left hskip
  | .operation .ternaryIf token :: rest =>
    exact extend_ternary_keepsText hclimb hextend frames least left hskip
  | [] | .operand _ :: _ | .trivia _ :: _ | .point _ :: _ | .negation _ :: _
  | .operation (.unary _) _ :: _ | .operation .await _ :: _
  | .operation .ternaryElse _ :: _ =>
    rw [extend, hskip]
    exact rfl

/-- A single operand together with the operators that take it keeps the text. -/
theorem climb_keepsText {fuel : Nat} (h : max?.isSome → limited)
    (hprimary : PrimaryKeepsText limited max? fuel) (hextend : ExtendKeepsText limited max? fuel) :
    ClimbKeepsText limited max? (fuel + 1) := by
  intro frames least pieces
  rw [climb]
  refine (meets_checkDepth h).bind fun _ _ => ?_
  refine (hprimary (frames + 1) pieces).bind fun result hresult => ?_
  cases result with
  | none => simp
  | some left =>
    refine (hextend (frames + 1) least left).bind fun c hc => ?_
    simp [hc, hresult left rfl]

/-- Building and extending operands keep the text with any fuel, by induction on the fuel. -/
theorem keepsText (h : max?.isSome → limited) (fuel : Nat) :
    ClimbKeepsText limited max? fuel ∧ PrimaryKeepsText limited max? fuel ∧
      ExtendKeepsText limited max? fuel := by
  induction fuel with
  | zero =>
    refine ⟨fun frames least pieces => ?_, fun frames pieces => ?_, fun frames least left => ?_⟩
    · simp [climb]
    · simp [primary]
    · simp [extend]
  | succ fuel ih =>
    obtain ⟨hclimb, hprimary, hextend⟩ := ih
    exact ⟨climb_keepsText h hprimary hextend, primary_keepsText hclimb,
      extend_keepsText hclimb hextend⟩

/-- Folding a whole expression keeps its text, and gives nothing but the expression. -/
theorem meets_fold (h : max?.isSome → limited) (pieces : List Piece) :
    Meets limited (fold max? pieces) fun d =>
      Tree.textOfTokens (d.leading ++ d.token.toList ++ d.trailing) = textOfPieces pieces
        ∧ d.handback = none ∧ d.line = none := by
  have hleftover (rest : List Piece) :
      Tree.textOfTokens (rest.map leftover) = textOfPieces rest := by
    induction rest with
    | nil => simp
    | cons piece rest ih => cases piece <;> simp [leftover, Piece.token, ih]
  refine ((keepsText h _).1 0 0 pieces).bind fun result hresult => ?_
  cases result with
  | none => simp [hleftover]
  | some top =>
    have htop := hresult top rfl
    simp [hleftover, ← htop, text, String.append_assoc]

end Climbed

end ScriptTree
