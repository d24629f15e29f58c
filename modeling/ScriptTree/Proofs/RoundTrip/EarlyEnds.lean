import ScriptTree.Proofs.RoundTrip.Reaching
import ScriptTree.Proofs.Structure.Placement

/-!
# Text that goes on after a leaf

The first leaf of an expression stays where it is: it is an operand or text without a place, and
whatever is read later comes after it, or becomes part of a node of which it is the first child. So
a text that goes on after its first leaf is not read as a leaf.
-/

namespace ScriptTree

variable {whole : String}

/-! ### Trees other than a leaf -/

namespace Tree

variable {t : Tree}

/-- The tree has a text, and is no leaf that consists of the whole text. -/
structure IsOther (whole : String) (t : Tree) : Prop where
  nonempty : t.text ≠ ""
  no_leaf : t.leafText? ≠ some whole

theorem IsOther.withLeafKind (h : t.IsOther whole) (kind : LeafKind) :
    (t.withLeafKind kind).IsOther whole := by
  cases t <;> exact ⟨h.nonempty, h.no_leaf⟩

theorem IsOther.invalidated (h : t.IsOther whole) : t.invalidated.IsOther whole :=
  h.withLeafKind .invalid

/-- A node of which the first child has a text is no leaf. -/
theorem IsOther.ofForm (h : t.IsOther whole) (kind : NodeKind) (role : Role) (more : List Entry) :
    (Tree.ofForm kind ((role, t) :: more)).IsOther whole := by
  refine ⟨fun hempty => h.nonempty ?_, nofun⟩
  have hlength := congrArg String.length hempty
  simp only [text_ofForm, textOfForm_cons, String.length_append, String.length_empty] at hlength
  rw [← String.length_eq_zero_iff]
  omega

end Tree

/-- Something that is delivered in its place is no leaf of the whole text. -/
def Delivery.HoldsOther (whole : String) (d : Delivery) : Prop :=
  ∃ t ∈ d.leading ++ d.token.toList ++ d.trailing, t.IsOther whole

/-- Next to a child that is no leaf of the whole text, no other child is one. -/
theorem Form.leafText?_occupant?_ne {form : List Entry} {entry : Entry} {slot : Slot} {t : Tree}
    (htext : Tree.textOfForm form = whole) (hentry : entry ∈ form) (hother : entry.2.IsOther whole)
    (hoccupant : Form.occupant? slot form = some t) : t.leafText? ≠ some whole := by
  intro hleaf
  obtain ⟨otherRole, other⟩ := entry
  have hnonempty : other.text ≠ "" := hother.nonempty
  obtain ⟨⟨role, child⟩, hfind, rfl⟩ := Option.map_eq_some_iff.1 hoccupant
  obtain ⟨before, after, rfl⟩ := List.append_of_mem (List.mem_of_find?_eq_some hfind)
  have hchild : child.text = whole := by
    cases child with
    | leaf kind text extent => exact Option.some.inj hleaf
    | node kind form extent => cases hleaf
  have hlength := congrArg String.length htext
  simp only [Tree.textOfForm_append, Tree.textOfForm_cons, String.length_append, hchild]
    at hlength
  have hnone (form : List Entry) (hform : (Tree.textOfForm form).length = 0) :
      (otherRole, other) ∉ form := by
    intro hmem
    obtain ⟨before, after, rfl⟩ := List.append_of_mem hmem
    simp only [Tree.textOfForm_append, Tree.textOfForm_cons, String.length_append] at hform
    exact hnonempty (String.length_eq_zero_iff.1 (by omega))
  rcases List.mem_append.1 hentry with hmem | hmem
  · exact hnone before (by omega) hmem
  · rcases List.mem_cons.1 hmem with heq | hmem
    · rw [heq] at hother
      exact hother.no_leaf hleaf
    · exact hnone after (by omega) hmem

/-- What an empty slot is filled with joins the children. -/
theorem Form.mem_place {kind : NodeKind} {slot : Slot} {form : List Entry}
    (hempty : Form.isFilled slot form = false) (t : Tree) :
    Promises (Form.place kind slot t form) fun form' =>
      ∀ entry ∈ (.slot slot, t) :: form, entry ∈ form' := by
  refine (promises_true _).bind fun _ _ => promises_pure.2 fun entry hentry => ?_
  have hreplace : Form.replaceSlot? slot t form = none := by
    cases hreplace : Form.replaceSlot? slot t form with
    | none => rfl
    | some result =>
      obtain ⟨before, after, rfl, -⟩ := Form.exists_of_replaceSlot? hreplace
      simp [Form.isFilled] at hempty
  rw [Form.setSlot, hreplace]
  exact (Form.insertSlot_perm _ _ _ form).mem_iff.2 hentry

/-! ### The first piece of an expression -/

/-- A piece that stays first: an operand or trivia, other than a leaf. -/
inductive Piece.StaysFirst (whole : String) : Piece → Prop where
  | operand {t : Tree} (h : t.IsOther whole) : StaysFirst whole (.operand t)
  | trivia {t : Tree} (h : t.IsOther whole) : StaysFirst whole (.trivia t)

namespace Climbed

variable {max? : Option Nat} {left : Climbed} {first : Piece} {rest : List Piece}

/-- An operand with the given one at its beginning. -/
structure BeginsWith (whole : String) (left c : Climbed) : Prop where
  before_eq : c.before = left.before
  token : left.token.IsOther whole → c.token.IsOther whole

/-- Operators that take an operand as their first one leave it at the beginning. -/
theorem extend_promises (whole : String) (fuel frames least : Nat) (left : Climbed) :
    Promises (extend max? fuel frames least left) (BeginsWith whole left) := by
  induction fuel generalizing left with
  | zero =>
    rw [extend]
    exact promises_ok.2 ⟨rfl, id⟩
  | succ fuel ih =>
    have hsame : Promises (.ok left : Except ParseError Climbed) (BeginsWith whole left) :=
      promises_ok.2 ⟨rfl, id⟩
    have hnode (kind : NodeKind) (slot : Slot) (more : List Entry) (rest : List Piece) :
        Promises (assemble left.before kind ((.slot slot, left.token) :: more) rest >>=
          extend max? fuel frames least) (BeginsWith whole left) := by
      refine assemble_promises.bind fun node hnode => ?_
      refine (ih node).mono fun c hc => ?_
      subst hnode
      exact ⟨hc.before_eq, fun h => hc.token (h.ofForm kind _ more)⟩
    rw [extend]
    split
    · split
      · exact hsame
      · split
        · exact hsame
        · refine (promises_true _).bind fun result _ => ?_
          cases result with
          | none => exact hsame
          | some right => exact hnode _ _ _ _
    · split
      · exact hsame
      · refine (promises_true _).bind fun result _ => ?_
        cases result with
        | none => exact hnode _ _ _ _
        | some condition =>
          dsimp only
          split
          · refine (promises_true _).bind fun result _ => ?_
            cases result with
            | none => exact hnode _ _ _ _
            | some value => exact hnode _ _ _ _
          · exact hnode _ _ _ _
    · exact hsame

/-- The trivia at the beginning of the pieces stand before a single operand. -/
theorem before_primary (fuel frames : Nat) (pieces : List Piece) :
    Promises (primary max? fuel frames pieces) fun result =>
      ∀ c ∈ result, c.before = (skipTrivia pieces).1 := by
  cases fuel with
  | zero =>
    rw [primary]
    exact promises_ok.2 (by simp)
  | succ fuel =>
    have hnode (before : List Tree) (kind : NodeKind) (form : List Entry) (rest : List Piece) :
        Promises (some <$> assemble before kind form rest) fun result =>
          ∀ c ∈ result, c.before = before := by
      refine assemble_promises.bind fun c hc => promises_pure.2 ?_
      subst hc
      simp
    rw [primary]
    split
    · rename_i before token rest hskip
      rw [hskip]
      exact promises_ok.2 (by simp)
    · rename_i before op token rest hskip
      rw [hskip]
      refine (promises_true _).bind fun result _ => ?_
      cases result with
      | none => exact promises_pure.2 (by simp)
      | some operand => exact hnode _ _ _ _
    · rename_i before token rest hskip
      rw [hskip]
      refine (promises_true _).bind fun result _ => ?_
      cases result with
      | none => exact promises_pure.2 (by simp)
      | some operand => exact hnode _ _ _ _
    · exact promises_ok.2 (by simp)

/-- An operand begins with the single operand that was built first. -/
theorem climb_promises (whole : String) (fuel frames least : Nat) (pieces : List Piece) :
    Promises (climb max? (fuel + 1) frames least pieces) fun result => ∀ c ∈ result,
      ∃ left, primary max? fuel (frames + 1) pieces = .ok (some left) ∧
        BeginsWith whole left c := by
  rw [climb]
  refine (promises_true _).bind fun _ _ => ?_
  have hprimary : Promises (primary max? fuel (frames + 1) pieces)
      (primary max? fuel (frames + 1) pieces = .ok ·) := fun _ => id
  refine hprimary.bind fun result hresult => ?_
  cases result with
  | none => exact promises_pure.2 (by simp)
  | some left =>
    refine (extend_promises whole fuel (frames + 1) least left).bind fun c hc => ?_
    refine promises_pure.2 fun c' hc' => ⟨left, hresult, ?_⟩
    rwa [← Option.mem_some_iff.1 hc']

/-- What the pieces of an expression begin with, is delivered or stands in what is delivered. -/
theorem fold_promises (h : first.StaysFirst whole) :
    Promises (fold max? (first :: rest)) (Delivery.HoldsOther whole) := by
  refine (climb_promises whole (2 * rest.length + 3) 0 0 (first :: rest)).bind fun result hresult => ?_
  cases result with
  | none =>
    refine promises_pure.2 ⟨first.token, by cases h <;> simp [leftover, Piece.token], ?_⟩
    cases h <;> assumption
  | some top =>
    obtain ⟨left, hleft, htop⟩ := hresult top rfl
    refine promises_pure.2 ?_
    cases h with
    | @operand t ht =>
      rw [primary] at hleft
      obtain rfl : left = ⟨[], t, rest⟩ := by simpa [skipTrivia, eq_comm] using hleft
      exact ⟨top.token, by simp, htop.token ht⟩
    | @trivia t ht =>
      have hbefore := before_primary _ _ _ _ hleft left rfl
      refine ⟨t, ?_, ht⟩
      simp [htop.before_eq, hbefore, skipTrivia]

end Climbed

namespace ExpressionReader

variable {r : ExpressionReader} {pieces more : List Piece}

/-- The piece that was read first is no leaf of the whole text. -/
def BeginsOther (whole : String) (pieces : List Piece) : Prop :=
  ∃ later first, pieces = later ++ [first] ∧ first.StaysFirst whole

theorem BeginsOther.append (h : BeginsOther whole pieces) (more : List Piece) :
    BeginsOther whole (more ++ pieces) := by
  obtain ⟨later, first, rfl, hfirst⟩ := h
  exact ⟨more ++ later, first, (List.append_assoc ..).symm, hfirst⟩

theorem BeginsOther.cons (h : BeginsOther whole pieces) (piece : Piece) :
    BeginsOther whole (piece :: pieces) :=
  h.append [piece]

/-- What stays first is not changed by what comes later. -/
theorem BeginsOther.map (h : BeginsOther whole pieces) {f : Piece → Piece}
    (hf : ∀ piece : Piece, piece.StaysFirst whole → f piece = piece) :
    BeginsOther whole (pieces.map f) := by
  obtain ⟨later, first, rfl, hfirst⟩ := h
  exact ⟨later.map f, first, by simp [hf first hfirst], hfirst⟩

theorem BeginsOther.settle (h : BeginsOther whole pieces) : BeginsOther whole (settle pieces) := by
  refine h.map fun piece hpiece => ?_
  cases hpiece <;> rfl

theorem BeginsOther.joinIn (h : BeginsOther whole pieces) :
    BeginsOther whole (pieces.map joinIn) := by
  refine h.map fun piece hpiece => ?_
  cases hpiece <;> rfl

/-- A postfix form has the operand that it takes at its beginning. -/
theorem BeginsOther.wrapOperand? (h : BeginsOther whole pieces) (kind : NodeKind)
    (targetSlot tailSlot : Slot) (tail : Tree) :
    Promises (wrapOperand? pieces kind targetSlot tailSlot tail) fun result =>
      ∀ wrapped ∈ result, BeginsOther whole wrapped := by
  rw [ExpressionReader.wrapOperand?]
  split
  · exact promises_ok.2 (by simp)
  · rename_i later target earlier hsplit
    obtain ⟨before, first, hpieces, hfirst⟩ := h
    rw [eq_of_splitOperand? hsplit] at hpieces
    have hnode : Promises (Tree.assemble kind ((.slot targetSlot, target) ::
        later.reverse.map (innerEntry kind) ++ [(.slot tailSlot, tail)])) fun t =>
        t = .ofForm kind ((.slot targetSlot, target) ::
          (later.reverse.map (innerEntry kind) ++ [(.slot tailSlot, tail)])) :=
      (promises_true _).bind fun _ _ => promises_pure.2 rfl
    refine hnode.bind fun t ht => promises_pure.2 fun wrapped hwrapped => ?_
    obtain rfl := Option.mem_some_iff.1 hwrapped
    rcases List.eq_nil_or_concat earlier with rfl | ⟨earlier, last, rfl⟩
    · -- The operand was the first piece itself.
      obtain ⟨-, hlast⟩ := List.append_inj' hpieces rfl
      obtain rfl := List.singleton_inj.1 hlast
      cases hfirst with
      | operand htarget =>
        refine ⟨[], .operand t, rfl, .operand ?_⟩
        rw [ht]
        exact htarget.ofForm kind _ _
    · rw [List.concat_eq_append, ← List.cons_append, ← List.append_assoc] at hpieces
      obtain ⟨-, hlast⟩ := List.append_inj' hpieces rfl
      obtain rfl := List.singleton_inj.1 hlast
      exact ⟨.operand t :: earlier, last, by simp, hfirst⟩

theorem BeginsOther.pushTrivia (h : BeginsOther whole r.pieces) (tokens : List Tree) :
    BeginsOther whole (r.pushTrivia tokens).pieces := by
  rw [pushTrivia_eq]
  exact h.append _

theorem BeginsOther.onChar (h : BeginsOther whole r.pieces) (c : Char) :
    BeginsOther whole (r.onChar c).state.pieces := by
  rw [ExpressionReader.onChar]
  split
  · exact h
  · split
    · exact h
    · dsimp only
      split
      · rw [onOperandChar]
        repeat' split
        all_goals exact h.settle
      · rw [onOperatorChar]
        split
        · exact h.settle.cons _
        · repeat' split
          all_goals exact h.settle

/-- No signal changes what was read first. -/
theorem BeginsOther.onSignal (h : BeginsOther whole r.pieces) (signal : Signal) :
    BeginsOther whole (r.onSignal signal).state.pieces := by
  unfold ExpressionReader.onSignal
  split
  · exact h
  · split
    · exact h.cons _
    · exact h
    · exact h.onChar _
    · exact h

theorem BeginsOther.onOperandWord (h : BeginsOther whole r.pieces) (word : Tree) :
    Promises (r.onOperandWord word) fun receipt => BeginsOther whole receipt.state.pieces := by
  have hpush (piece : Piece) : Promises
      (pure { state := r.push piece } : Except Misfit (Receipt ExpressionReader)) fun receipt =>
        BeginsOther whole receipt.state.pieces := promises_pure.2 (h.cons piece)
  have hopen (kind : NodeKind) : Promises (r.openProduction kind word) fun receipt =>
      BeginsOther whole receipt.state.pieces :=
    (promises_true _).bind fun _ _ => promises_pure.2 h
  rw [ExpressionReader.onOperandWord]
  split
  · exact hpush _
  · split
    · exact hpush _
    · split
      · exact hpush _
      · split
        · exact hpush _
        · split
          · exact hopen .lambda
          · split
            · exact hopen .matchBinding
            · exact promises_pure.2 h

theorem BeginsOther.onOperatorWord (h : BeginsOther whole r.pieces) (word : Tree) :
    BeginsOther whole (r.onOperatorWord word).pieces := by
  rw [ExpressionReader.onOperatorWord]
  split
  · exact h
  · split
    · exact h
    · split
      · exact h.cons _
      · split
        · exact h.cons _
        · split
          · exact h.cons _
          · split
            · exact h.cons _
            · exact h

theorem BeginsOther.onWord (h : BeginsOther whole r.pieces) (word : Tree) :
    Promises (r.onWord word) fun receipt => BeginsOther whole receipt.state.pieces := by
  rw [ExpressionReader.onWord]
  split
  · exact promises_pure.2 (h.joinIn.cons _)
  · have hsettled : ∃ r', (if awaitsIn r.pieces = true then
        { r with pieces := ExpressionReader.settle r.pieces } else r) = r' ∧
          BeginsOther whole r'.pieces := by
      split
      · exact ⟨_, rfl, h.settle⟩
      · exact ⟨r, rfl, h⟩
    obtain ⟨r', heq, hsettled⟩ := hsettled
    rw [heq]
    dsimp only
    split
    · exact hsettled.onOperandWord word
    · exact promises_pure.2 (hsettled.onOperatorWord word)

theorem BeginsOther.onOperator (h : BeginsOther whole r.pieces) (token : Tree) :
    BeginsOther whole (r.onOperator token).pieces := by
  rw [ExpressionReader.onOperator]
  split
  · split
    · exact h.cons _
    · split
      · exact h
      · exact h.cons _
  · split
    · split
      · exact h
      · exact h.cons _
    · split
      · exact h
      · exact h.cons _

theorem BeginsOther.onMember (h : BeginsOther whole r.pieces) (word : Tree) :
    Promises (r.onMember word) fun r' => BeginsOther whole r'.pieces := by
  rw [ExpressionReader.onMember]
  split
  · refine (h.wrapOperand? _ _ _ _).bind fun result hresult => ?_
    cases result with
    | none => exact promises_pure.2 (h.cons _)
    | some pieces => exact promises_pure.2 (hresult pieces rfl)
  · exact promises_pure.2 (h.cons _)

theorem BeginsOther.onTail (h : BeginsOther whole r.pieces) (kind : NodeKind)
    (targetSlot tailSlot : Slot) (tail : Tree) :
    Promises (r.onTail kind targetSlot tailSlot tail) fun r' => BeginsOther whole r'.pieces := by
  refine (h.wrapOperand? _ _ _ _).bind fun result hresult => promises_pure.2 ?_
  cases result with
  | none => exact h.cons _
  | some pieces => exact hresult pieces rfl

/-- No token changes what was read first. -/
theorem BeginsOther.onToken (h : BeginsOther whole r.pieces) (goal : ExpressionGoal)
    (token : Tree) :
    Promises (r.onToken goal token) fun receipt => BeginsOther whole receipt.state.pieces := by
  unfold ExpressionReader.onToken
  split
  · exact promises_pure.2 (h.cons _)
  · split
    · exact promises_pure.2 (h.cons _)
    · cases goal with
      | trivia => exact promises_pure.2 (h.cons _)
      | word => exact h.onWord token
      | member => exact (h.onMember token).bind fun r' hr' => promises_pure.2 hr'
      | operand => exact promises_pure.2 (h.cons _)
      | operator => exact promises_pure.2 (h.onOperator token)
      | arguments => exact (h.onTail _ _ _ token).bind fun r' hr' => promises_pure.2 hr'
      | subscript => exact (h.onTail _ _ _ token).bind fun r' hr' => promises_pure.2 hr'

theorem BeginsOther.onHandback (h : BeginsOther whole r.pieces) (token : Tree) :
    Promises (r.onHandback token) fun receipt => BeginsOther whole receipt.state.pieces := by
  rw [ExpressionReader.onHandback]
  split
  · exact promises_pure.2 (h.cons _)
  · split
    · exact h.onWord token
    · exact h.onWord token
    · exact promises_pure.2 h

theorem BeginsOther.onLine (h : BeginsOther whole r.pieces) (line : LineStart) :
    BeginsOther whole (r.onLine line).pieces := by
  rw [ExpressionReader.onLine]
  split
  · split
    · exact h.cons _
    · exact h
  · exact h

/-- What comes after the token of a delivery does not change what was read first. -/
theorem onDelivery_promises {d : Delivery}
    (htoken : Promises (({ r with goal := .trivia }.pushTrivia d.leading).onToken? r.goal d.token)
      fun receipt => BeginsOther whole receipt.state.pieces) :
    Promises (r.onDelivery d) fun receipt => BeginsOther whole receipt.state.pieces := by
  refine htoken.bind fun first hfirst => ?_
  have hhandback : Promises ((first.state.pushTrivia d.trailing).onHandback? d.handback)
      fun receipt => BeginsOther whole receipt.state.pieces := by
    cases d.handback with
    | none => exact promises_ok.2 (hfirst.pushTrivia d.trailing)
    | some token => exact (hfirst.pushTrivia d.trailing).onHandback token
  refine hhandback.bind fun second hsecond => promises_pure.2 ?_
  cases d.line with
  | none => exact hsecond
  | some line => exact hsecond.onLine line

/-- No delivery changes what was read first. -/
theorem BeginsOther.onDelivery (h : BeginsOther whole r.pieces) (d : Delivery) :
    Promises (r.onDelivery d) fun receipt => BeginsOther whole receipt.state.pieces := by
  have hleading : BeginsOther whole ({ r with goal := .trivia }.pushTrivia d.leading).pieces :=
    BeginsOther.pushTrivia (r := { r with goal := .trivia }) h d.leading
  apply onDelivery_promises
  cases d.token with
  | none => exact promises_ok.2 hleading
  | some token => exact hleading.onToken r.goal token

/-- The first operand is read first, even if it has no place. -/
theorem onDelivery_first {t : Tree} (h : t.IsOther whole) (ctx : Context) :
    Promises (({ ctx, goal := .operand } : ExpressionReader).onDelivery { token := some t })
      fun receipt => BeginsOther whole receipt.state.pieces := by
  have hfirst (piece : Piece) (hpiece : piece.StaysFirst whole) : BeginsOther whole [piece] :=
    ⟨[], piece, rfl, hpiece⟩
  apply onDelivery_promises
  change Promises (({ ctx } : ExpressionReader).onToken .operand t) _
  unfold ExpressionReader.onToken
  split
  · exact promises_pure.2 (hfirst _ (.trivia h))
  · split
    · exact promises_pure.2 (hfirst _ (.trivia h.invalidated))
    · exact promises_pure.2 (hfirst _ (.operand h))

/-- An expression delivers what it begins with. -/
theorem BeginsOther.finish (h : BeginsOther whole r.pieces) (max? : Option Nat) :
    Promises (r.finish max?) (Delivery.HoldsOther whole) := by
  obtain ⟨later, first, hpieces, hfirst⟩ := h.settle
  have hreverse : (ExpressionReader.settle r.pieces).reverse = first :: later.reverse := by
    simp [hpieces]
  rw [ExpressionReader.finish, hreverse]
  exact (Climbed.fold_promises hfirst).bind fun d hd => promises_pure.2 hd

end ExpressionReader

/-! ### The reading states -/

namespace RootReader

variable {r : RootReader}

/-- Some child is no leaf of the whole text. -/
def HoldsOther (whole : String) (r : RootReader) : Prop :=
  ∃ entry ∈ r.form, entry.2.IsOther whole

theorem HoldsOther.pushExtras (h : r.HoldsOther whole) (tokens : List Tree) :
    (r.pushExtras tokens).HoldsOther whole := by
  obtain ⟨entry, hentry, hother⟩ := h
  exact ⟨entry, List.mem_append_left _ hentry, hother⟩

theorem holdsOther_pushExtras {tokens : List Tree} {t : Tree} (ht : t ∈ tokens)
    (h : t.IsOther whole) : (r.pushExtras tokens).HoldsOther whole :=
  ⟨(.extra, t), List.mem_append_right _ (List.mem_map.2 ⟨t, ht, rfl⟩), h⟩

/-- A token is placed next to the children that are there. -/
theorem HoldsOther.onToken {t : Tree} (h : r.HoldsOther whole ∨ t.IsOther whole) :
    Promises (r.onToken t) (HoldsOther whole) := by
  rw [RootReader.onToken]
  split
  · refine promises_pure.2 ?_
    rcases h with h | h
    · exact h.pushExtras [t]
    · exact holdsOther_pushExtras List.mem_cons_self h
  · rename_i hplain
    have hempty : Form.isFilled .expression r.form = false := by
      simp only [Bool.or_eq_true, not_or, Bool.not_eq_true] at hplain
      exact hplain.2
    refine (Form.mem_place hempty t).bind fun form hform => promises_pure.2 ?_
    rcases h with ⟨entry, hentry, hother⟩ | h
    · exact ⟨entry, hform entry (List.mem_cons_of_mem _ hentry), hother⟩
    · exact ⟨_, hform _ List.mem_cons_self, h⟩

/-- What is delivered is placed next to the children that are there. -/
theorem HoldsOther.onDelivery {d : Delivery} (h : r.HoldsOther whole ∨ d.HoldsOther whole) :
    Promises (r.onDelivery d) (HoldsOther whole) := by
  have htoken : Promises ((r.pushExtras d.leading).onToken? d.token) fun placed =>
      placed.HoldsOther whole ∨ ∃ t ∈ d.trailing, t.IsOther whole := by
    have hbefore : (r.pushExtras d.leading).HoldsOther whole ∨
        (∃ t ∈ d.token, t.IsOther whole) ∨ ∃ t ∈ d.trailing, t.IsOther whole := by
      rcases h with h | ⟨t, ht, hother⟩
      · exact .inl (h.pushExtras _)
      · rcases List.mem_append.1 ht with ht | ht
        · rcases List.mem_append.1 ht with ht | ht
          · exact .inl (holdsOther_pushExtras ht hother)
          · exact .inr (.inl ⟨t, by simpa using ht, hother⟩)
        · exact .inr (.inr ⟨t, ht, hother⟩)
    cases htoken : d.token with
    | none =>
      rw [htoken] at hbefore
      refine promises_ok.2 (hbefore.imp_right fun hlater => hlater.resolve_left ?_)
      rintro ⟨t, ht, -⟩
      cases ht
    | some token =>
      rw [htoken] at hbefore
      rcases hbefore with hbefore | ⟨t, ht, hother⟩ | htrailing
      · exact (HoldsOther.onToken (.inl hbefore)).mono fun _ => .inl
      · rw [Option.mem_some_iff] at ht
        subst ht
        exact (HoldsOther.onToken (.inr hother)).mono fun _ => .inl
      · exact (promises_true _).mono fun _ _ => .inr htrailing
  refine htoken.bind fun placed hplaced => promises_pure.2 ?_
  have htrailing : (placed.pushExtras d.trailing).HoldsOther whole := by
    rcases hplaced with hplaced | ⟨t, ht, hother⟩
    · exact hplaced.pushExtras _
    · exact holdsOther_pushExtras ht hother
  exact (htrailing.pushExtras _).pushExtras _

/-- No signal takes a child away. -/
theorem HoldsOther.onSignal (h : r.HoldsOther whole) (signal : Signal) :
    (r.onSignal signal).state.HoldsOther whole := by
  unfold RootReader.onSignal
  split
  · exact h.pushExtras _
  · exact h
  · exact h
  · split <;> exact h
  · exact h

end RootReader

namespace Reader

variable {config : Config} {signal : Signal} {top : Reader} {below : List Reader}

/-- The outermost open states, an expression and its statement or the statement alone, have read
something that is no leaf of the whole text. -/
inductive HoldOther (whole : String) : List Reader → Prop where
  | expression (r : ExpressionReader) (root : RootReader)
      (h : ExpressionReader.BeginsOther whole r.pieces) :
    HoldOther whole [.expression r, .root root]
  | root (r : RootReader) (h : r.HoldsOther whole) : HoldOther whole [.root r]
  | inner (top : Reader) {below : List Reader} (h : HoldOther whole below) :
    HoldOther whole (top :: below)

/-- What the states have read stays when the innermost one gets a signal. -/
theorem HoldOther.onSignal (h : HoldOther whole (top :: below)) :
    Promises (top.onSignal config signal) fun reaction =>
      HoldOther whole (reaction.state :: below) := by
  cases h with
  | expression r root h => exact promises_ok.2 (.expression _ root (h.onSignal signal))
  | root r h => exact promises_ok.2 (.root _ (h.onSignal signal))
  | inner _ h => exact (promises_true _).mono fun reaction _ => .inner reaction.state h

/-- What the states have read stays when the innermost one gets a delivery. -/
theorem HoldOther.onDelivery (h : HoldOther whole (top :: below)) (d : Delivery) :
    Promises (top.onDelivery d) fun receipt => HoldOther whole (receipt.state :: below) := by
  cases h with
  | expression r root h =>
    exact (h.onDelivery d).map fun receipt hreceipt => .expression receipt.state root hreceipt
  | root r h =>
    exact (RootReader.HoldsOther.onDelivery (.inl h)).map fun r' hr' => .root r' hr'
  | inner _ h => exact (promises_true _).mono fun receipt _ => .inner receipt.state h

end Reader

/-! ### Runs -/

namespace Automaton

open Reader

variable {config : Config} {signal : Signal} {layer : Layer} {a : Automaton} {text : String}

/-- An automaton that has read something that is no leaf of the whole text. -/
inductive HoldsOther (whole : String) (a : Automaton) : Prop where
  | open (h : HoldOther whole a.stack)
  | ended (r : RootReader) (hstack : a.stack = []) (hdelivered : a.delivered = some r.finish)
    (h : r.HoldsOther whole)

theorem HoldsOther.push (h : HoldOther whole a.stack) (inner : Reader) :
    Promises (a.push config inner) (HoldsOther whole) :=
  (promises_true _).bind fun _ _ => promises_pure.2 (.open (.inner inner h))

/-- A state that ends hands what it has read to the state around it. -/
theorem HoldsOther.pop (h : HoldOther whole a.stack) :
    Promises (a.pop config) (HoldsOther whole) := by
  unfold Automaton.pop
  generalize hstack : a.stack = stack at h
  cases h with
  | expression r root h =>
    refine (h.finish config.maxTraceFrames).bind fun d hd => ?_
    have hdelivery : Promises (root.onDelivery d) (RootReader.HoldsOther whole) :=
      RootReader.HoldsOther.onDelivery (.inr hd)
    refine (hdelivery.map fun root' hroot => ?_).mapError.bind fun receipt hreceipt =>
      promises_pure.2 (.open hreceipt)
    exact .root root' hroot
  | root r h => exact promises_pure.2 (.ended r rfl rfl h)
  | @inner top below h =>
    cases below with
    | nil => cases h
    | cons around below =>
      refine (promises_true _).bind fun d _ => ?_
      exact (h.onDelivery d).mapError.bind fun receipt hreceipt => promises_pure.2 (.open hreceipt)

/-- What the innermost state answers leaves what was read. -/
theorem HoldsOther.perform (h : HoldOther whole a.stack) (c? : Option Char) (step : Step) :
    Promises (a.perform config c? step) (Progress.Has (HoldsOther whole)) := by
  cases step with
  | accept => exact promises_pure.2 (.open h)
  | acceptAndComplete => exact (HoldsOther.pop h).bind fun _ ha' => promises_pure.2 ha'
  | complete => exact (HoldsOther.pop h).bind fun _ ha' => promises_pure.2 ha'
  | enter inner => exact (HoldsOther.push h inner).bind fun _ ha' => promises_pure.2 ha'
  | absorb =>
    cases c? with
    | none => exact (HoldsOther.pop h).bind fun _ ha' => promises_pure.2 ha'
    | some c => exact (HoldsOther.push h _).bind fun _ ha' => promises_pure.2 ha'

/-- Every step leaves what was read. -/
theorem stepsKeep_holdsOther (whole : String) : StepsKeep config (HoldsOther whole) := by
  intro signal a h
  unfold Automaton.step
  cases h with
  | ended r hstack hdelivered h =>
    rw [hstack]
    exact promises_ok.2 (.ended r hstack hdelivered h)
  | «open» h =>
    cases hstack : a.stack with
    | nil =>
      rw [hstack] at h
      cases h
    | cons top below =>
      rw [hstack] at h
      cases hopening : a.opening with
      | cons inner more =>
        have hpush : Promises ({ a with stack := top :: below, opening := more }.push config inner)
            (HoldsOther whole) := HoldsOther.push h inner
        exact hpush.bind fun _ ha' => promises_pure.2 ha'
      | nil =>
        refine h.onSignal.mapError.bind fun reaction hreaction => ?_
        exact HoldsOther.perform (a := { a with
          stack := reaction.state :: below
          opening := []
          notices := a.notices.merge reaction.notices }) hreaction _ _

/-- At the end of the text the statement of the expression has such a child. -/
theorem HoldsOther.finish (h : a.HoldsOther whole) (hreads : a.Reads layer text) :
    Promises (a.finish config) fun result => ∃ r : RootReader,
      result.1.token = some (.ofForm .expressionStatement r.form) ∧ r.HoldsOther whole := by
  refine (finish_promises (stepsKeep_holdsOther whole) h hreads).mono fun result hresult => ?_
  obtain ⟨a', hother, hend, hdelivery⟩ := hresult
  cases hother with
  | «open» h =>
    rw [hend] at h
    cases h
  | ended r hstack hdelivered h =>
    refine ⟨r, ?_, h⟩
    rw [hdelivery, hdelivered]
    rfl

/-- A leaf that ends inside an expression of which nothing else was read. -/
theorem step_stopped {r r' : LeafReader} {t : Tree} (hstop : r.feed signal = (r', .stop))
    (htoken : r'.token? = some t) (h : t.IsOther whole) (ctx : Context) (root : RootReader) :
    Promises ((ofStack [.leaf r, .expression { ctx, goal := .operand }, .root root]).step
      config signal) (Progress.Has (HoldsOther whole)) := by
  have hstep : (ofStack [.leaf r, .expression { ctx, goal := .operand }, .root root]).step
      config signal = ({ ofStack [.leaf r', .expression { ctx, goal := .operand }, .root root] with
        notices := Notices.merge {} { truncated := signal.toChar?.isNone && r.isCutShort } } :
          Automaton).perform config signal.toChar? .complete := by
    simp only [step, ofStack, Reader.onSignal, hstop, stepOfVerdict, ParseError.ofTree_ok, bind,
      Except.bind]
  have hdelivery : Promises ((Reader.expression { ctx, goal := .operand }).onDelivery
      { token := some t }) fun receipt => HoldOther whole [receipt.state, .root root] :=
    (ExpressionReader.onDelivery_first h ctx).map fun receipt hreceipt =>
      .expression receipt.state root hreceipt
  rw [hstep]
  refine Promises.bind (P := HoldsOther whole) ?_ fun _ ha' => promises_pure.2 ha'
  unfold pop
  simp only [ofStack, Reader.finish, htoken]
  exact hdelivery.mapError.bind fun receipt hreceipt => promises_pure.2 (.open hreceipt)

/-- A text that goes on after its first leaf leads to a statement with a child that is no leaf of
the whole text. -/
theorem run_stopped {cs rest : List Char} {c : Char} {r r' : LeafReader} {t : Tree}
    (htext : text.toList = cs ++ c :: rest)
    (hfeeds : Feeds config (ofStack [.root {}]) cs (ofStack [.leaf r,
      .expression { ctx := .standalone, goal := .operand }, .root { begun := true }]))
    (hstop : r.feed (.ofChar c) = (r', .stop)) (htoken : r'.token? = some t)
    (h : t.IsOther whole) :
    Promises (run config (.root {}) text) fun result => ∃ r : RootReader,
      result.1.token = some (.ofForm .expressionStatement r.form) ∧ r.HoldsOther whole := by
  obtain ⟨hrests, _, hempty⟩ := Entrance.expression.reader_rests
  have hstart : Promises (start config (.root {})) fun a => a = ofStack [.root {}] ∧
      a.Reads (Reader.root {}).layer "" := promises_start hrests hempty
  refine hstart.bind fun a ha => ?_
  obtain ⟨rfl, hreads⟩ := ha
  have hfeed := hfeeds.feed_eq hreads
  have hread := hreads.promises_feed _ _ hfeed
  rw [htext, feed_append, hfeed]
  have hrest : Promises (feed config (ofStack [.leaf r,
      .expression { ctx := .standalone, goal := .operand }, .root { begun := true }]) (c :: rest))
      fun a' => a'.HoldsOther whole ∧ ∃ text', a'.Reads (Reader.root {}).layer text' := by
    rw [feed, List.foldlM_cons]
    have hkeep : StepsKeep config (HoldsOther whole) := stepsKeep_holdsOther whole
    exact (signal_promises hkeep (step_stopped hstop htoken h _ _) hread).bind fun a' ha' =>
      feed_promises hkeep ha'.1 ha'.2.1 rest
  exact hrest.bind fun a' ha' => ha'.1.finish ha'.2.choose_spec

/-- A text that goes on after its first leaf is not read as a leaf. -/
theorem leafText?_occupant?_parse_ne {cs rest : List Char} {c : Char}
    {r r' : LeafReader} {t tree leaf : Tree} (htext : whole.toList = cs ++ c :: rest)
    (hfeeds : Feeds config (ofStack [.root {}]) cs (ofStack [.leaf r,
      .expression { ctx := .standalone, goal := .operand }, .root { begun := true }]))
    (hstop : r.feed (.ofChar c) = (r', .stop)) (htoken : r'.token? = some t)
    (hother : t.IsOther whole) (h : parse .expression config whole = .ok tree)
    (hoccupant : Form.occupant? .expression tree.form = some leaf) :
    leaf.leafText? ≠ some whole := by
  have hlossless := text_of_parse h
  have hparse : Promises (parse .expression config whole) fun tree =>
      ∃ form, tree = (Tree.ofForm .expressionStatement form).placed ∧
        ∃ entry ∈ form, entry.2.IsOther whole := by
    refine (run_stopped htext hfeeds hstop htoken hother).bind fun result hresult => ?_
    obtain ⟨r, htop, entry, hentry, hother⟩ := hresult
    have hroot : Promises (Entrance.expression.rootOf result.1) fun root => ∃ form,
        root = .ofForm .expressionStatement form ∧ ∃ entry ∈ form, entry.2.IsOther whole := by
      rw [Entrance.rootOf, htop]
      refine promises_ok.2 ⟨_, rfl, entry, ?_, hother⟩
      exact List.mem_append_left _ (List.mem_append_right _ hentry)
    refine hroot.mapError.bind fun root hroot => promises_pure.2 ?_
    obtain ⟨form, rfl, hform⟩ := hroot
    exact ⟨form, rfl, hform⟩
  obtain ⟨form, rfl, entry, hentry, hother⟩ := hparse tree h
  obtain ⟨place, hplace⟩ := Form.occupant?_placeForm .start .expression form
  have hplaced : (Form.occupant? .expression form).map (fun t => (t.placeFrom place).1) =
      some leaf := hplace.symm.trans hoccupant
  obtain ⟨old, hold, rfl⟩ := Option.map_eq_some_iff.1 hplaced
  rw [Tree.leafText?_placeFrom]
  refine Form.leafText?_occupant?_ne ?_ hentry hother hold
  rw [← hlossless]
  simp [Tree.placed]

end Automaton

end ScriptTree
