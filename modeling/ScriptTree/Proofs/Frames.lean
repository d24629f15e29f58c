import ScriptTree.Grammar.Frames

/-!
# The counter of frames

Every frame that is entered is left again, whether what was built in it succeeded or not. So the
counter stands after each expression where it stood before, and a folding that counts its frames
gives what one gives that is told how many frames there are.
-/

namespace ScriptTree

/-- A counter that stands at the same frame again and has not gone beyond its maximum. -/
structure FrameCounter.Returned (f f' : FrameCounter) : Prop where
  depth_eq : f'.depth = f.depth
  max_eq : f'.max? = f.max?
  peak_le : f.peak ≤ f'.peak
  within : ∀ max ∈ f.max?, f.peak ≤ max → f'.peak ≤ max

namespace FrameCounter

variable {f f' f'' : FrameCounter}

theorem Returned.refl (f : FrameCounter) : f.Returned f :=
  ⟨rfl, rfl, Nat.le_refl _, fun _ _ h => h⟩

theorem Returned.trans (h : f.Returned f') (h' : f'.Returned f'') : f.Returned f'' where
  depth_eq := h'.depth_eq.trans h.depth_eq
  max_eq := h'.max_eq.trans h.max_eq
  peak_le := Nat.le_trans h.peak_le h'.peak_le
  within max hmax hpeak := h'.within max (by rwa [h.max_eq]) (h.within max hmax hpeak)

/-- The counter inside of one more frame. -/
def inner (f : FrameCounter) : FrameCounter :=
  { f with depth := f.depth + 1, peak := max f.peak (f.depth + 1) }

/-- A frame is entered if its depth is accepted. -/
theorem enter_eq (f : FrameCounter) :
    f.enter = (checkDepth .traceFrames f.max? (f.depth + 1)).map fun _ => f.inner := by
  unfold enter
  cases checkDepth .traceFrames f.max? (f.depth + 1) <;> rfl

/-- A counter that returned inside of a frame has returned when that frame is left. -/
theorem Returned.leave (hcheck : checkDepth .traceFrames f.max? (f.depth + 1) = .ok ())
    (h : f.inner.Returned f') : f.Returned f'.leave where
  depth_eq := by simp [FrameCounter.leave, h.depth_eq, inner]
  max_eq := h.max_eq
  peak_le := Nat.le_trans (Nat.le_max_left _ _) h.peak_le
  within max hmax hpeak :=
    h.within max hmax (Nat.max_le.2 ⟨hpeak, checkDepth_eq_ok_iff.1 hcheck max hmax⟩)

end FrameCounter

namespace Counted

variable {α β : Type}

/-- A failing step is the end, and the counter stays as that step left it. -/
theorem startFrom_bind (f : FrameCounter) (x : Counted α) (g : α → Counted β) :
    startFrom f (x >>= g) =
      match startFrom f x with
      | (.ok a, f') => startFrom f' (g a)
      | (.error e, f') => (.error e, f') := by
  unfold startFrom
  rw [ExceptT.run_bind, StateT.run_bind, Id.run_bind]
  rcases Id.run (x.run.run f) with ⟨_ | _, _⟩ <;> rfl

/-- What stands in a frame leaves it even when it fails. -/
theorem startFrom_nested (f : FrameCounter) (body : Counted α) :
    startFrom f (nested body) =
      match f.enter with
      | .ok inner => ((startFrom inner body).1, (startFrom inner body).2.leave)
      | .error e => (.error (.depth e), f) := by
  have hget : startFrom f get = (.ok f, f) := rfl
  have hlift (x : Except ParseError FrameCounter) : startFrom f (monadLift x) = (x, f) := rfl
  rw [nested, startFrom_bind, hget]
  dsimp only
  rw [startFrom_bind, show startFrom f _ = _ from hlift _]
  cases f.enter with
  | error e => rfl
  | ok inner =>
    have hbody : startFrom inner (try body finally modify FrameCounter.leave) =
        ((startFrom inner body).1, (startFrom inner body).2.leave) := by
      unfold startFrom ExceptT.run StateT.run Id.run
      simp only [tryFinally, Functor.map, ExceptT.map, ExceptT.mk, bind, StateT.bind, tryFinally']
      rcases body inner with ⟨_ | _, _⟩ <;> rfl
    exact hbody

/-- From every counter on the outcome is what is given for its maximum and its depth, and the
counter returns. -/
def Balanced (x : Counted α) (y : Option Nat → Nat → Except ParseError α) : Prop :=
  ∀ f : FrameCounter, (startFrom f x).1 = y f.max? f.depth ∧ f.Returned (startFrom f x).2

theorem balanced_pure (a : α) : Balanced (pure a) fun _ _ => .ok a :=
  fun f => ⟨rfl, .refl f⟩

/-- What enters no frame leaves the counter as it is. -/
theorem balanced_lift (x : Except ParseError α) :
    Balanced (liftM x : Counted α) fun _ _ => x :=
  fun f => ⟨rfl, .refl f⟩

/-- Balanced steps may follow one another. -/
theorem Balanced.bind {x : Counted α} {y : Option Nat → Nat → Except ParseError α}
    {g : α → Counted β} {z : α → Option Nat → Nat → Except ParseError β} (hx : Balanced x y)
    (hg : ∀ a, Balanced (g a) (z a)) :
    Balanced (x >>= g) fun max? frames => y max? frames >>= fun a => z a max? frames := by
  intro f
  obtain ⟨hresult, hreturned⟩ := hx f
  dsimp only
  rw [startFrom_bind, ← hresult]
  rcases hrun : startFrom f x with ⟨e | a, f'⟩ <;> rw [hrun] at hreturned
  · exact ⟨rfl, hreturned⟩
  · obtain ⟨hnext, hthere⟩ := hg a f'
    rw [hreturned.max_eq, hreturned.depth_eq] at hnext
    exact ⟨hnext, hreturned.trans hthere⟩

/-- One balanced step for each element of a list. -/
theorem Balanced.mapM {g : α → Counted β} {z : α → Option Nat → Nat → Except ParseError β}
    (hg : ∀ a, Balanced (g a) (z a)) (as : List α) :
    Balanced (as.mapM g) fun max? frames => as.mapM fun a => z a max? frames := by
  induction as with
  | nil => exact balanced_pure []
  | cons a as ih =>
    simp only [List.mapM_cons]
    exact (hg a).bind fun b => ih.bind fun bs => balanced_pure (b :: bs)

/-- What is balanced may stand in a frame of its own, which is checked first. -/
theorem Balanced.nested {x : Counted α} {y : Option Nat → Nat → Except ParseError α}
    (hx : Balanced x y) :
    Balanced (nested x) fun max? frames => (do
      ParseError.ofDepth (checkDepth .traceFrames max? (frames + 1))
      y max? (frames + 1)) := by
  intro f
  rw [startFrom_nested, f.enter_eq]
  cases hcheck : checkDepth .traceFrames f.max? (f.depth + 1) with
  | error e =>
    dsimp only
    rw [hcheck]
    exact ⟨rfl, .refl f⟩
  | ok _ =>
    obtain ⟨hresult, hreturned⟩ := hx f.inner
    dsimp only
    rw [hcheck]
    exact ⟨hresult, hreturned.leave hcheck⟩

/-! ### Folding -/

variable {fuel : Nat}

/-- Operands are built in balance with this much fuel. -/
def ClimbBalanced (fuel : Nat) : Prop :=
  ∀ least pieces, Balanced (climb fuel least pieces) fun max? frames =>
    Climbed.climb max? fuel frames least pieces

/-- Single operands are built in balance with this much fuel. -/
def PrimaryBalanced (fuel : Nat) : Prop :=
  ∀ pieces, Balanced (primary fuel pieces) fun max? frames =>
    Climbed.primary max? fuel frames pieces

/-- Operands are extended in balance with this much fuel. -/
def ExtendBalanced (fuel : Nat) : Prop :=
  ∀ least left, Balanced (extend fuel least left) fun max? frames =>
    Climbed.extend max? fuel frames least left

/-- Putting an operator together with its operand, if there is one. -/
theorem balanced_prefixed (hclimb : ClimbBalanced fuel) (least : Nat) (rest : List Piece)
    (before : List Tree) (kind : NodeKind) (form : Climbed → List Entry) :
    Balanced
      (do match ← climb fuel least rest with
          | none => return none
          | some operand =>
            return some (← Climbed.assemble before kind (form operand) operand.rest))
      fun max? frames =>
        (do match ← Climbed.climb max? fuel frames least rest with
            | none => return none
            | some operand =>
              return some (← Climbed.assemble before kind (form operand) operand.rest)) := by
  refine (hclimb least rest).bind fun operand? => ?_
  cases operand? with
  | none => exact balanced_pure none
  | some operand => exact (balanced_lift _).bind fun _ => balanced_pure _

theorem primary_balanced (hclimb : ClimbBalanced fuel) : PrimaryBalanced (fuel + 1) := by
  intro pieces
  simp only [primary, Climbed.primary]
  rcases Climbed.skipTrivia pieces with ⟨before, _ | ⟨piece, rest⟩⟩
  · exact balanced_pure none
  · cases piece with
    | operation op token =>
      cases op with
      | unary op => exact balanced_prefixed hclimb _ rest before _ _
      | await => exact balanced_prefixed hclimb _ rest before _ _
      | _ => exact balanced_pure none
    | operand token => exact balanced_pure _
    | _ => exact balanced_pure none

/-- A node that was put together is extended further. -/
theorem extendAssembled_balanced (hextend : ExtendBalanced fuel) (least : Nat)
    (before : List Tree) (kind : NodeKind) (form : List Entry) (rest : List Piece) :
    Balanced (do extend fuel least (← Climbed.assemble before kind form rest))
      fun max? frames => (do
        Climbed.extend max? fuel frames least (← Climbed.assemble before kind form rest)) :=
  (balanced_lift _).bind fun left => hextend least left

theorem extend_balanced (hclimb : ClimbBalanced fuel) (hextend : ExtendBalanced fuel) :
    ExtendBalanced (fuel + 1) := by
  intro least left
  have hself : Balanced (pure left) fun _ _ => .ok left := balanced_pure left
  simp only [extend, Climbed.extend]
  rcases Climbed.skipTrivia left.rest with ⟨gap, _ | ⟨piece, rest⟩⟩
  · exact hself
  · cases piece with
    | operation op token =>
      cases op with
      | binary op =>
        dsimp only
        cases op.binaryPrecedence? with
        | none => exact hself
        | some precedence =>
          dsimp only
          split
          · exact hself
          · refine (hclimb _ rest).bind fun right? => ?_
            cases right? with
            | none => exact hself
            | some right => exact extendAssembled_balanced hextend _ _ _ _ _
      | ternaryIf =>
        dsimp only
        split
        · exact hself
        · refine (hclimb _ rest).bind fun condition? => ?_
          cases condition? with
          | none => exact extendAssembled_balanced hextend _ _ _ _ _
          | some condition =>
            dsimp only
            rcases Climbed.skipTrivia condition.rest with ⟨gap', _ | ⟨piece, rest⟩⟩
            · exact extendAssembled_balanced hextend _ _ _ _ _
            · cases piece with
              | operation op elseToken =>
                cases op with
                | ternaryElse =>
                  refine (hclimb _ rest).bind fun value? => ?_
                  cases value? with
                  | none => exact extendAssembled_balanced hextend _ _ _ _ _
                  | some value => exact extendAssembled_balanced hextend _ _ _ _ _
                | _ => exact extendAssembled_balanced hextend _ _ _ _ _
              | _ => exact extendAssembled_balanced hextend _ _ _ _ _
      | _ => exact hself
    | _ => exact hself

/-- Every operand is built in a frame of its own. -/
theorem climb_balanced (hprimary : PrimaryBalanced fuel) (hextend : ExtendBalanced fuel) :
    ClimbBalanced (fuel + 1) := by
  intro least pieces
  simp only [climb, Climbed.climb]
  have hinside : Balanced
      (do match ← primary fuel pieces with
          | none => return none
          | some left => return some (← extend fuel least left))
      fun max? frames =>
        (do match ← Climbed.primary max? fuel frames pieces with
            | none => return none
            | some left => return some (← Climbed.extend max? fuel frames least left)) := by
    refine (hprimary pieces).bind fun left? => ?_
    cases left? with
    | none => exact balanced_pure none
    | some left => exact (hextend least left).bind fun _ => balanced_pure _
  exact hinside.nested

/-- With any fuel operands are built in balance. -/
theorem balanced (fuel : Nat) :
    ClimbBalanced fuel ∧ PrimaryBalanced fuel ∧ ExtendBalanced fuel := by
  induction fuel with
  | zero =>
    refine ⟨fun least pieces => ?_, fun pieces => ?_, fun least left => ?_⟩
    · simp only [climb, Climbed.climb]
      exact balanced_pure none
    · simp only [primary, Climbed.primary]
      exact balanced_pure none
    · simp only [extend, Climbed.extend]
      exact balanced_pure left
  | succ fuel ih =>
    obtain ⟨hclimb, hprimary, hextend⟩ := ih
    exact ⟨climb_balanced hprimary hextend, primary_balanced hclimb,
      extend_balanced hclimb hextend⟩

/-- So is a whole expression, from no frames on. -/
theorem fold_balanced (pieces : List Piece) :
    Balanced (fold pieces) fun max? frames => (do
      match ← Climbed.climb max? (2 * pieces.length + 2) frames 0 pieces with
      | none => return { trailing := pieces.map Climbed.leftover }
      | some top =>
        return { leading := top.before, token := some top.token,
                 trailing := top.rest.map Climbed.leftover }) := by
  refine ((balanced _).1 0 pieces).bind fun top? => ?_
  cases top? with
  | none => exact balanced_pure _
  | some top => exact balanced_pure _

/-- The expressions of a text are folded with one counter as each of them is without it. No frame
stays entered, also when one of them is refused, and none was entered beyond the maximum. -/
theorem startFrom_start_mapM_fold (max? : Option Nat) (runs : List (List Piece)) :
    (startFrom (.start max?) (runs.mapM fold)).1 = runs.mapM (Climbed.fold max?) ∧
      (startFrom (.start max?) (runs.mapM fold)).2.depth = 0 ∧
      ∀ max ∈ max?, (startFrom (.start max?) (runs.mapM fold)).2.peak ≤ max := by
  obtain ⟨hresult, hreturned⟩ := (Balanced.mapM fold_balanced runs) (.start max?)
  exact ⟨hresult, hreturned.depth_eq, fun max hmax => hreturned.within max hmax (Nat.zero_le _)⟩

end Counted

end ScriptTree
