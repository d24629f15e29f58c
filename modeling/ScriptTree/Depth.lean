/-!
Limits on nesting: how many reading states may be open, and how many frames the folding of
operators may use. Exceeding a limit is the only way in which reading text can fail.
-/

namespace ScriptTree

/-- The nesting that a limit bounds. -/
inductive DepthLimit where
  /-- Open reading states. -/
  | readingStack
  /-- Nested frames while operators are folded. -/
  | traceFrames
  deriving DecidableEq, Repr

/-- The limit as messages name it. -/
def DepthLimit.display : DepthLimit → String
  | .readingStack => "reading stack"
  | .traceFrames => "trace frames"

/-- Nesting beyond a configured maximum. -/
structure DepthOverflow where
  /-- The depth that was about to be reached. -/
  depth : Nat
  max : Nat
  limit : DepthLimit
  deriving DecidableEq, Repr

namespace DepthOverflow

/-- The text of the error. -/
def message (e : DepthOverflow) : String :=
  e.limit.display ++ " depth " ++ toString e.depth ++ " exceeds the configured maximum of "
    ++ toString e.max

end DepthOverflow

/-- Accept `depth` unless there is a maximum and it is exceeded. -/
def checkDepth (limit : DepthLimit) (max? : Option Nat) (depth : Nat) :
    Except DepthOverflow Unit :=
  match max? with
  | none => .ok ()
  | some max => if max < depth then .error ⟨depth, max, limit⟩ else .ok ()

/-- Without a maximum every depth is accepted. -/
@[simp]
theorem checkDepth_none (limit : DepthLimit) (depth : Nat) :
    checkDepth limit none depth = .ok () := rfl

/-- A depth is accepted exactly when no maximum lies below it. -/
theorem checkDepth_eq_ok_iff {limit : DepthLimit} {max? : Option Nat} {depth : Nat} :
    checkDepth limit max? depth = .ok () ↔ ∀ max ∈ max?, depth ≤ max := by
  cases max? with
  | none => simp
  | some max =>
    by_cases h : max < depth
    · simp [checkDepth, h]
    · simp [checkDepth, h, Nat.not_lt.mp h]

/-- A count of nested frames with the greatest count so far. -/
structure FrameCounter where
  depth : Nat
  peak : Nat
  max? : Option Nat
  deriving DecidableEq, Repr

namespace FrameCounter

/-- No frame entered yet. -/
def start (max? : Option Nat) : FrameCounter := ⟨0, 0, max?⟩

/-- Enter a frame, unless that exceeds the maximum. -/
def enter (f : FrameCounter) : Except DepthOverflow FrameCounter := do
  checkDepth .traceFrames f.max? (f.depth + 1)
  return { f with depth := f.depth + 1, peak := max f.peak (f.depth + 1) }

/-- Leave the innermost frame. -/
def leave (f : FrameCounter) : FrameCounter :=
  { f with depth := f.depth - 1 }

end FrameCounter

end ScriptTree
