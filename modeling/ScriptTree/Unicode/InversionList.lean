/-!
Sets of code points written as inversion lists: the points at which membership flips, in
increasing order. A set begins outside.
-/

namespace ScriptTree.Unicode

/-- A set of code points, given by the points at which membership flips. -/
structure InversionList where
  /-- The flip points in increasing order; everything below the first lies outside. -/
  flips : List Nat

namespace InversionList

/-- Membership after the flips at or below `n`, in a list that starts outside. -/
def crossed (n : Nat) : List Nat → Bool
  | [] => false
  | flip :: rest => decide (flip ≤ n) && !crossed n rest

/-- Whether the code point `n` belongs to the set. -/
def contains (s : InversionList) (n : Nat) : Bool :=
  crossed n s.flips

end InversionList

end ScriptTree.Unicode
