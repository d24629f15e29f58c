/-!
Byte ranges of a text, half open: the start belongs to the range and the end does not.
-/

namespace ScriptTree

/-- The largest byte offset a text may have. -/
def maxOffset : Nat := 0xffffffff

/-- A byte range. -/
structure Span where
  start : Nat
  stop : Nat
  deriving DecidableEq, Repr

namespace Span

/-- The empty range at an offset. -/
def point (offset : Nat) : Span := ⟨offset, offset⟩

/-- The number of bytes. -/
def length (s : Span) : Nat :=
  s.stop - s.start

/-- Whether the range holds no byte. -/
def isEmpty (s : Span) : Bool :=
  s.start == s.stop

/-- Whether the byte at an offset lies in the range. -/
def contains (s : Span) (offset : Nat) : Bool :=
  s.start ≤ offset && offset < s.stop

/-- Whether another range lies within this one. -/
def covers (s other : Span) : Bool :=
  s.start ≤ other.start && other.stop ≤ s.stop

/-- The least range that covers both. -/
def merge (s other : Span) : Span :=
  ⟨min s.start other.start, max s.stop other.stop⟩

/-- The range as outlines show it. -/
def display (s : Span) : String :=
  toString s.start ++ ".." ++ toString s.stop

/-- A merged range covers its first part. -/
theorem covers_merge_left (s other : Span) : (s.merge other).covers s := by
  simp only [covers, merge, Bool.and_eq_true]
  exact ⟨decide_eq_true (Nat.min_le_left ..), decide_eq_true (Nat.le_max_left ..)⟩

/-- A merged range covers its second part. -/
theorem covers_merge_right (s other : Span) : (s.merge other).covers other := by
  simp only [covers, merge, Bool.and_eq_true]
  exact ⟨decide_eq_true (Nat.min_le_right ..), decide_eq_true (Nat.le_max_right ..)⟩

end Span

end ScriptTree
