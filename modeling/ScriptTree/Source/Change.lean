import ScriptTree.Source.Edit

/-!
The region of a text that edits affect, and where everything outside it moves.
-/

namespace ScriptTree

/-- An affected region of the old text; whatever follows it moves by `delta`. -/
structure Change where
  start : Nat
  stop : Nat
  delta : Int
  deriving DecidableEq, Repr

namespace Change

/-- The least region that covers all edits. -/
def covering? : List Edit → Option Change
  | [] => none
  | e :: rest =>
    some {
      start := rest.foldl (fun least e => min least e.offset) e.offset
      stop := rest.foldl (fun most e => max most e.stop) e.stop
      delta := Edit.totalDelta (e :: rest) }

/-- The region grown to cover another one as well. -/
def merge (c other : Change) : Change :=
  ⟨min c.start other.start, max c.stop other.stop, c.delta + other.delta⟩

/-- Whether the region and the range share a byte. -/
def intersects (c : Change) (s : Span) : Bool :=
  c.start < s.stop && s.start < c.stop

/-- Whether the region lies within the range, its ends included. -/
def within (c : Change) (s : Span) : Bool :=
  s.start ≤ c.start && c.stop ≤ s.stop

/-- Whether the range lies before the region. -/
def isBefore (c : Change) (s : Span) : Bool :=
  s.stop ≤ c.start

/-- Whether the range lies after the region. -/
def isAfter (c : Change) (s : Span) : Bool :=
  c.stop ≤ s.start

/-- Where an offset of the old text lies in the new text. Offsets before the end of the region
stay, and later ones move; offsets are taken modulo the number of offsets there are. -/
def adjust (c : Change) (offset : Nat) : Nat :=
  if offset < c.start ∨ offset < c.stop then offset
  else ((offset + c.delta) % (maxOffset + 1 : Int)).toNat

/-- Where a range lies in the new text, unless it has to be read again. -/
def adjustSpan? (c : Change) (s : Span) : Option Span :=
  if c.intersects s then none else some ⟨c.adjust s.start, c.adjust s.stop⟩

end Change

/-- The region affected by a whole batch. -/
def EditBatch.change? (batch : EditBatch) : Option Change :=
  Change.covering? batch.edits

end ScriptTree
