import ScriptTree.Source.Span

/-!
Positions in a text: a byte offset together with a line and a column. Lines and columns count
from zero, columns count characters, and only a line feed begins a new line.
-/

namespace ScriptTree

/-- A point of a text. -/
structure Position where
  offset : Nat
  line : Nat
  column : Nat
  deriving DecidableEq, Repr

namespace Position

/-- The beginning of a text. -/
def start : Position := ⟨0, 0, 0⟩

/-- The position after reading one character. -/
def advanceChar (p : Position) (c : Char) : Position :=
  if c = '\n' then ⟨p.offset + c.utf8Size, p.line + 1, 0⟩
  else ⟨p.offset + c.utf8Size, p.line, p.column + 1⟩

/-- The position after reading characters. -/
def advanceChars (p : Position) (cs : List Char) : Position :=
  cs.foldl advanceChar p

/-- The position after reading a text. -/
def advance (p : Position) (text : String) : Position :=
  p.advanceChars text.toList

/-- Line and column counted from one, the way editors show them. -/
def display (p : Position) : String :=
  toString (p.line + 1) ++ ":" ++ toString (p.column + 1)

/-- Offset, line and column as they are. -/
def debug (p : Position) : String :=
  toString p.offset ++ "@" ++ toString p.line ++ ":" ++ toString p.column

@[simp]
theorem advanceChars_nil (p : Position) : p.advanceChars [] = p := rfl

@[simp]
theorem advanceChars_append (p : Position) (xs ys : List Char) :
    p.advanceChars (xs ++ ys) = (p.advanceChars xs).advanceChars ys := by
  simp [advanceChars]

/-- Reading one text after another reads their concatenation. -/
@[simp]
theorem advance_append (p : Position) (s t : String) :
    p.advance (s ++ t) = (p.advance s).advance t := by
  simp [advance]

end Position

/-- Where a token begins and ends. -/
structure Extent where
  start : Position
  stop : Position
  deriving DecidableEq, Repr

namespace Extent

/-- The extent of a token whose place is not known yet. -/
def unplaced : Extent := ⟨.start, .start⟩

/-- The byte range. -/
def span (e : Extent) : Span := ⟨e.start.offset, e.stop.offset⟩

/-- Lines and columns of both ends, counted from zero. -/
def lines (e : Extent) : String :=
  toString e.start.line ++ ":" ++ toString e.start.column ++ "-"
    ++ toString e.stop.line ++ ":" ++ toString e.stop.column

end Extent

end ScriptTree
