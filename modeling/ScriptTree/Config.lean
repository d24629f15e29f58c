/-!
Settings shared by everything that reads text.
-/

namespace ScriptTree

/-- How text is read. -/
structure Config where
  /-- Blanks that make up one unit of indentation. -/
  indentationSize : Nat := 4
  /-- Whether groups of blanks count as indentation; tabs always do. -/
  spacesAsIndentation : Bool := true
  /-- The number of bytes asked for at a time when text comes from a stream. -/
  readBufferSize : Nat := 4096
  /-- The most reading states that may be open at once; `none` for no limit. -/
  maxReadingStack : Option Nat := some 64
  /-- The most frames that folding operators may use; `none` for no limit. -/
  maxTraceFrames : Option Nat := some 512
  deriving DecidableEq, Repr

/-- Settings without limits on depth. -/
def Config.unlimited : Config := { maxReadingStack := none, maxTraceFrames := none }

end ScriptTree
