/-!
What a scanner that is fed one character at a time says about it.
-/

namespace ScriptTree

/-- The fate of a character offered to a scanner. -/
inductive Verdict where
  /-- Taken; the literal may go on. -/
  | accept
  /-- Taken, and the literal ends with it. -/
  | done
  /-- Not part of the literal, and not taken. -/
  | stop
  deriving DecidableEq, Repr

end ScriptTree
