import ScriptTree.Grammar.Production
import ScriptTree.Text.CharClass
import ScriptTree.Tree.Basic

/-!
Where an expression is read, and what can begin one there.
-/

namespace ScriptTree

/-- What surrounds an expression. -/
structure Context where
  /-- Inside brackets line breaks and comments are trivia. -/
  brackets : Bool
  /-- Whether assignments are allowed. -/
  assign : Bool
  /-- Whether there are operators at all; type names have none. -/
  operators : Bool
  /-- Whether this is a match pattern, in which `..` and bindings are operands. -/
  pattern : Bool
  /-- The indentation of the enclosing statement, from which bodies of lambdas count. -/
  level : Nat
  deriving DecidableEq, Repr

namespace Context

/-- A value. -/
def value (level : Nat) : Context := ⟨false, false, true, false, level⟩

/-- A statement of its own, in which assignments are allowed. -/
def statement (level : Nat) : Context := { value level with assign := true }

/-- The name of a type. -/
def typeName (level : Nat) : Context := { value level with operators := false }

/-- A pattern of a match case. -/
def matchPattern (level : Nat) : Context := { value level with pattern := true }

/-- The same place inside brackets. -/
def bracketed (ctx : Context) : Context := { ctx with brackets := true, assign := false }

/-- The place of an expression that is read on its own and may span lines. -/
def standalone : Context := { (value 0).bracketed with assign := true }

/-- Whether an expression can begin with `c`. -/
def canStart (ctx : Context) (c : Char) : Bool :=
  Text.isWordStart c
    || (if ctx.operators then Text.isDigit c || ".\"'&^$%([\x7b-+!~".toList.contains c
        else c == '"' || c == '\'')

/-- Whether an expression can begin with a word that was read already. -/
def canStartWith (ctx : Context) (word : Tree) : Bool :=
  match word.leafKind? with
  | some .identifier => true
  | some (.keyword kw) =>
    ctx.operators
      && (kw.isLiteral || kw == .notKw || kw == .awaitKw || (kw == .funcKw && !ctx.pattern)
          || (kw == .varKw && ctx.pattern))
  | _ => false

end Context

end ScriptTree
