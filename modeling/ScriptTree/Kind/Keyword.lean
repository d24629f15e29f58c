/-!
The reserved words of the language, their spellings and the lookup from a spelling.
-/

namespace ScriptTree

/-- A reserved word. -/
inductive Keyword where
  | andKw
  | asKw
  | awaitKw
  | breakKw
  | breakpointKw
  | classKw
  | classNameKw
  | constKw
  | continueKw
  | elifKw
  | elseKw
  | enumKw
  | extendsKw
  | falseKw
  | forKw
  | funcKw
  | ifKw
  | inKw
  | isKw
  | matchKw
  | notKw
  | nullKw
  | orKw
  | passKw
  | returnKw
  | selfKw
  | signalKw
  | staticKw
  | superKw
  | trueKw
  | varKw
  | whileKw
  deriving DecidableEq, Repr

namespace Keyword

/-- Every reserved word. -/
def all : List Keyword :=
  [.andKw, .asKw, .awaitKw, .breakKw, .breakpointKw, .classKw, .classNameKw, .constKw,
   .continueKw, .elifKw, .elseKw, .enumKw, .extendsKw, .falseKw, .forKw, .funcKw, .ifKw, .inKw,
   .isKw, .matchKw, .notKw, .nullKw, .orKw, .passKw, .returnKw, .selfKw, .signalKw, .staticKw,
   .superKw, .trueKw, .varKw, .whileKw]

/-- The spelling in source text. -/
def spelling : Keyword → String
  | .andKw => "and"
  | .asKw => "as"
  | .awaitKw => "await"
  | .breakKw => "break"
  | .breakpointKw => "breakpoint"
  | .classKw => "class"
  | .classNameKw => "class_name"
  | .constKw => "const"
  | .continueKw => "continue"
  | .elifKw => "elif"
  | .elseKw => "else"
  | .enumKw => "enum"
  | .extendsKw => "extends"
  | .falseKw => "false"
  | .forKw => "for"
  | .funcKw => "func"
  | .ifKw => "if"
  | .inKw => "in"
  | .isKw => "is"
  | .matchKw => "match"
  | .notKw => "not"
  | .nullKw => "null"
  | .orKw => "or"
  | .passKw => "pass"
  | .returnKw => "return"
  | .selfKw => "self"
  | .signalKw => "signal"
  | .staticKw => "static"
  | .superKw => "super"
  | .trueKw => "true"
  | .varKw => "var"
  | .whileKw => "while"

/-- The name under which the word is listed. -/
def label : Keyword → String
  | .andKw => "And"
  | .asKw => "As"
  | .awaitKw => "Await"
  | .breakKw => "Break"
  | .breakpointKw => "Breakpoint"
  | .classKw => "Class"
  | .classNameKw => "ClassName"
  | .constKw => "Const"
  | .continueKw => "Continue"
  | .elifKw => "Elif"
  | .elseKw => "Else"
  | .enumKw => "Enum"
  | .extendsKw => "Extends"
  | .falseKw => "False"
  | .forKw => "For"
  | .funcKw => "Func"
  | .ifKw => "If"
  | .inKw => "In"
  | .isKw => "Is"
  | .matchKw => "Match"
  | .notKw => "Not"
  | .nullKw => "Null"
  | .orKw => "Or"
  | .passKw => "Pass"
  | .returnKw => "Return"
  | .selfKw => "SelfKw"
  | .signalKw => "Signal"
  | .staticKw => "Static"
  | .superKw => "Super"
  | .trueKw => "True"
  | .varKw => "Var"
  | .whileKw => "While"

/-- The reserved word spelled `text`. -/
def ofSpelling? (text : String) : Option Keyword :=
  all.find? fun word => word.spelling == text

/-- Words that are complete operands on their own. -/
def isLiteral : Keyword → Bool
  | .trueKw | .falseKw | .nullKw | .selfKw | .superKw => true
  | _ => false

theorem mem_all (word : Keyword) : word ∈ all := by
  cases word <;> decide

/-- Looking up a spelling finds its word. -/
theorem ofSpelling?_spelling (word : Keyword) : ofSpelling? word.spelling = some word := by
  cases word <;> decide

end Keyword

end ScriptTree
