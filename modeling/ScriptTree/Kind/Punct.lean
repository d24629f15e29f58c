/-!
Fixed punctuation, its spellings and the lookup from a spelling.
-/

namespace ScriptTree

/-- A punctuation mark. -/
inductive Punct where
  | colon
  | comma
  | semicolon
  | point
  | doubleDot
  | openParen
  | closeParen
  | openBracket
  | closeBracket
  | openBrace
  | closeBrace
  | atSign
  deriving DecidableEq, Repr

namespace Punct

/-- Every punctuation mark. -/
def all : List Punct :=
  [.colon, .comma, .semicolon, .point, .doubleDot, .openParen, .closeParen, .openBracket,
   .closeBracket, .openBrace, .closeBrace, .atSign]

/-- The spelling in source text. -/
def spelling : Punct → String
  | .colon => ":"
  | .comma => ","
  | .semicolon => ";"
  | .point => "."
  | .doubleDot => ".."
  | .openParen => "("
  | .closeParen => ")"
  | .openBracket => "["
  | .closeBracket => "]"
  | .openBrace => "\x7b"
  | .closeBrace => "\x7d"
  | .atSign => "@"

/-- The name under which the mark is listed. -/
def label : Punct → String
  | .colon => "Colon"
  | .comma => "Comma"
  | .semicolon => "Semicolon"
  | .point => "Point"
  | .doubleDot => "DoubleDot"
  | .openParen => "OpenParen"
  | .closeParen => "CloseParen"
  | .openBracket => "OpenBracket"
  | .closeBracket => "CloseBracket"
  | .openBrace => "OpenBrace"
  | .closeBrace => "CloseBrace"
  | .atSign => "At"

/-- The mark spelled `text`. -/
def ofSpelling? (text : String) : Option Punct :=
  all.find? fun mark => mark.spelling == text

/-- Whether the spelling begins with `c`. -/
def startsWith (mark : Punct) (c : Char) : Bool :=
  mark.spelling.toList.head? == some c

theorem mem_all (mark : Punct) : mark ∈ all := by
  cases mark <;> decide

/-- Looking up a spelling finds its mark. -/
theorem ofSpelling?_spelling (mark : Punct) : ofSpelling? mark.spelling = some mark := by
  cases mark <;> decide

end Punct

end ScriptTree
