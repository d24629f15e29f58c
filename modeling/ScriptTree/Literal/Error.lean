/-!
Why a text is not a literal of its kind.
-/

namespace ScriptTree

/-- A text that does not follow the grammar of its literal. -/
inductive LiteralError where
  | malformedNumber (text : String)
  | numberOutOfRange (text : String)
  | unterminatedString (text : String)
  | malformedString (text : String)
  | invalidEscape (c : Char)
  | invalidUnicodeEscape (escape : String)
  | invalidIdentifier (text : String)
  deriving DecidableEq, Repr

/-- The text of the error. -/
def LiteralError.message : LiteralError → String
  | malformedNumber text => "malformed number literal `" ++ text ++ "`"
  | numberOutOfRange text => "number literal `" ++ text ++ "` is out of range"
  | unterminatedString text => "unterminated string literal `" ++ text ++ "`"
  | malformedString text => "malformed string literal `" ++ text ++ "`"
  | invalidEscape c => "invalid escape sequence `\\" ++ c.toString ++ "`"
  | invalidUnicodeEscape escape => "invalid unicode escape `" ++ escape ++ "`"
  | invalidIdentifier text => "`" ++ text ++ "` is not a valid identifier"

end ScriptTree
