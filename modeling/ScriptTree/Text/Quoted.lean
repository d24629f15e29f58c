import ScriptTree.Unicode.GraphemeExtend
import ScriptTree.Unicode.Unprintable

/-!
Text between double quotes, written so that it fits on one line and every character can be told
apart: quotes, backslashes and characters without a printed form of their own are escaped.
-/

namespace ScriptTree.Text

/-- The digits of `n` in base sixteen, lower case and without padding. -/
def hexDigits (n : Nat) : List Char :=
  Nat.toDigits 16 n

/-- Whether a character would be invisible or join its neighbour if written as itself. -/
def needsCode (c : Char) : Bool :=
  Unicode.graphemeExtend.contains c.toNat || Unicode.unprintable.contains c.toNat

/-- How one character is written between the quotes. -/
def escape (c : Char) : List Char :=
  if c = '\x00' then ['\\', '0']
  else if c = '\t' then ['\\', 't']
  else if c = '\r' then ['\\', 'r']
  else if c = '\n' then ['\\', 'n']
  else if c = '"' then ['\\', '"']
  else if c = '\\' then ['\\', '\\']
  else if needsCode c then ['\\', 'u', '\x7b'] ++ hexDigits c.toNat ++ ['\x7d']
  else [c]

/-- The text between double quotes. -/
def quoted (text : String) : String :=
  String.ofList ('"' :: (text.toList.flatMap escape ++ ['"']))

end ScriptTree.Text
