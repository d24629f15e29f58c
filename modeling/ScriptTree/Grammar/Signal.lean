/-!
The units in which text reaches the reading states: characters, of which some have a signal of
their own, and the end of the text.
-/

namespace ScriptTree

/-- One unit of input. -/
inductive Signal where
  | char (c : Char)
  | newLine
  | carriageReturn
  /-- `#` -/
  | commentStart
  /-- A backslash. -/
  | escape
  | endOfText
  deriving Repr

namespace Signal

/-- The signal of a character. -/
def ofChar (c : Char) : Signal :=
  if c = '\n' then .newLine
  else if c = '\r' then .carriageReturn
  else if c = '#' then .commentStart
  else if c = '\\' then .escape
  else .char c

/-- The character of a signal; the end of the text has none. -/
def toChar? : Signal → Option Char
  | .char c => some c
  | .newLine => some '\n'
  | .carriageReturn => some '\r'
  | .commentStart => some '#'
  | .escape => some '\\'
  | .endOfText => none

/-- Whether the line holds nothing more but a comment. -/
def endsLine : Signal → Bool
  | .newLine | .carriageReturn | .commentStart => true
  | .char _ | .escape | .endOfText => false

@[simp]
theorem endsLine_char (c : Char) : (char c).endsLine = false := rfl

/-- A signal carries the character it was made of. -/
@[simp]
theorem toChar?_ofChar (c : Char) : (ofChar c).toChar? = some c := by
  unfold ofChar
  repeat' split
  all_goals simp_all [toChar?]

end Signal

end ScriptTree
