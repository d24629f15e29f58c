import ScriptTree.Unicode.Alphabetic
import ScriptTree.Unicode.Numeric
import ScriptTree.Unicode.WhiteSpace

/-!
Classes of characters that decide where words, numbers and blanks begin and end.
-/

namespace ScriptTree.Text

section Decidable

variable {P : Char → Prop} [DecidablePred P]

/-! A statement on the characters of a text is decided by going through the text: a search through
all characters there are would come to no end. -/

instance (priority := high) decidableForallMemList (cs : List Char) : Decidable (∀ c ∈ cs, P c) :=
  List.decidableBAll P cs

instance (priority := high) decidableExistsMemList (cs : List Char) : Decidable (∃ c ∈ cs, P c) :=
  List.decidableBEx P cs

instance (priority := high) decidableForallMemOption (c? : Option Char) :
    Decidable (∀ c ∈ c?, P c) :=
  Option.decidableForallMem c?

end Decidable

/-- Whether a word may begin with `c`. -/
def isWordStart (c : Char) : Bool :=
  c == '_' || Unicode.alphabetic.contains c.toNat

/-- Whether a word may go on with `c`. -/
def isWordContinue (c : Char) : Bool :=
  c == '_' || Unicode.alphabetic.contains c.toNat || Unicode.numeric.contains c.toNat

/-- Blanks that separate tokens within a line. -/
def isInlineSpace (c : Char) : Bool :=
  c == ' ' || c == '\t' || c == '\x0b' || c == '\x0c'

/-- Whether `c` is white space of any script, line breaks included. -/
def isBlank (c : Char) : Bool :=
  Unicode.whiteSpace.contains c.toNat

/-- Whether the characters form one word. -/
def isWord : List Char → Bool
  | [] => false
  | c :: rest => isWordStart c && rest.all isWordContinue

/-- Whether `c` is one of the ten decimal digits. -/
def isDigit (c : Char) : Bool :=
  '0' ≤ c && c ≤ '9'

/-- The value of `c` as a digit of base sixteen. -/
def hexValue? (c : Char) : Option Nat :=
  if '0' ≤ c && c ≤ '9' then some (c.toNat - '0'.toNat)
  else if 'a' ≤ c && c ≤ 'f' then some (c.toNat - 'a'.toNat + 10)
  else if 'A' ≤ c && c ≤ 'F' then some (c.toNat - 'A'.toNat + 10)
  else none

/-- What begins a word may also continue one. -/
theorem isWordContinue_of_isWordStart {c : Char} (h : isWordStart c) : isWordContinue c := by
  simp only [isWordStart, isWordContinue, Bool.or_eq_true] at h ⊢
  exact Or.inl h

end ScriptTree.Text
