import ScriptTree.Binary64
import ScriptTree.Literal.Error
import ScriptTree.Text.CharClass

/-!
Numeric literals: a scanner for decimal, hexadecimal and binary numbers with `_` between digits,
fractions and exponents, and the value of a complete literal.
-/

namespace ScriptTree

/-- The base of a number written with a mark such as `0x`. -/
inductive Radix where
  | hexadecimal
  | binary
  deriving DecidableEq, Repr

namespace Radix

/-- The number of digits. -/
def base : Radix → Nat
  | .hexadecimal => 16
  | .binary => 2

/-- Whether `c` is a digit of the base. -/
def accepts : Radix → Char → Bool
  | .hexadecimal, c => (Text.hexValue? c).isSome
  | .binary, c => c == '0' || c == '1'

end Radix

/-- The form of a complete numeric literal. -/
inductive NumberKind where
  | integer
  | radixInteger (radix : Radix)
  | float
  deriving DecidableEq, Repr

/-- How far the scanner has read into a numeric literal. -/
inductive NumberScan where
  | start
  /-- One `0`, which may still turn into a mark. -/
  | zero
  | integer
  /-- After a mark such as `0x`, before the first digit. -/
  | mark (radix : Radix)
  | radixDigits (radix : Radix)
  | leadingDot
  | fraction
  | exponent
  | exponentSign
  | exponentDigits
  deriving DecidableEq, Repr

namespace NumberScan

/-- Whether a numeric literal may begin with `c`. -/
def canStart (c : Char) : Bool :=
  Text.isDigit c || c == '.'

/-- A digit or the separator between digits. -/
def isDigitOrSeparator (c : Char) : Bool :=
  Text.isDigit c || c == '_'

/-- Whether `c` announces an exponent. -/
def isExponentMark (c : Char) : Bool :=
  c == 'e' || c == 'E'

/-- Read one character; `none` when it is not part of the literal. -/
def feed (scan : NumberScan) (c : Char) : Option NumberScan :=
  match scan with
  | .start =>
    if c == '0' then some .zero
    else if Text.isDigit c then some .integer
    else if c == '.' then some .leadingDot
    else none
  | .zero =>
    if c == 'x' || c == 'X' then some (.mark .hexadecimal)
    else if c == 'b' || c == 'B' then some (.mark .binary)
    else if isDigitOrSeparator c then some .integer
    else if c == '.' then some .fraction
    else if isExponentMark c then some .exponent
    else none
  | .integer =>
    if isDigitOrSeparator c then some .integer
    else if c == '.' then some .fraction
    else if isExponentMark c then some .exponent
    else none
  | .mark radix =>
    if c == '_' then some (.mark radix)
    else if radix.accepts c then some (.radixDigits radix)
    else none
  | .radixDigits radix =>
    if radix.accepts c || c == '_' then some (.radixDigits radix) else none
  | .leadingDot => if Text.isDigit c then some .fraction else none
  | .fraction =>
    if isDigitOrSeparator c then some .fraction
    else if isExponentMark c then some .exponent
    else none
  | .exponent =>
    if c == '+' || c == '-' then some .exponentSign
    else if Text.isDigit c then some .exponentDigits
    else none
  | .exponentSign => if Text.isDigit c then some .exponentDigits else none
  | .exponentDigits => if isDigitOrSeparator c then some .exponentDigits else none

/-- The form of what was read, or `none` while it is incomplete. -/
def kind? : NumberScan → Option NumberKind
  | .zero | .integer => some .integer
  | .radixDigits radix => some (.radixInteger radix)
  | .fraction | .exponentDigits => some .float
  | _ => none

/-- Read a whole text; `none` when some character is not part of the literal. -/
def feedAll (scan : NumberScan) (cs : List Char) : Option NumberScan :=
  cs.foldlM feed scan

@[simp]
theorem feedAll_nil (scan : NumberScan) : scan.feedAll [] = some scan := rfl

@[simp]
theorem feedAll_cons (scan : NumberScan) (c : Char) (cs : List Char) :
    scan.feedAll (c :: cs) = (scan.feed c).bind (feedAll · cs) := rfl

end NumberScan

/-- The value of a numeric literal. -/
inductive NumberValue where
  | integer (value : Nat)
  | float (value : Binary64)
  deriving DecidableEq, Repr

namespace NumberValue

/-- The largest integer a literal may denote. -/
def maxInteger : Nat := 0x7fffffffffffffff

/-- The largest number that fits in a word of 64 bits. -/
def maxWord : Nat := 0xffffffffffffffff

/-- A number that fits in a word. -/
def word? (n : Nat) : Option Nat :=
  if n ≤ maxWord then some n else none

/-- The value of `c` as a digit of a base up to sixteen. -/
def digitValue? (base : Nat) (c : Char) : Option Nat :=
  (Text.hexValue? c).filter (· < base)

/-- A word with one more digit behind it. Separators do not count. -/
def pushDigit? (base value : Nat) (c : Char) : Option Nat :=
  if c = '_' then some value
  else do
    let digit ← digitValue? base c
    let shifted ← word? (value * base)
    word? (shifted + digit)

/-- The integer that the digits denote in a base, unless something else stands among them or it is
too large. -/
def integer? (base : Nat) (cs : List Char) : Option Nat :=
  (cs.foldlM (pushDigit? base) 0).filter (· ≤ maxInteger)

/-- The number that the digits denote in a base, separators not counting. -/
def ofDigits (base : Nat) (cs : List Char) : Nat :=
  (cs.filterMap Text.hexValue?).foldl (fun value digit => value * base + digit) 0

/-- The number that decimal digits denote, of which there has to be one. -/
def decimal? (cs : List Char) : Option Nat :=
  if cs ≠ [] ∧ cs.all Text.isDigit then some (ofDigits 10 cs) else none

/-- The exponent behind its mark: digits that may have a sign. -/
def exponent? : List Char → Option Int
  | '+' :: cs => (decimal? cs).map Int.ofNat
  | '-' :: cs => (decimal? cs).map fun size => -Int.ofNat size
  | cs => (decimal? cs).map Int.ofNat

/-- The value of decimal digits with at most one point among them, in front of an exponent that may
be missing. -/
def float? (cs : List Char) : Option Binary64 := do
  let mantissa := cs.takeWhile (!NumberScan.isExponentMark ·)
  let fraction := (mantissa.dropWhile (· != '.')).drop 1
  let digits ← decimal? (mantissa.erase '.')
  let exponent ←
    match cs.dropWhile (!NumberScan.isExponentMark ·) with
    | [] => some 0
    | _ :: power => exponent? power
  return Binary64.ofDecimal digits (exponent - fraction.length)

/-- The value, or the error that there is none. -/
def orError (error : LiteralError) : Option NumberValue → Except LiteralError NumberValue
  | some value => .ok value
  | none => .error error

/-- The value of a text that is one complete numeric literal. -/
def ofText (text : String) : Except LiteralError NumberValue :=
  let cs := text.toList
  match (NumberScan.start.feedAll cs).bind NumberScan.kind? with
  | none => .error (.malformedNumber text)
  | some .integer => orError (.numberOutOfRange text) ((integer? 10 cs).map .integer)
  | some (.radixInteger radix) =>
    orError (.numberOutOfRange text) ((integer? radix.base (cs.drop 2)).map .integer)
  | some .float => orError (.malformedNumber text) ((float? (cs.filter (· != '_'))).map .float)

end NumberValue

end ScriptTree
