import ScriptTree.Literal.Error
import ScriptTree.Literal.Verdict
import ScriptTree.Text.CharClass

/-!
String literals: an optional mark, an opening run of one or three quotes, a body with backslash
escapes, and the matching closing run. Only triple quotes may span lines. The module holds the
scanner, the value of a complete literal, and the literal that denotes a given value.
-/

namespace ScriptTree

/-- The quotes around a string literal. -/
inductive StringStyle where
  | double
  | single
  | tripleDouble
  | tripleSingle
  deriving DecidableEq, Repr

namespace StringStyle

/-- The quote character. -/
def quote : StringStyle → Char
  | .double | .tripleDouble => '"'
  | .single | .tripleSingle => '\''

/-- Whether the quotes stand three in a row. -/
def isTriple : StringStyle → Bool
  | .tripleDouble | .tripleSingle => true
  | _ => false

/-- The run of quotes at either end. -/
def delimiter (style : StringStyle) : List Char :=
  List.replicate (if style.isTriple then 3 else 1) style.quote

/-- The style with this quote and this many quotes in a row. -/
def ofParts (quote : Char) (triple : Bool) : StringStyle :=
  match quote == '"', triple with
  | true, false => .double
  | true, true => .tripleDouble
  | false, false => .single
  | false, true => .tripleSingle

end StringStyle

/-- The mark before a string literal, which selects the flavour of string. -/
inductive StringMark where
  | none
  /-- `&"name"` -/
  | stringName
  /-- `^"path"` -/
  | nodePath
  deriving DecidableEq, Repr

/-- The mark as written. -/
def StringMark.spelling : StringMark → List Char
  | .none => []
  | .stringName => ['&']
  | .nodePath => ['^']

/-- How far the scanner has read into a string literal. -/
inductive StringPhase where
  | start
  | afterMark
  /-- One opening quote. -/
  | openedOnce
  /-- Two opening quotes: the empty string, unless a third one follows. -/
  | openedTwice
  | body
  /-- After a backslash. -/
  | escape
  /-- One quote of a closing run of three. -/
  | closedOnce
  /-- Two quotes of a closing run of three. -/
  | closedTwice
  | done
  deriving DecidableEq, Repr

/-- A scanner for string literals. -/
structure StringScan where
  phase : StringPhase
  mark : StringMark
  quote : Char
  triple : Bool
  deriving DecidableEq, Repr

namespace StringScan

/-- Nothing read yet. -/
def start : StringScan := ⟨.start, .none, '"', false⟩

/-- Whether a string literal may begin with `c`. -/
def canStart (c : Char) : Bool :=
  c == '"' || c == '\'' || c == '&' || c == '^'

/-- Whether `c` is either quote. -/
def isQuote (c : Char) : Bool :=
  c == '"' || c == '\''

/-- Read a character of the body, or the first quote of the closing run. -/
def feedBody (scan : StringScan) (c : Char) : StringScan × Verdict :=
  if c = '\\' then ({ scan with phase := .escape }, .accept)
  else if c = scan.quote then
    if scan.triple then ({ scan with phase := .closedOnce }, .accept)
    else ({ scan with phase := .done }, .done)
  else if (c = '\n' ∨ c = '\r') ∧ scan.triple = false then ({ scan with phase := .body }, .stop)
  else ({ scan with phase := .body }, .accept)

/-- Read the first opening quote. -/
def feedOpening (scan : StringScan) (c : Char) : StringScan × Verdict :=
  if isQuote c then ({ scan with quote := c, phase := .openedOnce }, .accept)
  else (scan, .stop)

/-- Read one character. -/
def feed (scan : StringScan) (c : Char) : StringScan × Verdict :=
  match scan.phase with
  | .start =>
    if c = '&' then ({ scan with mark := .stringName, phase := .afterMark }, .accept)
    else if c = '^' then ({ scan with mark := .nodePath, phase := .afterMark }, .accept)
    else scan.feedOpening c
  | .afterMark => scan.feedOpening c
  | .openedOnce =>
    if c = scan.quote then ({ scan with phase := .openedTwice }, .accept) else scan.feedBody c
  | .openedTwice =>
    if c = scan.quote then ({ scan with triple := true, phase := .body }, .accept)
    else ({ scan with phase := .done }, .stop)
  | .body => scan.feedBody c
  | .escape => ({ scan with phase := .body }, .accept)
  | .closedOnce =>
    if c = scan.quote then ({ scan with phase := .closedTwice }, .accept) else scan.feedBody c
  | .closedTwice =>
    if c = scan.quote then ({ scan with phase := .done }, .done) else scan.feedBody c
  | .done => (scan, .stop)

/-- Whether the closing quotes were read. Two quotes are an empty string already; a third would
turn them into an opening run. -/
def isTerminated (scan : StringScan) : Bool :=
  scan.phase == .done || scan.phase == .openedTwice

/-- The quotes around the literal. -/
def style (scan : StringScan) : StringStyle :=
  StringStyle.ofParts scan.quote scan.triple

/-- Read as much of a text as belongs to the literal, and return what follows it. -/
def feedAll (scan : StringScan) : List Char → StringScan × List Char
  | [] => (scan, [])
  | c :: rest =>
    match scan.feed c with
    | (next, .stop) => (next, c :: rest)
    | (next, _) => next.feedAll rest

end StringScan

namespace StringLiteral

/-- The number that digits of base sixteen denote; a plus sign may stand before them. -/
def hexValue? (digits : List Char) : Option Nat :=
  let digits := if digits.head? = some '+' then digits.drop 1 else digits
  if digits.isEmpty then none
  else digits.foldlM (fun value c => (Text.hexValue? c).map (value * 16 + ·)) 0

/-- The character with a code point, unless the code point belongs to no character. -/
def charOfCode? (code : Nat) : Option Char :=
  if code.isValidChar then some (Char.ofNat code) else none

/-- The character denoted by the digits of a numeric escape of the given width. -/
def charOfDigits? (width : Nat) (digits : List Char) : Option Char :=
  if (String.ofList digits).utf8ByteSize = width then (hexValue? digits).bind charOfCode?
  else none

/-- The character denoted by one character after a backslash. -/
def simpleEscape? : Char → Option Char
  | 'n' => some '\n'
  | 't' => some '\t'
  | 'r' => some '\r'
  | 'a' => some '\x07'
  | 'b' => some '\x08'
  | 'f' => some '\x0c'
  | 'v' => some '\x0b'
  | '"' => some '"'
  | '\'' => some '\''
  | '\\' => some '\\'
  | _ => none

/-- The number of digits of a numeric escape. -/
def codeWidth? : Char → Option Nat
  | 'u' => some 4
  | 'U' => some 6
  | _ => none

/-- Resolve the escapes of a body. A backslash before a line break joins the lines. -/
def unescapeChars : List Char → Except LiteralError (List Char)
  | [] => .ok []
  | c :: rest =>
    if c ≠ '\\' then return c :: (← unescapeChars rest)
    else
      match rest with
      | [] => .error (.invalidEscape ' ')
      | '\n' :: rest => unescapeChars rest
      | '\r' :: '\n' :: rest => unescapeChars rest
      | '\r' :: rest => unescapeChars rest
      | e :: rest =>
        match simpleEscape? e, codeWidth? e with
        | some value, _ => return value :: (← unescapeChars rest)
        | none, some width =>
          match charOfDigits? width (rest.take width) with
          | some value => return value :: (← unescapeChars (rest.drop width))
          | none =>
            .error (.invalidUnicodeEscape (String.ofList ('\\' :: e :: rest.take width)))
        | none, none => .error (.invalidEscape e)
termination_by cs => cs.length
decreasing_by all_goals simp_all; try omega

/-- The value of the body of a literal. -/
def unescape (body : String) : Except LiteralError String :=
  (unescapeChars body.toList).map String.ofList

/-- The value of a text that is one complete string literal. -/
def value (text : String) : Except LiteralError String :=
  let (scan, rest) := StringScan.start.feedAll text.toList
  if !scan.isTerminated then .error (.unterminatedString text)
  else if !rest.isEmpty then .error (.malformedString text)
  else
    let width := scan.style.delimiter.length
    let inner := text.toList.drop (scan.mark.spelling.length + width)
    (unescapeChars (inner.take (inner.length - width))).map String.ofList

/-- How a character is written between quotes of the given style. -/
def quoteChar (style : StringStyle) (c : Char) : List Char :=
  if c = '\\' then ['\\', '\\']
  else if c = style.quote then ['\\', c]
  else if c = '\n' ∧ style.isTriple = false then ['\\', 'n']
  else if c = '\r' then ['\\', 'r']
  else [c]

/-- A literal of the given style that denotes `text`. -/
def quote (text : String) (style : StringStyle) (mark : StringMark) : String :=
  String.ofList <|
    mark.spelling ++ style.delimiter ++ text.toList.flatMap (quoteChar style) ++ style.delimiter

end StringLiteral

end ScriptTree
