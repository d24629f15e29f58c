import ScriptTree.Grammar.Signal
import ScriptTree.Literal.Number
import ScriptTree.Literal.StringLiteral
import ScriptTree.Literal.Verdict
import ScriptTree.Tree.Basic

/-!
Readers of a single leaf: each takes the characters that belong to its leaf and stops at the
first that does not.
-/

namespace ScriptTree

/-- A leaf of which the text so far was read. -/
inductive LeafReader where
  /-- White space inside a line or at its beginning. -/
  | blank (kind : LeafKind) (text : String)
  | comment (text : String)
  /-- A backslash, up to the line break after it. -/
  | continuation (text : String)
  /-- An identifier or a reserved word. -/
  | word (text : String)
  | number (scan : NumberScan) (text : String)
  | string (scan : StringScan) (text : String)
  /-- A scene path, with a scanner once the path turns out to be quoted. -/
  | nodePath (quoted : Option StringScan) (text : String)
  /-- The longest spelling of an operator. -/
  | operator (text : String)
  /-- One or two points. -/
  | dots (count : Nat)
  /-- Text for which the grammar has no place. -/
  | invalid (text : String)
  deriving DecidableEq, Repr

namespace LeafReader

/-- Characters that end text without a place, because the grammar may go on from them. -/
def endsInvalid (c : Char) : Bool :=
  Text.isBlank c || "#()[]\x7b\x7d,:;".toList.contains c

/-- Take a character if it belongs to the leaf. -/
def takeIf (fits : Bool) (taken kept : LeafReader) : LeafReader × Verdict :=
  if fits then (taken, .accept) else (kept, .stop)

/-- Offer a character to a string scanner and add it to the text if it was taken. -/
def scanString (scan : StringScan) (text : String) (c : Char)
    (reader : StringScan → String → LeafReader) : LeafReader × Verdict :=
  match scan.feed c with
  | (scan, .stop) => (reader scan text, .stop)
  | (scan, verdict) => (reader scan (text.push c), verdict)

/-- Read a character of a scene path. -/
def feedPath (quoted : Option StringScan) (text : String) (c : Char) : LeafReader × Verdict :=
  let quoted :=
    if text.length = 1 ∧ StringScan.isQuote c then some StringScan.start else quoted
  match quoted with
  | some scan => scanString scan text c fun scan text => .nodePath (some scan) text
  | none =>
    takeIf (text.isEmpty || Text.isWordContinue c || c == '/' || c == '%')
      (.nodePath none (text.push c)) (.nodePath none text)

/-- Offer a character that has no signal of its own. -/
def feedChar (r : LeafReader) (c : Char) : LeafReader × Verdict :=
  match r with
  | .blank kind text => takeIf (Text.isInlineSpace c) (.blank kind (text.push c)) r
  | .comment text => (.comment (text.push c), .accept)
  | .continuation _ => (r, .stop)
  | .word text =>
    let fits := if text.isEmpty then Text.isWordStart c else Text.isWordContinue c
    takeIf fits (.word (text.push c)) r
  | .number scan text =>
    match scan.feed c with
    | some scan => (.number scan (text.push c), .accept)
    | none => (r, .stop)
  | .string scan text => scanString scan text c .string
  | .nodePath quoted text => feedPath quoted text c
  | .operator text =>
    takeIf (text.isEmpty || OperatorKind.canExtend text.toList c) (.operator (text.push c)) r
  | .dots count =>
    if c = '.' then (.dots (count + 1), if count + 1 = 2 then .done else .accept) else (r, .stop)
  | .invalid text => takeIf (text.isEmpty || !endsInvalid c) (.invalid (text.push c)) r

/-- Offer a signal. Most leaves end where a line does; only strings, comments and text without a
place may go on over a `#` or a backslash. -/
def feed (r : LeafReader) (signal : Signal) : LeafReader × Verdict :=
  match r, signal with
  | _, .endOfText => (r, .stop)
  | _, .char c => r.feedChar c
  | .string scan text, signal =>
    match signal.toChar? with
    | some c => scanString scan text c .string
    | none => (r, .stop)
  | .invalid _, signal =>
    match signal.toChar? with
    | some c => r.feedChar c
    | none => (r, .stop)
  | .comment text, .commentStart => (.comment (text.push '#'), .accept)
  | .comment text, .escape => (.comment (text.push '\\'), .accept)
  | .continuation text, .escape =>
    takeIf text.isEmpty (.continuation (text.push '\\')) r
  | .continuation text, .carriageReturn =>
    takeIf (text == "\\") (.continuation (text.push '\r')) r
  | .continuation text, .newLine =>
    if text.isEmpty then (r, .stop) else (.continuation (text.push '\n'), .done)
  | .nodePath (some scan) text, .commentStart => feedPath (some scan) text '#'
  | .nodePath (some scan) text, .escape => feedPath (some scan) text '\\'
  | .nodePath none _, .escape => (r, .stop)
  | _, .escape => r.feedChar '\\'
  | _, _ => (r, .stop)

/-- Whether the end of the text cuts the leaf short: more text might have belonged to it. -/
def isCutShort : LeafReader → Bool
  | .continuation _ => true
  | .string scan _ => !scan.isTerminated
  | _ => false

/-- The kind of an operator before its place decides between its meanings. -/
def operatorLeafKind (text : String) : LeafKind :=
  match OperatorKind.ofSymbol? text with
  | some op => .operator op
  | none => .invalid

/-- The leaf that was read. -/
def token? : LeafReader → Option Tree
  | .blank kind text => some (.ofText kind text)
  | .comment text => some (.ofText .comment text)
  | .continuation text =>
    some (.ofText (if text.endsWith "\n" then .lineContinuation else .invalid) text)
  | .word text =>
    match Keyword.ofSpelling? text with
    | some reserved => some (.ofText (.keyword reserved) reserved.spelling)
    | none => some (.ofText .identifier text)
  | .number scan text => some (.ofText (if scan.kind?.isSome then .number else .invalid) text)
  | .string scan text => some (.ofText (if scan.isTerminated then .string else .invalid) text)
  | .nodePath (some scan) text =>
    some (.ofText (if scan.isTerminated then .nodePath else .invalid) text)
  | .nodePath none text => some (.ofText (if 1 < text.length then .nodePath else .invalid) text)
  | .operator text => some (.ofText (operatorLeafKind text) text)
  | .dots count => some (.ofPunct (if count = 2 then .doubleDot else .point))
  | .invalid text => if text.isEmpty then none else some (.ofText .invalid text)

end LeafReader

end ScriptTree
