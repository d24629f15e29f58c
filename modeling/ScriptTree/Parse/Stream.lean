import ScriptTree.Parse.Entry
import ScriptTree.Text.Utf8

/-!
Parsing a script that arrives as bytes, a piece at a time. A character may be cut between two
pieces; its first bytes then wait for the others. A piece that cannot be the beginning of valid
text is refused before any of it is read.
-/

namespace ScriptTree

/-- What one request for bytes gives. -/
inductive Read where
  /-- The next bytes; none at all mean that the source has ended. -/
  | data (bytes : List UInt8)
  /-- Nothing yet; the request has to be repeated. -/
  | interrupted
  | failed (message : String)
  deriving DecidableEq, Repr

/-- Why a stream gave no tree. -/
inductive StreamError where
  | parse (e : ParseError)
  | io (message : String)
  /-- The bytes from this offset on are not text. -/
  | invalidUtf8 (offset : Nat)
  deriving DecidableEq, Repr

/-- The text of the error. -/
def StreamError.message : StreamError → String
  | parse e => e.message
  | io message => "failed to read source: " ++ message
  | invalidUtf8 offset => "source is not valid UTF-8 at byte " ++ toString offset

namespace Stream

/-- The same outcome, with a failure to parse as an error of the stream. -/
def lift {α : Type} (result : Except ParseError α) : Except StreamError α :=
  result.mapError .parse

/-- The state between two requests. -/
structure Progress where
  automaton : Automaton
  /-- The beginning of a character that was cut. -/
  pending : List UInt8 := []
  /-- The number of bytes that were read as characters. -/
  consumed : Nat := 0

/-- Read a piece. -/
def Progress.take (config : Config) (p : Progress) (bytes : List UInt8) :
    Except StreamError Progress := do
  let decoded := Text.Utf8.decode (p.pending ++ bytes)
  let consumed := p.consumed + (p.pending.length + bytes.length - decoded.rest.length)
  if decoded.ending = .malformed then throw (.invalidUtf8 consumed)
  let automaton ← lift (p.automaton.feed config decoded.chars)
  return { automaton, pending := decoded.rest, consumed }

/-- Read until the source ends. -/
def drain (config : Config) (p : Progress) : List Read → Except StreamError Automaton
  | .interrupted :: reads => drain config p reads
  | .failed message :: _ => .error (.io message)
  | .data (b :: bytes) :: reads => do drain config (← p.take config (b :: bytes)) reads
  | _ => if p.pending.isEmpty then .ok p.automaton else .error (.invalidUtf8 p.consumed)

/-- Parse a script from what the requests for its bytes give. -/
def parse (config : Config) (reads : List Read) : Except StreamError Tree := do
  let automaton ← lift (Automaton.start config Entrance.file.reader)
  let automaton ← drain config { automaton } reads
  let (d, _) ← lift (automaton.finish config)
  return (← lift (ParseError.ofTree (Entrance.file.rootOf d))).placed

end Stream

/-- A source of bytes that gives them in pieces of a bounded size. -/
structure ByteSource where
  bytes : List UInt8
  /-- The most bytes that one request gives. -/
  step : Option Nat := none
  /-- Whether every request has to be made twice. -/
  interrupts : Bool := false
  /-- The number of bytes after which requests fail. -/
  failAt : Option Nat := none

namespace ByteSource

/-- Cut a list into pieces of the given size, which is at least one. -/
def pieces (size : Nat) : Nat → List UInt8 → List (List UInt8)
  | 0, _ => []
  | _ + 1, [] => []
  | fuel + 1, b :: bytes =>
    (b :: bytes).take (size + 1) :: pieces size fuel ((b :: bytes).drop (size + 1))

/-- What requests for at most `bufferSize` bytes give, one after another. -/
def reads (source : ByteSource) (bufferSize : Nat) : List Read :=
  let size := min (max bufferSize 1) (source.step.getD (max bufferSize 1))
  let given :=
    if size = 0 then [] else source.bytes.take (source.failAt.getD source.bytes.length)
  let fails := source.failAt.any (· ≤ given.length)
  let answers :=
    (pieces (size - 1) given.length given).map Read.data
      ++ (if fails then [.failed "source failed"] else [])
  if source.interrupts then answers.flatMap fun answer => [.interrupted, answer] else answers

end ByteSource

/-- Parse a script from a source of bytes. -/
def parseSource (config : Config) (source : ByteSource) : Except StreamError Tree :=
  Stream.parse config (source.reads config.readBufferSize)

end ScriptTree
