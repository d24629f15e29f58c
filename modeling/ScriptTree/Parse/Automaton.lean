import ScriptTree.Grammar.Block
import ScriptTree.Grammar.Root

/-!
The automaton that reads a text one character at a time. It keeps the open reading states on a
stack, gives each signal to the innermost one, and does what that state answers. It fails when a
limit on depth is exceeded, and when a state puts a token where its node has no place for it.
-/

namespace ScriptTree

namespace Reader

/-- The step after a leaf was offered a signal. -/
def stepOfVerdict : Verdict → Step
  | .accept => .accept
  | .done => .acceptAndComplete
  | .stop => .complete

/-- Give a signal to a state. -/
def onSignal (config : Config) (signal : Signal) : Reader → Except Misfit (Reaction Reader)
  | .leaf r =>
    let (next, verdict) := r.feed signal
    .ok ⟨.leaf next, stepOfVerdict verdict,
      { truncated := signal.toChar?.isNone && r.isCutShort }⟩
  | .expression r => .ok ((r.onSignal signal).map .expression)
  | .group r => (r.onSignal signal).map (·.map .group)
  | .sequence r => (r.onSignal signal).map (·.map .sequence)
  | .block r => .ok ((r.onSignal config signal).map .block)
  | .root r => .ok ((r.onSignal signal).map .root)

/-- Give a delivery to the state around the one that ended. Leaves open no states. -/
def onDelivery (d : Delivery) : Reader → Except Misfit (Receipt Reader)
  | .leaf r => .ok { state := .leaf r }
  | .expression r => (r.onDelivery d).map (·.map .expression)
  | .group r => (r.onDelivery d).map fun r => { state := .group r }
  | .sequence r => (r.onDelivery d).map (·.map .sequence)
  | .block r => (r.onDelivery d).map (·.map .block)
  | .root r => (r.onDelivery d).map fun r => { state := .root r }

/-- End a state. -/
def finish (config : Config) : Reader → Except ParseError Delivery
  | .leaf r => .ok { token := r.token? }
  | .expression r => r.finish config.maxTraceFrames
  | .group r => .ok r.finish
  | .sequence r => .ok r.finish
  | .block r => .ok r.finish
  | .root r => .ok r.finish

end Reader

/-- The automaton between two signals. -/
structure Automaton where
  /-- The open states, the innermost first. -/
  stack : List Reader := []
  /-- States that the innermost one is about to open, the outermost first. -/
  opening : List Reader := []
  /-- What the outermost state delivered, once it ended. -/
  delivered : Option Delivery := none
  /-- Text after the end of the outermost state. -/
  leftover : String := ""
  notices : Notices := {}

namespace Automaton

/-- Open a state inside the innermost one. -/
def push (config : Config) (a : Automaton) (inner : Reader) : Except ParseError Automaton := do
  ParseError.ofDepth (checkDepth .readingStack config.maxReadingStack (a.stack.length + 1))
  return { a with stack := inner :: a.stack }

/-- The automaton at the beginning of a text. -/
def start (config : Config) (root : Reader) : Except ParseError Automaton :=
  push config {} root

/-- End the innermost state. -/
def pop (config : Config) (a : Automaton) : Except ParseError Automaton :=
  match a.stack with
  | [] => .ok a
  | [top] => do
    let d ← top.finish config
    return { a with stack := [], delivered := some d }
  | top :: outer :: below => do
    let d ← top.finish config
    let receipt ← ParseError.ofTree (outer.onDelivery d)
    return { a with
      stack := receipt.state :: below
      opening := receipt.opened
      notices := a.notices.merge receipt.notices }

/-- Begin text without a place, which the character of the signal belongs to in any case. -/
def absorb (config : Config) (a : Automaton) (c : Char) : Except ParseError Automaton :=
  a.push config (.leaf (.invalid (String.singleton c)))

/-- End states that were about to be opened. -/
def closeInto (config : Config) (outer : Reader) : List Reader → Except ParseError Reader
  | [] => .ok outer
  | inner :: more => do
    let inner ← closeInto config inner more
    let receipt ← ParseError.ofTree (outer.onDelivery (← inner.finish config))
    return receipt.state

/-- End a state and all states around it. -/
def unwindFrom (config : Config) (notices : Notices) (top : Reader) (opening : List Reader) :
    List Reader → Except ParseError (Delivery × Notices)
  | [] => do
    let top ← closeInto config top opening
    return (← top.finish config, notices)
  | outer :: below => do
    let top ← closeInto config top opening
    let receipt ← ParseError.ofTree (outer.onDelivery (← top.finish config))
    unwindFrom config (notices.merge receipt.notices) receipt.state receipt.opened below

/-- End all states. -/
def unwind (config : Config) (a : Automaton) : Except ParseError Automaton :=
  match a.stack with
  | [] => .ok a
  | top :: below => do
    let (d, notices) ← unwindFrom config a.notices top a.opening below
    return { a with stack := [], opening := [], delivered := some d, notices }

/-- Keep the character of a signal that comes after the end of the outermost state. -/
def keepLeftover (a : Automaton) (signal : Signal) : Automaton :=
  { a with leftover := a.leftover ++ String.ofList signal.toChar?.toList }

/-- How far one step brings a signal. -/
inductive Progress where
  /-- Nobody else gets the signal. -/
  | taken (a : Automaton)
  /-- The signal goes to the innermost state. -/
  | passed (a : Automaton)

/-- Do what the innermost state answered to a signal with the given character. -/
def perform (config : Config) (c? : Option Char) (a : Automaton) :
    Step → Except ParseError Progress
  | .accept => return .taken a
  | .acceptAndComplete => return .taken (← a.pop config)
  | .complete => return .passed (← a.pop config)
  | .enter inner => return .passed (← a.push config inner)
  | .absorb =>
    match c? with
    | some c => return .taken (← a.absorb config c)
    | none => return .passed (← a.pop config)

/-- Open the next of the states that are about to be opened, or else give a signal to the
innermost state and do what it answers. -/
def step (config : Config) (signal : Signal) (a : Automaton) : Except ParseError Progress :=
  match a.stack, a.opening with
  | [], _ => .ok (.taken (a.keepLeftover signal))
  | _ :: _, inner :: more => do
    return .passed (← { a with opening := more }.push config inner)
  | top :: below, [] => do
    let reaction ← ParseError.ofTree (top.onSignal config signal)
    { a with
      stack := reaction.state :: below
      notices := a.notices.merge reaction.notices }.perform config signal.toChar? reaction.step

/-- Take a signal that the states keep passing on: a character has no place then, and the end of
the text ends all states. -/
def force (config : Config) (signal : Signal) (a : Automaton) : Except ParseError Automaton :=
  if a.stack.isEmpty then .ok (a.keepLeftover signal)
  else
    match signal.toChar? with
    | some c => a.absorb config c
    | none => a.unwind config

/-- Deliver a signal to the innermost state, and on to others as the states answer, in a bounded
number of steps. -/
def deliver (config : Config) (signal : Signal) : Nat → Automaton → Except ParseError Automaton
  | 0, a => a.force config signal
  | fuel + 1, a => do
    match ← a.step config signal with
    | .taken a => return a
    | .passed a => deliver config signal fuel a

/-- How many steps a signal may take: more than the states could need. -/
def stepLimit (a : Automaton) : Nat :=
  4 * (a.stack.length + 16)

/-- Take one signal. -/
def signal (config : Config) (a : Automaton) (s : Signal) : Except ParseError Automaton :=
  a.deliver config s a.stepLimit

/-- Take characters. -/
def feed (config : Config) (a : Automaton) (cs : List Char) : Except ParseError Automaton :=
  cs.foldlM (fun a c => a.signal config (.ofChar c)) a

/-- End the text: what the outermost state delivered, with any text after its end, and what was
noticed. -/
def finish (config : Config) (a : Automaton) : Except ParseError (Delivery × Notices) := do
  let a ← a.signal config .endOfText
  let a ← a.unwind config
  let d := a.delivered.getD {}
  let rest := if a.leftover.isEmpty then [] else [Tree.ofText .invalid a.leftover]
  return ({ d with trailing := d.trailing ++ rest }, a.notices)

/-- Read a text from the state that stands for all of it. -/
def run (config : Config) (root : Reader) (text : String) :
    Except ParseError (Delivery × Notices) := do
  let a ← start config root
  let a ← a.feed config text.toList
  a.finish config

/-- Taking one text after another is taking their concatenation. -/
theorem feed_append (config : Config) (a : Automaton) (xs ys : List Char) :
    a.feed config (xs ++ ys) = (a.feed config xs).bind fun a => a.feed config ys := by
  simp [feed, List.foldlM_append, bind]

end Automaton

end ScriptTree
