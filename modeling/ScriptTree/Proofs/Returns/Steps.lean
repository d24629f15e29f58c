import ScriptTree.Proofs.Returns.Breaks
import ScriptTree.Proofs.Spellings.Steps

/-!
# Steps of a line break in the two spellings

For a line break the line feed here and the carriage return there lead through the same steps, up
to the state that takes it. That state takes the line feed there as well, and the automata are
twins again.
-/

namespace ScriptTree

attribute [local instance] ReaderSpelling.returns

namespace Reader

variable {r r' : Reader}

/-- The states that a delivery opens make the same of a line break in the two spellings. -/
theorem OpenedTwin.takesBreaks (h : r.OpenedTwin r') : r.TakesBreaks := by
  cases h <;> trivial

end Reader

namespace Automaton

open Reader

variable {config : Config} {signal : Signal} {outer : Layer} {a b : Automaton}
  {top top' inner inner' : Reader} {below below' : List Reader} {text : String} {n : Nat}

/-- Whether the innermost state makes the same of a line break in the two spellings. -/
def TakesBreaks (a : Automaton) : Prop :=
  ∀ top below, a.stack = top :: below → a.opening = [] → top.TakesBreaks

/-- A state that is no leaf is at rest or hosts others only if it takes line breaks. -/
theorem Reads.takesBreaks (h : a.Reads outer text) (hinner : a.IsInner) : a.TakesBreaks := by
  intro top below hstack hopening
  have hrests := h.rests hstack hopening
  cases top with
  | leaf r => exact absurd hstack (hinner r below)
  | group r => exact hrests.opened
  | _ => trivial

/-- The progress of a line break in the two spellings: the line feed is still to come where the
carriage return was taken. -/
inductive Progress.Turn (config : Config) : Progress → Progress → Prop where
  | taken {a between b : Automaton} (hnext : between.signal config .newLine = .ok b)
      (h : a.Twin b) : Turn config (.taken a) (.taken between)
  | passed {a b : Automaton} (h : a.Twin b) (htakes : a.TakesBreaks) :
      Turn config (.passed a) (.passed b)

/-- A line break leads to the same step. -/
theorem Twin.turn (h : a.Twin b) (hruns : a.Runs config .newLine n outer text)
    (htakes : a.TakesBreaks) :
    Agree (Progress.Turn config) (a.step config .newLine) (b.step config .carriageReturn) := by
  refine h.step_agree (fun _ hstack' => ?_) (fun inner _ more _ hinner a' _ hpushed hstack
    hopening => .passed hpushed ?_) ?_
  · refine .taken (signal_of_nil hstack') { h with leftover := ?_ }
    have hleftover : b.leftover = Text.withReturns a.leftover := h.leftover
    change _ = Text.withReturns _
    simp only [Automaton.keepLeftover, Signal.toChar?, Text.withReturns_append, hleftover]
    rw [String.append_assoc]
    rfl
  · intro top below hstack' _
    rw [hstack] at hstack'
    obtain ⟨rfl, rfl⟩ := List.cons.inj hstack'
    exact hinner.takesBreaks
  · intro top top' below below' hstack hopening htop hbelow
    have hopening' := h.opening_eq_nil hopening
    have hreaction : Agree (Reader.Turn config) (top.onSignal config .newLine)
        (top'.onSignal config .carriageReturn) := htop.turn (htakes top below hstack hopening)
    refine ((hreaction.and fun _ => (hruns.fits hstack hopening).of_ok).mapError).bind
      fun reaction reaction' hboth => ?_
    obtain ⟨hreaction, hfits⟩ := hboth
    have hnoticed : Automaton.Twin { a with notices := a.notices.merge {} }
        { b with notices := b.notices.merge {} } :=
      { h with notices := congrArg (·.merge {}) h.notices }
    cases hreaction with
    | left hr =>
      have hhosted := hruns.hosted hstack
      rw [← hfits.layer_eq] at hhosted
      have hpop := hnoticed.pop hbelow hhosted (finish_agree config hr)
      refine (hpop.and fun _ => (hfits.pop rfl _).of_ok).bind fun a' b' hpopped => ?_
      exact .passed hpopped.1.1 (hpopped.2.takesBreaks hpopped.1.2)
    | @opened r r' inner inner' hr hinner htakes =>
      have hstacked : Automaton.Twin
          { a with stack := r :: below, notices := a.notices.merge {} }
          { b with stack := r' :: below', notices := b.notices.merge {} } :=
        { hnoticed with stack := .cons hr hbelow }
      refine (hstacked.push hinner).bind fun a' b' hpushed => .passed hpushed.1 ?_
      intro top below hstack' _
      rw [hpushed.2] at hstack'
      obtain ⟨rfl, rfl⟩ := List.cons.inj hstack'
      exact htakes
    | @taken r between r' hnext hr =>
      have hstacked : ({ b with
          stack := between :: below'
          notices := b.notices.merge {} } : Automaton).stack = between :: below' := rfl
      refine .taken (signal_of_accept hstacked hopening' hnext) ?_
      refine { hnoticed with stack := .cons hr hbelow, notices := ?_ }
      simp [Notices.merge, h.notices]

end Automaton

end ScriptTree
