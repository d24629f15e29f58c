import ScriptTree.Proofs.Reading
import ScriptTree.Proofs.Structure.Readers

/-!
# Reading a text in order

Every open state is orderly, and each was opened for what the state around it has a place for. Steps
keep this, so that the outermost state delivers what it was opened to read when the text ends. The
bound on the number of steps is not reached, and no state is ended by force.
-/

namespace ScriptTree

/-- States around a state of the given origin, the innermost first: each has a place for what the
one before it was opened to read, and the outermost one is of a fixed origin. -/
def Reader.Surrounds (outer : Origin) : List Reader → Origin → Prop
  | [], o => o = outer
  | r :: rest, o => r.Receives o ∧ Surrounds outer rest r.origin

namespace Automaton

open Reader

/-- An automaton whose open states are orderly, or whose outermost state has delivered what it was
opened to read. -/
inductive InOrder (outer : Origin) (a : Automaton) : Prop where
  | open (top : Reader) (below : List Reader) (hstack : a.stack = top :: below)
    (hbelow : Surrounds outer below top.origin) (hnests : Nests top a.opening)
  | ended (d : Delivery) (hstack : a.stack = []) (hdelivered : a.delivered = some d)
    (hd : d.FitsFrom outer)

/-- A step of a signal leads to an automaton in order. -/
def Progress.InOrder (outer : Origin) : Progress → Prop
  | .taken a | .passed a => a.InOrder outer

variable {config : Config} {signal : Signal} {outer : Origin} {layer : Layer} {a : Automaton}
  {top : Reader} {below : List Reader} {text : String}

/-- A state is opened inside one that has a place for what it reads. -/
theorem push_promises (hstack : a.stack = top :: below) (hbelow : Surrounds outer below top.origin)
    {inner : Reader} (hreceives : top.Receives inner.origin) (hnests : Nests inner a.opening) :
    Promises (a.push config inner) (InOrder outer) := by
  have hpush : Meets True (a.push config inner) (· = { a with stack := inner :: a.stack }) :=
    push_meets (fun _ => trivial) inner
  refine hpush.promises.mono fun a' ha' => ?_
  subst ha'
  exact .open inner (top :: below) (by rw [hstack]) ⟨hreceives, hbelow⟩ hnests

/-- A state that ends hands to the state around it what that one opened it for. -/
theorem pop_promises (hstack : a.stack = top :: below) (hbelow : Surrounds outer below top.origin)
    (htop : top.Orderly) : Promises (a.pop config) (InOrder outer) := by
  unfold pop
  rw [hstack]
  cases below with
  | nil =>
    refine (htop.finish config).bind fun d hd => promises_pure.2 ?_
    rw [show top.origin = outer from hbelow] at hd
    exact .ended d rfl rfl hd
  | cons around below =>
    obtain ⟨hreceives, hrest⟩ := hbelow
    refine (htop.finish config).bind fun d hd => ?_
    refine (hreceives.onDelivery hd).mapError.bind fun receipt hreceipt => promises_pure.2 ?_
    rw [← hreceipt.origin] at hrest
    exact .open receipt.state below rfl hrest hreceipt.nests

/-- What an orderly state answers is done in order. -/
theorem perform_promises (hstack : a.stack = top :: below)
    (hbelow : Surrounds outer below top.origin) (hopening : a.opening = []) {step : Step}
    (hstep : step.Follows top) (c? : Option Char) :
    Promises (a.perform config c? step) (Progress.InOrder outer) := by
  have hpop (htop : top.Orderly) : Promises (a.pop config) (InOrder outer) :=
    pop_promises hstack hbelow htop
  have hpush {inner : Reader} (hreceives : top.Receives inner.origin) (hinner : inner.Orderly) :
      Promises (a.push config inner) (InOrder outer) :=
    push_promises hstack hbelow hreceives (by rw [hopening]; exact hinner)
  cases step with
  | accept => exact promises_pure.2 (.open top below hstack hbelow (by rw [hopening]; exact hstep))
  | acceptAndComplete => exact (hpop hstep).bind fun _ ha' => promises_pure.2 ha'
  | complete => exact (hpop hstep).bind fun _ ha' => promises_pure.2 ha'
  | enter inner => exact (hpush hstep.1 hstep.2).bind fun _ ha' => promises_pure.2 ha'
  | absorb =>
    have hreceives : top.Receives .trivia := hstep
    cases c? with
    | none => exact (hpop hreceives.orderly).bind fun _ ha' => promises_pure.2 ha'
    | some c =>
      have habsorb : Promises (a.absorb config c) (InOrder outer) := hpush hreceives trivial
      exact habsorb.bind fun _ ha' => promises_pure.2 ha'

/-- Every step keeps the order. -/
theorem InOrder.step (h : a.InOrder outer) :
    Promises (a.step config signal) (Progress.InOrder outer) := by
  unfold Automaton.step
  cases h with
  | ended d hstack hdelivered hd =>
    rw [hstack]
    exact promises_ok.2 (.ended d hstack hdelivered hd)
  | «open» top below hstack hbelow hnests =>
    rw [hstack]
    cases hopening : a.opening with
    | cons inner more =>
      rw [hopening] at hnests
      have hpush : Promises ({ a with stack := top :: below, opening := more }.push config inner)
          (InOrder outer) := push_promises rfl hbelow hnests.1 hnests.2
      exact hpush.bind fun _ ha' => promises_pure.2 ha'
    | nil =>
      rw [hopening] at hnests
      have htop : top.Orderly := hnests
      refine (htop.onSignal config signal).mapError.bind fun reaction hreaction => ?_
      rw [← hreaction.origin] at hbelow
      exact perform_promises (a := { a with
        stack := reaction.state :: below
        opening := []
        notices := a.notices.merge reaction.notices }) rfl hbelow rfl hreaction.step _

theorem stepsKeep_inOrder (outer : Origin) : StepsKeep config (InOrder outer) :=
  fun _ _ h => h.step.mono fun progress hprogress => by cases progress <;> exact hprogress

/-- At the end of the text the outermost state delivers what it was opened to read. What comes
after its end has no place. -/
theorem InOrder.finish (h : a.InOrder outer) (hreads : a.Reads layer text)
    (houter : outer.isLeaf = false) :
    Promises (a.finish config) fun result => result.1.FitsFrom outer := by
  refine (finish_promises (stepsKeep_inOrder outer) h hreads).mono fun result hresult => ?_
  obtain ⟨a', horder, hend, hdelivery⟩ := hresult
  rw [hdelivery]
  cases horder with
  | «open» top below hstack hbelow hnests =>
    rw [hend] at hstack
    cases hstack
  | ended d hstack hdelivered hd =>
    have hrest : Form.Tidy {} (Form.extras
        (if a'.leftover.isEmpty then [] else [Tree.ofText .invalid a'.leftover])) := by
      split
      · exact Form.tidy_nil _
      · exact Form.tidy_trivia rfl
    rw [hdelivered]
    refine { hd with trailing := ?_, alone := fun hleaf => ?_ }
    · rw [Form.extras_append]
      exact hd.trailing.append hrest
    · rw [houter] at hleaf
      cases hleaf

/-- What a text is read as, it is read as in order. -/
theorem run_promises {root : Reader} (hroot : root.Orderly) (houter : root.origin.isLeaf = false)
    (hrests : root.Rests) (hempty : root.text = "") (text : String) :
    Promises (run config root text) fun result => result.1.FitsFrom root.origin := by
  refine (promises_start hrests hempty).bind fun a ha => ?_
  obtain ⟨rfl, hreads⟩ := ha
  have hstarts : InOrder root.origin { stack := [root] } := .open root [] rfl rfl hroot
  refine (feed_promises (stepsKeep_inOrder root.origin) hstarts hreads text.toList).bind
    fun a' ha' => ?_
  obtain ⟨horder, text', hreads'⟩ := ha'
  exact horder.finish hreads' houter

end Automaton

end ScriptTree
