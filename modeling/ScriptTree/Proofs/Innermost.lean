import ScriptTree.Proofs.Reading

/-!
# Innermost states

What the innermost state makes of a signal. A leaf is innermost from the signal that it takes first
until it ends, so that it holds text whenever it comes to its end.
-/

namespace ScriptTree

namespace Automaton

open Reader

variable {config : Config} {signal : Signal} {outer : Layer} {a : Automaton} {top : Reader}
  {below : List Reader} {text : String} {n : Nat}

/-- The states of an automaton are what it holds. -/
theorem Holds.eq_of_stack {top' : Reader} {below' : List Reader}
    (h : a.Holds outer top' below' text) (hstack : a.stack = top :: below) :
    top' = top ∧ below' = below :=
  List.cons.inj (h.stack_eq.symm.trans hstack)

/-- The innermost state is at rest if no states are about to be opened inside it. -/
theorem Open.rests {top' : Reader} {below' : List Reader} (h : a.Open outer top' below' text)
    (hopening : a.opening = []) : top'.Rests := by
  have hnested := h.nested
  rw [hopening] at hnested
  exact hnested

/-- The same where it is not known yet that a state is open. -/
theorem Reads.rests (h : a.Reads outer text) (hstack : a.stack = top :: below)
    (hopening : a.opening = []) : top.Rests := by
  cases h with
  | ended d h =>
    rw [h.stack_eq] at hstack
    cases hstack
  | «open» top' below' h =>
    obtain ⟨rfl, rfl⟩ := h.toHolds.eq_of_stack hstack
    exact h.rests hopening

namespace Runs

/-- The innermost state stands in states that host it. -/
theorem hosted (h : a.Runs config signal n outer text) (hstack : a.stack = top :: below) :
    HostedBy outer below top.layer := by
  have hholds {top' : Reader} {below' : List Reader} (h : a.Holds outer top' below' text) :
      HostedBy outer below top.layer := by
    obtain ⟨rfl, rfl⟩ := h.eq_of_stack hstack
    exact h.hosted
  cases h with
  | «open» top' below' h hsteps => exact hholds h.toHolds
  | awaits m h hsteps =>
    obtain ⟨top', below', h, _, _, _⟩ := h
    exact hholds h
  | ended d h hsteps =>
    rw [h.stack_eq] at hstack
    cases hstack

/-- The innermost state stays of its layer. If it takes the signal, it adds its text; if it ends,
the state around it is at rest or hosts the states that the delivery opens. -/
structure Fits (config : Config) (signal : Signal) (outer : Layer) (text : String) (a : Automaton)
    (top : Reader) (below : List Reader) (reaction : Reaction Reader) : Prop where
  layer_eq : reaction.state.layer = top.layer
  accept : reaction.step = .accept → reaction.state.text = top.text ++ signal.text
  pop : reaction.step = .complete → ∀ notices, Meets True
    ({ a with stack := reaction.state :: below, notices }.pop config) (Reads outer text)

/-- What the innermost state makes of a signal. -/
theorem fits (h : a.Runs config signal n outer text) (hstack : a.stack = top :: below)
    (hopening : a.opening = []) :
    Yields (top.onSignal config signal) (Fits config signal outer text a top below) := by
  have htaken {n : Nat} {reaction : Reaction Reader}
      (htaken : top.Taken signal (Takes config signal n) reaction) :
      Fits config signal outer text a top below reaction := by
    have hstep := htaken.step
    refine ⟨htaken.layer_eq, fun haccept => ?_, fun hcomplete => ?_⟩
    · rw [haccept] at hstep
      exact hstep.2
    · rw [hcomplete] at hstep
      exact False.elim hstep
  cases h with
  | «open» top' below' h hsteps =>
    obtain ⟨rfl, rfl⟩ := h.toHolds.eq_of_stack hstack
    refine (h.rests hopening).answers.mono fun reaction hreacts => ?_
    cases hreacts with
    | taken h hchar => exact htaken h
    | left hleft =>
      refine ⟨hleft.layer_eq, fun haccept => ?_, fun _ notices => ?_⟩
      · rw [hleft.step_eq] at haccept
        cases haccept
      have hholds : ({ a with stack := reaction.state :: below', notices } : Automaton).Holds outer
          reaction.state below' text :=
        ⟨rfl, hleft.layer_eq ▸ h.hosted, h.leftover, by rw [hleft.text_eq]; exact h.text_eq⟩
      exact (pop_meets (fun _ => trivial) hholds hopening hleft.ends).mono fun a' ha' => ha'.1
    | detoured inner hdetoured hchar =>
      have hstep := hdetoured.step_eq
      refine ⟨hdetoured.layer_eq, fun heq => ?_, fun heq => ?_⟩ <;>
        · rw [hstep] at heq
          cases heq
  | awaits m h hsteps =>
    obtain ⟨top', below', hholds, _, htakes, _⟩ := h
    obtain ⟨rfl, rfl⟩ := hholds.eq_of_stack hstack
    cases m with
    | zero => exact False.elim htakes
    | succ m => exact Yields.mono htakes fun reaction h => htaken h
  | ended d h hsteps =>
    rw [h.stack_eq] at hstack
    cases hstack

end Runs

/-- No leaf is innermost. -/
def IsInner (a : Automaton) : Prop :=
  ∀ r below, a.stack ≠ .leaf r :: below

/-- A signal that is taken in one step. -/
theorem signal_of_step {x : Except ParseError Automaton}
    (hstep : a.step config signal = x.map .taken) : a.signal config signal = x := by
  obtain ⟨fuel, hlimit⟩ : ∃ fuel, a.stepLimit = fuel + 1 := ⟨4 * a.stack.length + 63, by
    simp only [stepLimit]
    omega⟩
  rw [Automaton.signal, hlimit, deliver, hstep]
  cases x <;> rfl

/-- A signal that the innermost state takes at once. -/
theorem signal_of_accept (hstack : a.stack = top :: below) (hopening : a.opening = [])
    {r : Reader} (h : top.onSignal config signal = .ok ⟨r, .accept, {}⟩) :
    a.signal config signal =
      .ok { a with stack := r :: below, notices := a.notices.merge {} } := by
  apply signal_of_step
  unfold step
  rw [hstack, hopening]
  simp only [h]
  rfl

/-- A signal that the innermost state takes and ends with. -/
theorem signal_of_acceptAndComplete {r : Reader} (hstack : a.stack = top :: below)
    (hopening : a.opening = [])
    (h : top.onSignal config signal = .ok ⟨r, .acceptAndComplete, {}⟩) :
    a.signal config signal =
      { a with stack := r :: below, notices := a.notices.merge {} }.pop config := by
  apply signal_of_step
  unfold step
  rw [hstack, hopening]
  simp only [h]
  exact (map_eq_pure_bind Progress.taken (pop config _)).symm

/-- A signal after the end of the outermost state. -/
theorem signal_of_nil (hstack : a.stack = []) :
    a.signal config signal = .ok (a.keepLeftover signal) := by
  apply signal_of_step
  unfold step
  rw [hstack]
  rfl

/-- A delivery leaves a state what it is. -/
theorem ne_leaf_of_onDelivery {r : Reader} {layer : Layer} (h : r.Hosts layer) {d : Delivery}
    {receipt : Receipt Reader} (hreceipt : r.onDelivery d = .ok receipt) (leaf : LeafReader) :
    receipt.state ≠ .leaf leaf := by
  have hmap {α : Type} {x : Except Misfit α} {f : α → Receipt Reader}
      (hx : x.map f = .ok receipt) (hf : ∀ a, (f a).state ≠ .leaf leaf) :
      receipt.state ≠ .leaf leaf := by
    cases x with
    | error e => cases hx
    | ok a =>
      cases hx
      exact hf a
  cases r with
  | leaf r => exact False.elim h
  | expression r =>
    exact hmap hreceipt fun a (heq : Reader.expression a.state = .leaf leaf) => by cases heq
  | group r => exact hmap hreceipt fun a (heq : Reader.group a = .leaf leaf) => by cases heq
  | sequence r =>
    exact hmap hreceipt fun a (heq : Reader.sequence a.state = .leaf leaf) => by cases heq
  | block r =>
    exact hmap hreceipt fun a (heq : Reader.block a.state = .leaf leaf) => by cases heq
  | root r => exact hmap hreceipt fun a (heq : Reader.root a = .leaf leaf) => by cases heq

/-- What is innermost after a state ended is no leaf. -/
theorem pop_isInner (hstack : a.stack = top :: below) (hhosted : HostedBy outer below top.layer)
    {a' : Automaton} (hpop : a.pop config = .ok a') : a'.IsInner := by
  unfold pop at hpop
  rw [hstack] at hpop
  cases hfinish : top.finish config with
  | error e => cases below <;> simp only [hfinish] at hpop <;> cases hpop
  | ok d =>
    cases below with
    | nil =>
      simp only [hfinish] at hpop
      cases hpop
      exact fun _ _ hstack => by cases hstack
    | cons around rest =>
      cases hreceipt : around.onDelivery d with
      | error e =>
        simp only [hfinish, bind, Except.bind, hreceipt] at hpop
        cases hpop
      | ok receipt =>
        simp only [hfinish, bind, Except.bind, hreceipt] at hpop
        cases hpop
        exact fun r _ hstack =>
          ne_leaf_of_onDelivery hhosted.1 hreceipt r (List.cons.inj hstack).1

/-- The innermost leaf, if there is one, holds text. -/
def HoldsText (a : Automaton) : Prop :=
  ∀ r below, a.stack = .leaf r :: below → r.text ≠ ""

theorem IsInner.holdsText (h : a.IsInner) : a.HoldsText :=
  fun r below hstack => absurd hstack (h r below)

/-- A state that is opened becomes the innermost one. -/
theorem stack_of_push {a' : Automaton} (h : a.push config top = .ok a') :
    a'.stack = top :: a.stack := by
  unfold push at h
  cases hdepth : checkDepth .readingStack config.maxReadingStack (a.stack.length + 1) <;>
    rw [hdepth] at h <;> cases h
  rfl

/-- Whoever takes a character, a leaf that is innermost then holds it. -/
theorem holdsText_of_perform {c : Char} {step : Step}
    (hhosted : ∀ top below, a.stack = top :: below → HostedBy outer below top.layer)
    (haccept : step = .accept → a.HoldsText) {a' : Automaton}
    (hperform : a.perform config (some c) step = .ok (.taken a')) : a'.HoldsText := by
  cases step with
  | accept =>
    cases hperform
    exact haccept rfl
  | acceptAndComplete =>
    cases hpop : a.pop config <;> simp only [perform, hpop] at hperform <;> cases hperform
    rcases hstack : a.stack with _ | ⟨top, below⟩
    · unfold pop at hpop
      rw [hstack] at hpop
      cases hpop
      exact fun r below hstack' => by simp [hstack] at hstack'
    · exact (pop_isInner hstack (hhosted top below hstack) hpop).holdsText
  | complete =>
    cases hpop : a.pop config <;> simp only [perform, hpop] at hperform <;> cases hperform
  | enter inner =>
    cases hpush : a.push config inner <;> simp only [perform, hpush] at hperform <;> cases hperform
  | absorb =>
    cases hpush : a.absorb config c <;> simp only [perform, hpush] at hperform <;> cases hperform
    intro r below hstack
    rw [stack_of_push hpush] at hstack
    cases hstack
    simp [LeafReader.text]

/-- Whoever takes a character in a step, a leaf that is innermost then holds it. -/
theorem Runs.holdsText_of_step (hruns : a.Runs config signal n outer text)
    (hchar : signal.toChar?.isSome) {a' : Automaton}
    (hstep : a.step config signal = .ok (.taken a')) : a'.HoldsText := by
  obtain ⟨c, hc⟩ := Option.isSome_iff_exists.1 hchar
  unfold Automaton.step at hstep
  rcases hstack : a.stack with _ | ⟨top, below⟩
  · rw [hstack] at hstep
    cases hstep
    intro r below hstack'
    rw [show (a.keepLeftover signal).stack = a.stack from rfl, hstack] at hstack'
    cases hstack'
  · rcases hopening : a.opening with _ | ⟨inner, more⟩
    · obtain ⟨reaction, hreaction, hfits⟩ := hruns.fits hstack hopening
      rw [hstack, hopening] at hstep
      simp only [hreaction, hc] at hstep
      have hhosted (top' : Reader) (below' : List Reader)
          (heq : reaction.state :: below = top' :: below') : HostedBy outer below' top'.layer := by
        obtain ⟨rfl, rfl⟩ := List.cons.inj heq
        rw [hfits.layer_eq]
        exact hruns.hosted hstack
      refine holdsText_of_perform hhosted (fun haccept r below' heq => ?_) hstep
      have htext := hfits.accept haccept
      rw [(List.cons.inj heq).1, signal.append_text hc] at htext
      have hr : r.text = top.text.push c := htext
      rw [hr]
      exact String.push_ne_empty
    · rw [hstack, hopening] at hstep
      cases hpush : Automaton.push config { a with stack := top :: below, opening := more } inner <;>
        simp only [hpush] at hstep <;> cases hstep

/-- Once a character was taken, a leaf that is innermost then holds it. -/
theorem Runs.holdsText (hruns : a.Runs config signal n outer text)
    (hchar : signal.toChar?.isSome) {a' : Automaton}
    (hdeliver : a.deliver config signal n = .ok a') : a'.HoldsText := by
  induction n generalizing a with
  | zero => exact absurd hruns.pos (Nat.lt_irrefl 0)
  | succ n ih =>
    rw [Automaton.deliver] at hdeliver
    cases hstep : a.step config signal with
    | error e =>
      rw [hstep] at hdeliver
      cases hdeliver
    | ok progress =>
      rw [hstep] at hdeliver
      cases progress with
      | taken a =>
        cases hdeliver
        exact hruns.holdsText_of_step hchar hstep
      | passed a => exact ih (hruns.promises_step _ hstep) hdeliver

/-- Between two signals, a leaf that took a character holds it. -/
theorem Reads.holdsText (hreads : a.Reads outer text) (hchar : signal.toChar?.isSome)
    {a' : Automaton} (hsignal : a.signal config signal = .ok a') : a'.HoldsText := by
  have hruns : a.Runs config signal a.stepLimit outer text := hreads.runs
  exact hruns.holdsText hchar hsignal

/-! ### Leaves that take the signal -/

/-- An innermost leaf holds text once it was given the signal. -/
def HoldsTextAfter (signal : Signal) (a : Automaton) : Prop :=
  ∀ r below, a.stack = .leaf r :: below → a.opening = [] → (r.feed signal).1.text ≠ ""

/-- A leaf that takes a signal holds its text. -/
theorem text_feed_of_taken {takes : Reader → Prop} {r : LeafReader}
    (h : Yields ((Reader.leaf r).onSignal config signal) ((Reader.leaf r).Taken signal takes))
    (hchar : signal.toChar?.isSome) : (r.feed signal).1.text ≠ "" := by
  obtain ⟨c, hc⟩ := Option.isSome_iff_exists.1 hchar
  rcases hfeed : r.feed signal with ⟨next, verdict⟩
  simp only [onSignal, hfeed, yields_ok] at h
  have htext (hsame : next.text = r.text ++ signal.text) : next.text ≠ "" := by
    rw [hsame, signal.append_text hc]
    exact String.push_ne_empty
  cases verdict with
  | accept => exact htext h.step.2
  | done => exact htext h.step.2
  | stop => exact False.elim h.step

/-- A leaf that holds text still does when it is given a signal. -/
theorem text_feed_of_text {r : LeafReader} (h : r.IsOpen) (htext : r.text ≠ "") :
    (r.feed signal).1.text ≠ "" := by
  have hkeeps := LeafReader.keeps_feed h signal
  unfold LeafReader.Keeps at hkeeps
  have hmore : r.text ++ signal.text ≠ "" :=
    fun hempty => htext (String.append_eq_empty_iff.1 hempty).1
  cases hverdict : (r.feed signal).2 <;> rw [hverdict] at hkeeps
  · rwa [hkeeps.2]
  · rwa [hkeeps.2]
  · rwa [hkeeps.2]

/-- Between two signals an innermost leaf holds text. -/
theorem Reads.holdsTextAfter (h : a.Reads outer text) (hholds : a.HoldsText) :
    a.HoldsTextAfter signal := by
  intro r below hstack hopening
  have hbegun : r.IsBegun := h.rests hstack hopening
  exact text_feed_of_text hbegun.isOpen (hholds r below hstack)

/-- A state keeps its layer, and a leaf that it opens takes the signal. -/
structure Follows (config : Config) (signal : Signal) (top : Reader) (reaction : Reaction Reader) :
    Prop where
  layer_eq : reaction.state.layer = top.layer
  entered : ∀ r, reaction.step = .enter (.leaf r) → (r.feed signal).1.text ≠ ""

/-- What the innermost state makes of a signal. -/
theorem Runs.follows (h : a.Runs config signal n outer text) (hstack : a.stack = top :: below)
    (hopening : a.opening = []) :
    Yields (top.onSignal config signal) (Follows config signal top) := by
  have htaken {n : Nat} {reaction : Reaction Reader} (hchar : signal.toChar?.isSome)
      (htaken : top.Taken signal (Takes config signal n) reaction) :
      Follows config signal top reaction := by
    refine ⟨htaken.layer_eq, fun r henter => ?_⟩
    have hstep := htaken.step
    rw [henter] at hstep
    cases n with
    | zero => exact False.elim hstep.2.2
    | succ n => exact text_feed_of_taken hstep.2.2 hchar
  cases h with
  | «open» top' below' h hsteps =>
    obtain ⟨rfl, rfl⟩ := h.toHolds.eq_of_stack hstack
    refine (h.rests hopening).answers.mono fun reaction hreacts => ?_
    cases hreacts with
    | taken h hchar => exact htaken hchar h
    | left hleft =>
      refine ⟨hleft.layer_eq, fun r henter => ?_⟩
      cases hleft.step_eq.symm.trans henter
    | detoured inner hdetoured hchar =>
      refine ⟨hdetoured.layer_eq, fun r henter => ?_⟩
      exact absurd (Step.enter.inj (hdetoured.step_eq.symm.trans henter)) (hdetoured.not_leaf r)
  | awaits m h hsteps =>
    obtain ⟨top', below', hholds, _, htakes, hchar⟩ := h
    obtain ⟨rfl, rfl⟩ := hholds.eq_of_stack hstack
    cases m with
    | zero => exact False.elim htakes
    | succ m => exact Yields.mono htakes fun reaction h => htaken hchar h
  | ended d h hsteps =>
    rw [h.stack_eq] at hstack
    cases hstack

/-- Whatever passes the signal on, a leaf that is innermost then takes it. -/
theorem holdsTextAfter_of_perform {c? : Option Char} {step : Step}
    (hhosted : ∀ top below, a.stack = top :: below → HostedBy outer below top.layer)
    (hentered : ∀ r, step = .enter (.leaf r) → (r.feed signal).1.text ≠ "") {a' : Automaton}
    (hperform : a.perform config c? step = .ok (.passed a')) : a'.HoldsTextAfter signal := by
  have hpopped (hpop : a.pop config = .ok a') : a'.HoldsTextAfter signal := by
    intro r below hstack' _
    rcases hstack : a.stack with _ | ⟨top, below⟩
    · unfold pop at hpop
      rw [hstack] at hpop
      cases hpop
      simp [hstack] at hstack'
    · exact absurd hstack' (pop_isInner hstack (hhosted top below hstack) hpop r _)
  cases step with
  | accept => cases hperform
  | acceptAndComplete =>
    cases hpop : a.pop config <;> simp only [perform, hpop] at hperform <;> cases hperform
  | complete =>
    cases hpop : a.pop config <;> simp only [perform, hpop] at hperform <;> cases hperform
    exact hpopped hpop
  | enter inner =>
    cases hpush : a.push config inner <;> simp only [perform, hpush] at hperform <;> cases hperform
    intro r below hstack _
    rw [stack_of_push hpush] at hstack
    exact hentered r (congrArg _ (List.cons.inj hstack).1)
  | absorb =>
    cases c? with
    | none =>
      cases hpop : a.pop config <;> simp only [perform, hpop] at hperform <;> cases hperform
      exact hpopped hpop
    | some c =>
      cases hpush : a.absorb config c <;> simp only [perform, hpush] at hperform <;>
        cases hperform

/-- A leaf that becomes innermost while a signal is passed on takes it. -/
theorem Runs.holdsTextAfter_of_passed (h : a.Runs config signal n outer text)
    (hleaves : ∀ inner ∈ a.opening, ∀ r, inner ≠ .leaf r) {a' : Automaton}
    (hstep : a.step config signal = .ok (.passed a')) : a'.HoldsTextAfter signal := by
  unfold Automaton.step at hstep
  rcases hstack : a.stack with _ | ⟨top, below⟩
  · rw [hstack] at hstep
    cases hstep
  rcases hopening : a.opening with _ | ⟨inner, more⟩
  · obtain ⟨reaction, hreaction, hfollows⟩ := h.follows hstack hopening
    rw [hstack, hopening] at hstep
    simp only [hreaction] at hstep
    have hhosted (top' : Reader) (below' : List Reader)
        (heq : reaction.state :: below = top' :: below') : HostedBy outer below' top'.layer := by
      obtain ⟨rfl, rfl⟩ := List.cons.inj heq
      rw [hfollows.layer_eq]
      exact h.hosted hstack
    exact holdsTextAfter_of_perform hhosted hfollows.entered hstep
  · rw [hstack, hopening] at hstep
    have hinner := hleaves inner (by simp [hopening])
    cases hpush : Automaton.push config { a with stack := top :: below, opening := more } inner <;>
      simp only [hpush] at hstep <;> cases hstep
    intro r below' hstack'
    rw [stack_of_push hpush] at hstack'
    exact absurd (List.cons.inj hstack').1 (hinner r)

/-! ### What steps keep while leaves hold text -/

/-- No step of a signal loses the property if an innermost leaf holds text after it; states that
are about to be opened are no leaves. -/
structure StepsKeepText (config : Config) (P : Automaton → Prop) : Prop where
  step : ∀ signal a, P a → a.HoldsTextAfter signal →
    Promises (a.step config signal) (Progress.Has P)
  opening : ∀ a, P a → ∀ inner ∈ a.opening, ∀ r, inner ≠ .leaf r

variable {P : Automaton → Prop}

/-- A signal is delivered with the property. -/
theorem deliver_keepsText (hkeep : StepsKeepText config P) (h : P a)
    (hafter : a.HoldsTextAfter signal)
    (hruns : a.Runs config signal n outer text) : Promises (a.deliver config signal n) P := by
  induction n generalizing a with
  | zero => exact absurd hruns.pos (Nat.lt_irrefl 0)
  | succ n ih =>
    have hpassed : Promises (a.step config signal) fun progress =>
        ∀ a', progress = .passed a' → a'.HoldsTextAfter signal :=
      fun progress hprogress a' heq =>
        hruns.holdsTextAfter_of_passed (hkeep.opening a h) (hprogress.trans (congrArg _ heq))
    refine (((hkeep.step signal a h hafter).and hruns.promises_step).and hpassed).bind
      fun progress hprogress => ?_
    obtain ⟨⟨hkept, hruns'⟩, hpassed'⟩ := hprogress
    cases progress with
    | taken a' => exact promises_pure.2 hkept
    | passed a' => exact ih hkept (hpassed' a' rfl) hruns'

/-- A signal keeps the property, and a character leaves an innermost leaf with text. -/
theorem signal_keepsText (hkeep : StepsKeepText config P) (h : P a) (hholds : a.HoldsText)
    (hreads : a.Reads outer text) :
    Promises (a.signal config signal) fun a' =>
      P a' ∧ a'.Delivered signal outer text ∧ (signal.toChar?.isSome → a'.HoldsText) := by
  have htext : Promises (a.signal config signal) fun a' =>
      signal.toChar?.isSome → a'.HoldsText :=
    fun a' hsignal hchar => hreads.holdsText hchar hsignal
  exact ((deliver_keepsText hkeep h (hreads.holdsTextAfter hholds) hreads.runs).and
    ((hreads.promises_signal signal).and htext)).mono fun a' ha' => ⟨ha'.1, ha'.2.1, ha'.2.2⟩

/-- Characters keep the property. -/
theorem feed_keepsText (hkeep : StepsKeepText config P) (h : P a) (hholds : a.HoldsText)
    (hreads : a.Reads outer text) (cs : List Char) :
    Promises (a.feed config cs) fun a' =>
      P a' ∧ a'.HoldsText ∧ ∃ text', a'.Reads outer text' := by
  induction cs generalizing a text with
  | nil => exact promises_pure.2 ⟨h, hholds, text, hreads⟩
  | cons c cs ih =>
    rw [feed, List.foldlM_cons]
    refine (signal_keepsText hkeep h hholds hreads).bind fun a' ha' => ?_
    obtain ⟨hkept, hdelivered, htext⟩ := ha'
    exact ih hkept (htext (by rw [Signal.toChar?_ofChar]; rfl)) hdelivered.1

/-- At the end of the text no state is open, and the property still holds. -/
theorem finish_keepsText (hkeep : StepsKeepText config P) (h : P a) (hholds : a.HoldsText)
    (hreads : a.Reads outer text) :
    Promises (a.finish config) fun result => ∃ a', P a' ∧ a'.stack = [] ∧
      result.1 = { a'.delivered.getD {} with trailing := (a'.delivered.getD {}).trailing ++
        if a'.leftover.isEmpty then [] else [Tree.ofText .invalid a'.leftover] } := by
  refine (signal_keepsText hkeep h hholds hreads).bind fun a' ha' => ?_
  obtain ⟨hkept, hdelivered, _⟩ := ha'
  have hend : a'.stack = [] := hdelivered.2 rfl
  have hunwind : a'.unwind config = .ok a' := by
    unfold unwind
    rw [hend]
  rw [hunwind]
  exact promises_pure.2 ⟨a', hkept, hend, rfl⟩

end Automaton

end ScriptTree
