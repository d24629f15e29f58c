import ScriptTree.Proofs.Readers

/-!
# Reading a text to its end

The open states stand one inside another, and together they hold the text that was read. Every
step brings a signal closer to the state that takes it, so that the bound on the number of steps is
never reached, and no character is taken by force.
-/

namespace ScriptTree

/-- Nothing is noticed besides. -/
@[simp]
theorem Notices.merge_empty (notices : Notices) : notices.merge {} = notices := by
  simp [merge]

namespace Reader

/-- A state inside which another one is open hands nothing on, and has few steps to take. -/
theorem Hosts.cost_le {r : Reader} {layer : Layer} (h : r.Hosts layer) : r.cost ≤ 3 := by
  cases r with
  | leaf r => exact False.elim h
  | expression r =>
    have hgoing := ExpressionReader.Hosts.toGoing h
    simp [cost, credit, hgoing.handback, handbackCost]
  | group r =>
    have hgoing := GroupReader.Sound.toGoing h.toSound h.going
    simp [cost, credit, hgoing.handback, handbackCost]
  | sequence r =>
    rw [SequenceReader.Hosts.cost_eq h]
    have hblock := r.blockCost_le
    omega
  | block r => exact Nat.le_add_left 1 2
  | root r => exact Nat.le_add_left 1 2

/-- Few steps are paid for what any state delivers. -/
theorem credit_le (r : Reader) : r.credit ≤ 10 := by
  have hhandback (t : Option Tree) : handbackCost t ≤ 10 := by
    cases t <;> simp [handbackCost]
  cases r with
  | leaf r => exact Nat.le_refl 10
  | expression r => exact hhandback _
  | group r => exact hhandback _
  | sequence r => exact hhandback _
  | block r => exact Nat.zero_le 10
  | root r => exact Nat.zero_le 10

/-- No state takes many steps. -/
theorem cost_le (r : Reader) : r.cost ≤ 13 := by
  have hcredit := r.credit_le
  cases r with
  | sequence r =>
    have hblock := r.blockCost_le
    simp only [credit] at hcredit
    simp only [cost]
    omega
  | _ =>
    simp only [cost]
    omega

/-- States around a state of the given layer, the innermost first: each hosts the one before it,
and the outermost one is of a fixed layer. -/
def HostedBy (outer : Layer) : List Reader → Layer → Prop
  | [], layer => layer = outer
  | r :: rest, layer => r.Hosts layer ∧ HostedBy outer rest r.layer

end Reader

namespace Automaton

open Reader

/-- The steps that all open states may take until a signal leaves them. -/
def cost (a : Automaton) : Nat :=
  (a.stack.map Reader.cost).sum + costOfAll a.opening

/-- An automaton whose innermost state is as given, with the text that its states hold. -/
structure Holds (a : Automaton) (outer : Layer) (top : Reader) (below : List Reader)
    (text : String) : Prop where
  stack_eq : a.stack = top :: below
  hosted : HostedBy outer below top.layer
  leftover : a.leftover = ""
  text_eq : textOfAll below.reverse ++ top.text ++ textOfAll a.opening = text

/-- An automaton that has read a text and goes on. -/
structure Open (a : Automaton) (outer : Layer) (top : Reader) (below : List Reader)
    (text : String) : Prop extends a.Holds outer top below text where
  nested : Nested top a.opening
  cost_le : top.cost + costOfAll a.opening ≤ 13

/-- An automaton whose outermost state has ended. -/
structure Ended (a : Automaton) (outer : Layer) (d : Delivery) (text : String) : Prop where
  stack_eq : a.stack = []
  delivered : a.delivered = some d
  from_outer : d.From outer
  text_eq : d.text ++ a.leftover = text

/-- An automaton that has read a text. -/
inductive Reads (outer : Layer) (text : String) (a : Automaton) : Prop where
  | open (top : Reader) (below : List Reader) (h : a.Open outer top below text)
  | ended (d : Delivery) (h : a.Ended outer d text)

/-- An automaton whose innermost state takes a character within some steps. -/
inductive Awaits (config : Config) (signal : Signal) (n : Nat) (outer : Layer) (text : String)
    (a : Automaton) : Prop where
  | intro (top : Reader) (below : List Reader) (h : a.Holds outer top below text)
    (hopening : a.opening = []) (htakes : Takes config signal n top)
    (hchar : signal.toChar?.isSome)

variable {config : Config} {signal : Signal} {outer : Layer} {a : Automaton} {top : Reader}
  {below : List Reader} {text : String} {limited : Prop}

/-- Opening a state inside the innermost one. -/
theorem push_meets (hlimited : config.maxReadingStack.isSome → limited) (inner : Reader) :
    Meets limited (a.push config inner) (· = { a with stack := inner :: a.stack }) := by
  refine (meets_checkDepth hlimited).bind fun _ _ => ?_
  exact meets_pure.2 rfl

/-- A state that ends hands its text to the state around it. -/
theorem pop_meets (hlimited : config.maxTraceFrames.isSome → limited)
    (h : a.Holds outer top below text) (hopening : a.opening = []) (hends : top.Ends) :
    Meets limited (a.pop config) fun a' =>
      a'.Reads outer text ∧ a'.cost ≤ (below.map Reader.cost).sum + top.credit := by
  have htext := h.text_eq
  rw [hopening, textOfAll_nil, String.append_empty] at htext
  unfold pop
  rw [h.stack_eq]
  cases below with
  | nil =>
    refine (hends.finish_meets hlimited).bind fun d hd => ?_
    obtain ⟨hfrom, hsame, _⟩ := hd
    refine meets_pure.2 ⟨.ended d ⟨rfl, rfl, ?_, ?_⟩, ?_⟩
    · rw [← show top.layer = outer from h.hosted]
      exact hfrom
    · simpa [hsame, h.leftover] using htext
    · simp [cost, hopening]
  | cons around below =>
    obtain ⟨hhosts, hosted⟩ := h.hosted
    refine (hends.finish_meets hlimited).bind fun d hd => ?_
    obtain ⟨hfrom, hsame, hcredit⟩ := hd
    refine (hhosts.onDelivery_yields hfrom).meets.bind fun receipt hreceipt => ?_
    have hcost := hreceipt.cost_le
    have haround := hhosts.cost_le
    have htop := top.credit_le
    refine meets_pure.2 ⟨.open receipt.state below {
      stack_eq := rfl
      hosted := hreceipt.layer_eq ▸ hosted
      leftover := h.leftover
      text_eq := ?_
      nested := hreceipt.nested
      cost_le := ?_ }, ?_⟩
    · rw [String.append_assoc, hreceipt.text_eq, hsame, ← htext]
      simp [textOfAll, String.append_assoc]
    · dsimp only
      omega
    · simp only [cost, List.map_cons, List.sum_cons]
      omega

/-- What is known of an automaton after a step of a signal: whoever took it added its text, and
whoever passed it on is closer to the state that will take it. -/
def Progress.Fits (config : Config) (signal : Signal) (n bound : Nat) (outer : Layer)
    (text : String) : Progress → Prop
  | .taken a => a.Reads outer (text ++ signal.text) ∧ signal.toChar?.isSome
  | .passed a => a.Awaits config signal n outer text ∨ a.Reads outer text ∧ a.cost < bound

/-- A signal stands for its character. -/
theorem text_of_toChar? {c : Char} (h : signal.toChar? = some c) :
    signal.text = String.singleton c := by
  rw [Signal.text, h]
  rfl

/-- A state that takes a signal, or opens one that does. -/
theorem perform_taken (hstack : config.maxReadingStack.isSome → limited)
    (hfolding : config.maxTraceFrames.isSome → limited) (h : a.Holds outer top below text)
    (hopening : a.opening = []) (hchar : signal.toChar?.isSome) {n bound : Nat}
    {reaction : Reaction Reader}
    (htaken : top.Taken signal (Takes config signal n) reaction) (notices : Notices) :
    Meets limited
      ({ a with stack := reaction.state :: below, notices }.perform config signal.toChar?
        reaction.step) (Progress.Fits config signal n bound outer text) := by
  have hholds {added : String} (htext : reaction.state.text = top.text ++ added) :
      ({ a with stack := reaction.state :: below, notices } : Automaton).Holds outer
        reaction.state below (text ++ added) := by
    refine ⟨rfl, htaken.layer_eq ▸ h.hosted, h.leftover, ?_⟩
    simp [← h.text_eq, hopening, htext, String.append_assoc]
  have hopen (inner : Reader) (added : String) (hhosts : reaction.state.Hosts inner.layer)
      (htext : reaction.state.text ++ inner.text = top.text ++ added) :
      ({ a with stack := inner :: reaction.state :: below, notices } : Automaton).Holds outer
        inner (reaction.state :: below) (text ++ added) := by
    refine ⟨rfl, ⟨hhosts, htaken.layer_eq ▸ h.hosted⟩, h.leftover, ?_⟩
    rw [← h.text_eq, hopening]
    simp [textOfAll, String.append_assoc, htext]
  have hstep := htaken.step
  cases hreacts : reaction.step with
  | accept =>
    rw [hreacts] at hstep
    refine meets_pure.2 ⟨.open reaction.state below ⟨hholds hstep.2, ?_, ?_⟩, hchar⟩
    · dsimp only
      rw [hopening]
      exact hstep.1
    · dsimp only
      rw [hopening]
      exact reaction.state.cost_le
  | acceptAndComplete =>
    rw [hreacts] at hstep
    refine (pop_meets hfolding (hholds hstep.2) hopening hstep.1).bind fun a' ha' => ?_
    exact meets_pure.2 ⟨ha'.1, hchar⟩
  | complete =>
    rw [hreacts] at hstep
    exact False.elim hstep
  | enter inner =>
    rw [hreacts] at hstep
    obtain ⟨hhosts, htext, htakes⟩ := hstep
    refine (push_meets hstack inner).bind fun a' ha' => ?_
    subst ha'
    have hinner := hopen inner "" hhosts (by simpa using htext)
    rw [String.append_empty] at hinner
    exact meets_pure.2 (.inl ⟨inner, _, hinner, hopening, htakes, hchar⟩)
  | absorb =>
    rw [hreacts] at hstep
    obtain ⟨hhosts, htext⟩ := hstep
    obtain ⟨c, hc⟩ := Option.isSome_iff_exists.1 hchar
    have hsignal := text_of_toChar? hc
    rw [hc]
    refine (push_meets hstack (.leaf (.invalid (String.singleton c)))).bind fun a' ha' => ?_
    subst ha'
    have hinner := hopen (.leaf (.invalid (String.singleton c))) signal.text hhosts
      (by simp [htext, hsignal, LeafReader.text])
    refine meets_pure.2 ⟨.open _ _ ⟨hinner, ?_, ?_⟩, by rw [hc]; rfl⟩
    · dsimp only
      rw [hopening]
      exact trivial
    · dsimp only
      rw [hopening]
      exact Reader.cost_le (.leaf (.invalid (String.singleton c)))

/-- A state that leaves a signal to others, or opens a state at rest for it, takes a step towards
the state that takes the signal. -/
theorem perform_reacts (hstack : config.maxReadingStack.isSome → limited)
    (hfolding : config.maxTraceFrames.isSome → limited) (h : a.Open outer top below text)
    (hopening : a.opening = []) {reaction : Reaction Reader}
    (hreacts : top.Reacts config signal 4 reaction) (notices : Notices) :
    Meets limited
      ({ a with stack := reaction.state :: below, notices }.perform config signal.toChar?
        reaction.step) (Progress.Fits config signal 4 a.cost outer text) := by
  have hcost : a.cost = top.cost + (below.map Reader.cost).sum := by
    simp [cost, h.stack_eq, hopening]
  cases hreacts with
  | taken htaken hchar =>
    exact perform_taken hstack hfolding h.toHolds hopening hchar htaken notices
  | left hleft =>
    have hholds : ({ a with stack := reaction.state :: below, notices } : Automaton).Holds outer
        reaction.state below text :=
      ⟨rfl, hleft.layer_eq ▸ h.hosted, h.leftover, by rw [hleft.text_eq]; exact h.text_eq⟩
    rw [hleft.step_eq]
    refine (pop_meets hfolding hholds hopening hleft.ends).bind fun a' ha' => ?_
    have hcredit := hleft.credit_le
    have htop := top.credit_lt_cost
    exact meets_pure.2 (.inr ⟨ha'.1, by omega⟩)
  | detoured inner hdetoured hchar =>
    rw [hdetoured.step_eq]
    refine (push_meets hstack inner).bind fun a' ha' => ?_
    subst ha'
    have hless := hdetoured.cost_lt
    have hmost := h.cost_le
    rw [hopening, costOfAll_nil] at hmost
    refine meets_pure.2 (.inr ⟨.open inner (reaction.state :: below) ⟨⟨rfl, ?_, h.leftover, ?_⟩,
      ?_, ?_⟩, ?_⟩)
    · exact ⟨hdetoured.hosts, hdetoured.layer_eq ▸ h.hosted⟩
    · rw [← h.text_eq, hopening]
      simp [textOfAll, String.append_assoc, hdetoured.text_eq]
    · dsimp only
      rw [hopening]
      exact hdetoured.rests
    · dsimp only
      rw [hopening, costOfAll_nil]
      omega
    · rw [hcost]
      simp only [cost, hopening, List.map_cons, List.sum_cons, costOfAll_nil]
      omega

/-- A state that is about to be opened is opened first. -/
theorem step_opening (hstack : config.maxReadingStack.isSome → limited)
    (h : a.Open outer top below text) {inner : Reader} {more : List Reader}
    (hopening : a.opening = inner :: more) :
    Meets limited (a.step config signal) (Progress.Fits config signal 4 a.cost outer text) := by
  have hnested := h.nested
  have hmost := h.cost_le
  have hless := top.credit_lt_cost
  rw [hopening] at hnested hmost
  rw [costOfAll_cons] at hmost
  unfold step
  rw [h.stack_eq, hopening]
  refine (push_meets hstack inner).bind fun a' ha' => ?_
  subst ha'
  refine meets_pure.2 (.inr ⟨.open inner (top :: below) ⟨⟨?_, ⟨hnested.1, h.hosted⟩, h.leftover,
    ?_⟩, hnested.2, ?_⟩, ?_⟩)
  · rfl
  · rw [← h.text_eq, hopening]
    simp [textOfAll, String.append_assoc]
  · dsimp only
    omega
  · simp only [cost, hopening, h.stack_eq, List.map_cons, List.sum_cons, costOfAll_cons]
    omega

/-- Every step brings a signal closer to the state that takes it. -/
theorem step_meets (hstack : config.maxReadingStack.isSome → limited)
    (hfolding : config.maxTraceFrames.isSome → limited) (h : a.Open outer top below text) :
    Meets limited (a.step config signal) (Progress.Fits config signal 4 a.cost outer text) := by
  cases hopening : a.opening with
  | cons inner more => exact step_opening hstack h hopening
  | nil =>
    have hnested := h.nested
    rw [hopening] at hnested
    have hrests : top.Rests := hnested
    unfold step
    rw [h.stack_eq, hopening]
    refine hrests.answers.meets.bind fun reaction hreacts => ?_
    exact hopening ▸ perform_reacts hstack hfolding h hopening hreacts _

/-- What holds when a signal was delivered: its text was added, and the end of the text ended all
states. -/
def Delivered (signal : Signal) (outer : Layer) (text : String) (a : Automaton) : Prop :=
  a.Reads outer (text ++ signal.text) ∧ (signal.toChar? = none → a.stack = [])

/-- A signal that is taken was delivered. -/
theorem Reads.delivered (h : a.Reads outer (text ++ signal.text)) (hchar : signal.toChar?.isSome) :
    a.Delivered signal outer text := by
  refine ⟨h, fun hnone => ?_⟩
  rw [hnone] at hchar
  cases hchar

/-- The state that takes a character takes it, or a step brings the character closer to it. -/
theorem step_awaits (hstack : config.maxReadingStack.isSome → limited)
    (hfolding : config.maxTraceFrames.isSome → limited) {n : Nat}
    (h : a.Awaits config signal (n + 1) outer text) :
    Meets limited (a.step config signal) (Progress.Fits config signal n 0 outer text) := by
  obtain ⟨top, below, hholds, hopening, htakes, hchar⟩ := h
  unfold step
  rw [hholds.stack_eq, hopening]
  refine htakes.meets.bind fun reaction htaken => ?_
  exact hopening ▸ perform_taken hstack hfolding hholds hopening hchar htaken _

/-- After the end of the outermost state a signal is kept. -/
theorem step_ended {d : Delivery} (h : a.Ended outer d text) :
    ∃ a', a.step config signal = .ok (.taken a') ∧ a'.Delivered signal outer text := by
  refine ⟨a.keepLeftover signal, ?_, .ended d ⟨h.stack_eq, h.delivered, h.from_outer, ?_⟩,
    fun _ => h.stack_eq⟩
  · unfold step
    rw [h.stack_eq]
  · rw [← h.text_eq, String.append_assoc]
    rfl

/-- An automaton to which a signal is being delivered within some steps. -/
inductive Runs (config : Config) (signal : Signal) (n : Nat) (outer : Layer) (text : String)
    (a : Automaton) : Prop where
  | open (top : Reader) (below : List Reader) (h : a.Open outer top below text)
    (hsteps : a.cost + 4 < n)
  | awaits (m : Nat) (h : a.Awaits config signal m outer text) (hsteps : m ≤ n)
  | ended (d : Delivery) (h : a.Ended outer d text) (hsteps : 0 < n)

/-- What is known of an automaton after a step of a signal, within the steps that are left. -/
def Progress.Runs (config : Config) (signal : Signal) (n : Nat) (outer : Layer) (text : String) :
    Progress → Prop
  | .taken a => a.Delivered signal outer text
  | .passed a => a.Runs config signal n outer text

/-- No signal is being delivered without steps. -/
theorem Runs.pos {n : Nat} (h : a.Runs config signal n outer text) : 0 < n := by
  cases h with
  | «open» top below h hsteps => omega
  | ended d h hsteps => exact hsteps
  | awaits m h hsteps =>
    obtain ⟨_, _, _, _, htakes, _⟩ := h
    cases m with
    | zero => exact False.elim htakes
    | succ m => omega

/-- Every step takes one of the steps that are left. -/
theorem Runs.step (hstack : config.maxReadingStack.isSome → limited)
    (hfolding : config.maxTraceFrames.isSome → limited) {n : Nat}
    (h : a.Runs config signal (n + 1) outer text) :
    Meets limited (a.step config signal) (Progress.Runs config signal n outer text) := by
  cases h with
  | «open» top below h hsteps =>
    refine (step_meets hstack hfolding h).mono fun progress hprogress => ?_
    cases progress with
    | taken a' => exact hprogress.1.delivered hprogress.2
    | passed a' =>
      rcases hprogress with hawaits | ⟨hreads, hcost⟩
      · exact .awaits 4 hawaits (by omega)
      · cases hreads with
        | «open» top below h => exact .open top below h (by omega)
        | ended d h => exact .ended d h (by omega)
  | awaits m h hsteps =>
    cases m with
    | zero =>
      obtain ⟨_, _, _, _, htakes, _⟩ := h
      exact False.elim htakes
    | succ m =>
      refine (step_awaits hstack hfolding h).mono fun progress hprogress => ?_
      cases progress with
      | taken a' => exact hprogress.1.delivered hprogress.2
      | passed a' =>
        rcases hprogress with hawaits | ⟨_, hcost⟩
        · exact .awaits m hawaits (by omega)
        · omega
  | ended d h hsteps =>
    obtain ⟨a', hstep, hdelivered⟩ : ∃ a', a.step config signal = .ok (.taken a') ∧
        a'.Delivered signal outer text := step_ended h
    rw [hstep]
    exact hdelivered

/-- A signal is delivered within the steps that are left. -/
theorem Runs.deliver (hstack : config.maxReadingStack.isSome → limited)
    (hfolding : config.maxTraceFrames.isSome → limited) {n : Nat}
    (h : a.Runs config signal n outer text) :
    Meets limited (a.deliver config signal n) (Delivered signal outer text) := by
  induction n generalizing a with
  | zero => exact absurd h.pos (Nat.lt_irrefl 0)
  | succ n ih =>
    refine (h.step hstack hfolding).bind fun progress hprogress => ?_
    cases progress with
    | taken a' => exact meets_pure.2 hprogress
    | passed a' => exact ih hprogress

/-- The states around the innermost one have few steps to take. -/
theorem cost_le_of_hosted {layer : Layer} (h : HostedBy outer below layer) :
    (below.map Reader.cost).sum ≤ 3 * below.length := by
  induction below generalizing layer with
  | nil => exact Nat.le_refl 0
  | cons r rest ih =>
    obtain ⟨hhosts, hrest⟩ := h
    have hcost := hhosts.cost_le
    have hmore := ih hrest
    simp only [List.map_cons, List.sum_cons, List.length_cons]
    omega

/-- The states take fewer steps than are allowed for a signal. -/
theorem Open.cost_lt_stepLimit (h : a.Open outer top below text) : a.cost + 4 < a.stepLimit := by
  have hbelow := cost_le_of_hosted h.hosted
  have hmost := h.cost_le
  simp only [cost, stepLimit, h.stack_eq, List.map_cons, List.sum_cons, List.length_cons]
  omega

/-- As many steps are allowed for a signal as it may take. -/
theorem Reads.runs (h : a.Reads outer text) : a.Runs config signal a.stepLimit outer text := by
  cases h with
  | «open» top below h => exact .open top below h h.cost_lt_stepLimit
  | ended d h => exact .ended d h (by simp [stepLimit])

/-- Every signal is delivered: the bound on the number of steps is never reached. -/
theorem signal_meets (hstack : config.maxReadingStack.isSome → limited)
    (hfolding : config.maxTraceFrames.isSome → limited) (h : a.Reads outer text) :
    Meets limited (a.signal config signal) (Delivered signal outer text) :=
  h.runs.deliver hstack hfolding

/-- Characters are added to the text in order. -/
theorem feed_meets (hstack : config.maxReadingStack.isSome → limited)
    (hfolding : config.maxTraceFrames.isSome → limited) (cs : List Char)
    (h : a.Reads outer text) :
    Meets limited (a.feed config cs) (Reads outer (text ++ String.ofList cs)) := by
  induction cs generalizing a text with
  | nil => simpa [feed] using h
  | cons c cs ih =>
    rw [feed, List.foldlM_cons]
    refine (signal_meets hstack hfolding h).bind fun a' ha' => ?_
    have htext : text ++ String.ofList (c :: cs) =
        text ++ (Signal.ofChar c).text ++ String.ofList cs := by
      rw [text_of_toChar? (Signal.toChar?_ofChar c), String.append_assoc]
      simp
    rw [htext]
    exact ih ha'.1

/-- The end of the text ends all states, and the outermost one delivers the text. -/
theorem finish_meets (hstack : config.maxReadingStack.isSome → limited)
    (hfolding : config.maxTraceFrames.isSome → limited) (houter : outer.IsOutermost)
    (h : a.Reads outer text) :
    Meets limited (a.finish config) fun result =>
      (∃ kind form, result.1.token = some (.ofForm kind form)) ∧
        Tree.textOfTokens (result.1.leading ++ result.1.token.toList ++ result.1.trailing) =
          text := by
  refine (signal_meets hstack hfolding h).bind fun a' ha' => ?_
  obtain ⟨hreads, hend⟩ := ha'
  have hstacked : a'.stack = [] := hend rfl
  have hunwind : a'.unwind config = .ok a' := by
    unfold unwind
    rw [hstacked]
  rw [hunwind]
  cases hreads with
  | «open» top below hopen =>
    rw [hopen.stack_eq] at hstacked
    cases hstacked
  | ended d hended =>
    obtain ⟨hhandback, hline, htoken⟩ := hended.from_outer.outermost houter
    have htext : d.text ++ a'.leftover = text := by
      simpa [Signal.text, Signal.toChar?] using hended.text_eq
    have hrest : Tree.textOfTokens
        (if a'.leftover = "" then [] else [Tree.ofText .invalid a'.leftover]) = a'.leftover := by
      split
      · rename_i hempty
        simp [hempty]
      · simp [Tree.ofText]
    refine meets_pure.2 ?_
    dsimp only
    rw [hended.delivered]
    refine ⟨htoken, ?_⟩
    rw [← htext, Delivery.text, hhandback, hline, textHandedOn_none, String.append_empty]
    simp [hrest, String.append_assoc]

/-- The automaton starts with a state at rest, having read nothing. -/
theorem start_meets (hstack : config.maxReadingStack.isSome → limited) {root : Reader}
    (hrests : root.Rests) (hempty : root.text = "") :
    Meets limited (start config root) (Reads root.layer "") :=
  (push_meets hstack root).mono fun a ha => by
    rw [ha]
    exact .open root [] ⟨⟨rfl, rfl, rfl, by simp [hempty]⟩, hrests, root.cost_le⟩

/-- Reading succeeds with the text that was read, unless nesting goes beyond a limit. -/
theorem run_meets (hstack : config.maxReadingStack.isSome → limited)
    (hfolding : config.maxTraceFrames.isSome → limited) {root : Reader} (hrests : root.Rests)
    (houter : root.layer.IsOutermost) (hempty : root.text = "") (text : String) :
    Meets limited (run config root text) fun result =>
      (∃ kind form, result.1.token = some (.ofForm kind form)) ∧
        Tree.textOfTokens (result.1.leading ++ result.1.token.toList ++ result.1.trailing) =
          text := by
  refine (start_meets hstack hrests hempty).bind fun a hreads => ?_
  refine (feed_meets hstack hfolding text.toList hreads).bind fun a' ha' => ?_
  exact finish_meets hstack hfolding houter (by simpa using ha')

/-! ### What is read as long as no limit is met -/

/-- The automaton starts with its outermost state alone, having read nothing. -/
theorem promises_start {root : Reader} (hrests : root.Rests) (hempty : root.text = "") :
    Promises (start config root) fun a => a = { stack := [root] } ∧ a.Reads root.layer "" := by
  have hreads : Meets True (start config root) (Reads root.layer "") :=
    start_meets (fun _ => trivial) hrests hempty
  have hpush : Meets True (start config root) (· = { stack := [root] }) :=
    push_meets (fun _ => trivial) root
  exact hpush.promises.and hreads.promises

/-- A step of a signal leaves one step less to be taken. -/
theorem Runs.promises_step {n : Nat} (h : a.Runs config signal (n + 1) outer text) :
    Promises (a.step config signal) (Progress.Runs config signal n outer text) := by
  have hmeets : Meets True (a.step config signal) (Progress.Runs config signal n outer text) :=
    h.step (fun _ => trivial) (fun _ => trivial)
  exact hmeets.promises

/-- A signal is delivered. -/
theorem Reads.promises_signal (h : a.Reads outer text) (signal : Signal) :
    Promises (a.signal config signal) (Delivered signal outer text) := by
  have hmeets : Meets True (a.signal config signal) (Delivered signal outer text) :=
    signal_meets (fun _ => trivial) (fun _ => trivial) h
  exact hmeets.promises

/-- Characters are added to the text that was read. -/
theorem Reads.promises_feed (h : a.Reads outer text) (cs : List Char) :
    Promises (a.feed config cs) (Reads outer (text ++ String.ofList cs)) := by
  have hmeets : Meets True (a.feed config cs) (Reads outer (text ++ String.ofList cs)) :=
    feed_meets (fun _ => trivial) (fun _ => trivial) cs h
  exact hmeets.promises

/-! ### What every step keeps -/

/-- A step of a signal leads to an automaton with the property. -/
def Progress.Has (P : Automaton → Prop) : Progress → Prop
  | .taken a | .passed a => P a

/-- No step of a signal loses the property. -/
def StepsKeep (config : Config) (P : Automaton → Prop) : Prop :=
  ∀ signal a, P a → Promises (a.step config signal) (Progress.Has P)

variable {P : Automaton → Prop}

/-- A signal is delivered with the property once a step of it has led there. -/
theorem deliver_promises (hkeep : StepsKeep config P) {n : Nat}
    (hstep : Promises (a.step config signal) (Progress.Has P))
    (hruns : a.Runs config signal n outer text) : Promises (a.deliver config signal n) P := by
  induction n generalizing a with
  | zero => exact absurd hruns.pos (Nat.lt_irrefl 0)
  | succ n ih =>
    refine (hstep.and hruns.promises_step).bind fun progress hprogress => ?_
    cases progress with
    | taken a' => exact promises_pure.2 hprogress.1
    | passed a' => exact ih (hkeep signal a' hprogress.1) hprogress.2

theorem signal_promises (hkeep : StepsKeep config P)
    (hstep : Promises (a.step config signal) (Progress.Has P)) (hreads : a.Reads outer text) :
    Promises (a.signal config signal) fun a' => P a' ∧ a'.Delivered signal outer text :=
  (deliver_promises hkeep hstep hreads.runs).and (hreads.promises_signal signal)

/-- Characters do not lose the property. -/
theorem feed_promises (hkeep : StepsKeep config P) (h : P a) (hreads : a.Reads outer text)
    (cs : List Char) :
    Promises (a.feed config cs) fun a' => P a' ∧ ∃ text', a'.Reads outer text' := by
  induction cs generalizing a text with
  | nil => exact promises_pure.2 ⟨h, text, hreads⟩
  | cons c cs ih =>
    rw [feed, List.foldlM_cons]
    exact (signal_promises hkeep (hkeep _ a h) hreads).bind fun a' ha' => ih ha'.1 ha'.2.1

/-- At the end of the text no state is open, and the property still holds. -/
theorem finish_promises (hkeep : StepsKeep config P) (h : P a) (hreads : a.Reads outer text) :
    Promises (a.finish config) fun result => ∃ a', P a' ∧ a'.stack = [] ∧
      result.1 = { a'.delivered.getD {} with trailing := (a'.delivered.getD {}).trailing ++
        if a'.leftover.isEmpty then [] else [Tree.ofText .invalid a'.leftover] } := by
  refine (signal_promises hkeep (hkeep .endOfText a h) hreads).bind fun a' ha' => ?_
  obtain ⟨hkept, hdelivered⟩ := ha'
  have hend : a'.stack = [] := hdelivered.2 rfl
  have hunwind : a'.unwind config = .ok a' := by
    unfold unwind
    rw [hend]
  rw [hunwind]
  exact promises_pure.2 ⟨a', hkept, hend, rfl⟩

end Automaton

end ScriptTree
