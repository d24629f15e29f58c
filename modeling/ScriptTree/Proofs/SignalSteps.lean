import ScriptTree.Proofs.Parsing

/-!
# The states settle every signal by themselves

A signal goes from state to state until one of them takes it. The number of steps for that is
limited, and a signal that is still on its way then would be taken by force. Reading a text never
comes to that, so that the limit could be left out, and no state is ever told the end of a state
that it did not open: a state that reads a single leaf is told of none.
-/

namespace ScriptTree

/-- A state that reads a single leaf. -/
def Reader.ReadsLeaf : Reader → Prop
  | .leaf _ => True
  | _ => False

/-- A state with another one inside it does not read a leaf. -/
theorem Reader.Hosts.not_readsLeaf {r : Reader} {layer : Layer} (h : r.Hosts layer) :
    ¬ r.ReadsLeaf := by
  cases r with
  | leaf r => exact fun _ => h
  | _ => exact id

namespace Automaton

/-- The states that another one is open or about to be opened inside, the innermost first. One of
them is told of every end of another state. -/
def hosts (a : Automaton) : List Reader :=
  (a.opening.reverse ++ a.stack).tail

/-- The automata whose innermost states handle a signal, in order, until it is taken, no state is
open any more, or reading fails, with what comes out. Nothing limits their number. -/
inductive Calls (config : Config) (signal : Signal) :
    Automaton → List Automaton → Except ParseError Automaton → Prop
  | ended {a : Automaton} (hend : a.stack = []) :
    Calls config signal a [] (.ok (a.keepLeftover signal))
  | failed {a : Automaton} {e : ParseError} (hopen : a.stack ≠ [])
    (hstep : a.step config signal = .error e) : Calls config signal a [a] (.error e)
  | taken {a a' : Automaton} (hopen : a.stack ≠ [])
    (hstep : a.step config signal = .ok (.taken a')) : Calls config signal a [a] (.ok a')
  | passed {a a' : Automaton} {calls : List Automaton} {result : Except ParseError Automaton}
    (hopen : a.stack ≠ []) (hstep : a.step config signal = .ok (.passed a'))
    (hmore : Calls config signal a' calls result) : Calls config signal a (a :: calls) result

/-- The signals of a text that is read from the given state, each with the automaton that it is
given to. -/
inductive IsGiven (config : Config) (root : Reader) (text : String) : Automaton → Signal → Prop
  | char {a : Automaton} {before after : List Char} (c : Char)
    (htext : text.toList = before ++ c :: after)
    (hread : ((start config root).bind fun a => a.feed config before) = .ok a) :
    IsGiven config root text a (.ofChar c)
  | endOfText {a : Automaton}
    (hread : ((start config root).bind fun a => a.feed config text.toList) = .ok a) :
    IsGiven config root text a .endOfText

variable {config : Config} {signal : Signal} {outer : Layer} {a : Automaton} {top : Reader}
  {below : List Reader} {text : String}

/-- Any limit that leaves room for the calls leads to the same outcome. -/
theorem Calls.deliver_eq {calls : List Automaton} {result : Except ParseError Automaton}
    (h : Calls config signal a calls result) {limit : Nat} (hlimit : calls.length ≤ limit) :
    a.deliver config signal limit = result := by
  induction h generalizing limit with
  | @ended a hend =>
    cases limit with
    | zero => simp [deliver, force, hend]
    | succ limit =>
      simp only [deliver, step, hend]
      rfl
  | failed hopen hstep =>
    obtain ⟨limit, rfl⟩ := Nat.exists_eq_add_of_le' hlimit
    simp only [List.length_singleton, deliver, hstep]
    rfl
  | taken hopen hstep =>
    obtain ⟨limit, rfl⟩ := Nat.exists_eq_add_of_le' hlimit
    simp only [List.length_singleton, deliver, hstep]
    rfl
  | passed hopen hstep hmore ih =>
    cases limit with
    | zero => cases hlimit
    | succ limit =>
      simp only [deliver, hstep]
      exact ih (Nat.le_of_succ_le_succ hlimit)

/-- States one inside another, and the states around them, are hosts but for the innermost. -/
theorem not_readsLeaf_of_nested {opening : List Reader} (h : Reader.Nested top opening)
    (hbelow : ∀ r ∈ below, ¬ r.ReadsLeaf) :
    ∀ r ∈ (opening.reverse ++ top :: below).tail, ¬ r.ReadsLeaf := by
  induction opening generalizing top below with
  | nil => exact hbelow
  | cons inner more ih =>
    rw [List.reverse_cons, List.append_assoc, List.singleton_append]
    refine ih h.2 fun r hr => ?_
    rcases List.mem_cons.1 hr with rfl | hr
    · exact h.1.not_readsLeaf
    · exact hbelow r hr

/-- The states around the innermost one host others. -/
theorem not_readsLeaf_of_hosted {layer : Layer} (h : Reader.HostedBy outer below layer) :
    ∀ r ∈ below, ¬ r.ReadsLeaf := by
  induction below generalizing layer with
  | nil => simp
  | cons r rest ih =>
    rw [List.forall_mem_cons]
    exact ⟨h.1.not_readsLeaf, ih h.2⟩

/-- While a signal is being delivered, no state that reads a leaf has another one inside it. -/
theorem Runs.not_readsLeaf {n : Nat} (h : a.Runs config signal n outer text) (hopen : a.stack ≠ []) :
    ∀ r ∈ a.hosts, ¬ r.ReadsLeaf := by
  unfold hosts
  cases h with
  | «open» top below h _ =>
    rw [h.stack_eq]
    exact not_readsLeaf_of_nested h.nested (not_readsLeaf_of_hosted h.hosted)
  | awaits m h _ =>
    obtain ⟨top, below, hholds, hopening, _, _⟩ := h
    rw [hopening, hholds.stack_eq]
    exact not_readsLeaf_of_hosted hholds.hosted
  | ended d h _ => exact absurd h.stack_eq hopen

/-- Within the steps that are left the states settle a signal by themselves. -/
theorem Runs.calls {n : Nat} (h : a.Runs config signal n outer text) :
    ∃ calls result, Calls config signal a calls result ∧ calls.length ≤ n ∧
      ∀ b ∈ calls, ∀ r ∈ b.hosts, ¬ r.ReadsLeaf := by
  induction n generalizing a with
  | zero => exact absurd h.pos (Nat.lt_irrefl 0)
  | succ n ih =>
    by_cases hend : a.stack = []
    · exact ⟨[], _, .ended hend, Nat.zero_le _, by simp⟩
    · have hhosts := h.not_readsLeaf hend
      have hone : ∀ b ∈ [a], ∀ r ∈ b.hosts, ¬ r.ReadsLeaf := by simpa using hhosts
      cases hstep : a.step config signal with
      | error e => exact ⟨[a], _, .failed hend hstep, Nat.le_add_left 1 n, hone⟩
      | ok progress =>
        have hprogress := h.promises_step _ hstep
        cases progress with
        | taken a' => exact ⟨[a], _, .taken hend hstep, Nat.le_add_left 1 n, hone⟩
        | passed a' =>
          obtain ⟨calls, result, hcalls, hlength, hleaves⟩ := ih hprogress
          exact ⟨a :: calls, result, .passed hend hstep hcalls, Nat.succ_le_succ hlength,
            List.forall_mem_cons.2 ⟨hhosts, hleaves⟩⟩

/-- Every signal of a text is given to an automaton that read what comes before it. -/
theorem IsGiven.reads {entrance : Entrance} (h : IsGiven config entrance.reader text a signal) :
    ∃ before, a.Reads entrance.reader.layer before := by
  obtain ⟨hrests, _, hempty⟩ := entrance.reader_rests
  have hreads (cs : List Char) : Promises
      ((start config entrance.reader).bind fun a => a.feed config cs)
      (Reads entrance.reader.layer ("" ++ String.ofList cs)) :=
    (promises_start hrests hempty).bind fun a ha => ha.2.promises_feed cs
  cases h with
  | @char before after c htext hok => exact ⟨_, hreads before _ hok⟩
  | endOfText hok => exact ⟨_, hreads text.toList _ hok⟩

/-- The limit on the steps of a signal is never needed. From every entry point, for every signal of
every text, the states settle the signal by themselves in as many calls as the limit allows, so that
a higher limit would change nothing. In none of the calls has a state that reads a leaf another one
inside it that could end, and after the end of the text there is no open state left to be ended. -/
theorem signal_within_stepLimit {entrance : Entrance}
    (h : IsGiven config entrance.reader text a signal) :
    (∃ calls, Calls config signal a calls (a.signal config signal) ∧
      calls.length ≤ 4 * (a.stack.length + 16) ∧
      (∀ limit, calls.length ≤ limit →
        a.deliver config signal limit = a.signal config signal) ∧
      ∀ b ∈ calls, ∀ r ∈ b.hosts, ¬ r.ReadsLeaf) ∧
    (signal = .endOfText → ∀ a', a.signal config signal = .ok a' → a'.stack = []) := by
  obtain ⟨before, hreads⟩ := h.reads
  constructor
  · have hruns : a.Runs config signal a.stepLimit entrance.reader.layer before := hreads.runs
    obtain ⟨calls, result, hcalls, hlength, hleaves⟩ := hruns.calls
    have hsignal : a.signal config signal = result := hcalls.deliver_eq hlength
    refine ⟨calls, hsignal ▸ hcalls, hlength, fun limit hlimit => ?_, hleaves⟩
    rw [hsignal, hcalls.deliver_eq hlimit]
  · rintro rfl a' hsignal
    exact (hreads.promises_signal .endOfText a' hsignal).2 rfl

/-- The end of a text inside of brackets ends the name, the argument, the call and everything around
it, one after another. -/
theorem signal_within_stepLimit_open_call :
    ∃ a, IsGiven {} Entrance.expression.reader "f(a" a .endOfText ∧ a.stack.length = 5 ∧
      ∃ calls, Calls {} .endOfText a calls (a.signal {} .endOfText) ∧ calls.length ≤ 84 := by
  have hread : ((start {} Entrance.expression.reader).bind fun a =>
      a.feed {} "f(a".toList).toOption.any (fun a => a.stack.length == 5) = true := by
    decide +kernel
  obtain ⟨a, ha, hlength⟩ := exists_of_any_toOption hread
  rw [beq_iff_eq] at hlength
  have hgiven : IsGiven {} Entrance.expression.reader "f(a" a .endOfText := .endOfText ha
  obtain ⟨⟨calls, hcalls, hmost, _, _⟩, _⟩ := signal_within_stepLimit hgiven
  rw [hlength] at hmost
  exact ⟨a, hgiven, hlength, calls, hcalls, hmost⟩

end Automaton

end ScriptTree
