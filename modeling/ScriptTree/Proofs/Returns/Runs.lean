import ScriptTree.Proofs.Returns.Steps
import ScriptTree.Proofs.Spellings.Runs

/-!
# Reading in the two spellings

A text and the same text with a carriage return before each line feed lead through twins of the
same states, up to the end of the text. The one exception is a line feed right after a backslash
in a string that ends with its line: the backslash takes the line feed, but not both characters.
-/

namespace ScriptTree

attribute [local instance] ReaderSpelling.returns

namespace Automaton

open Reader

variable {config : Config} {signal : Signal} {outer : Layer} {a b : Automaton}
  {below below' : List Reader} {text : String} {n : Nat}

/-- Whether the next character is taken by a backslash in a string that ends with its line. -/
def isEscaping (a : Automaton) : Bool :=
  match a.stack with
  | .leaf (.string scan _) :: _ => scan.isEscaping
  | _ => false

/-- Whether a backslash takes a line feed, in a string that ends with its line. -/
def escapesBreak (config : Config) : Automaton → List Char → Bool
  | _, [] => false
  | a, c :: cs =>
    (c == '\n' && a.isEscaping) ||
      match a.signal config (.ofChar c) with
      | .ok a => escapesBreak config a cs
      | .error _ => false

/-- Whatever comes after a backslash that joins lines, both spellings of the break end it. -/
theorem continuation_twin :
    Option.Rel Tree.Twin (LeafReader.continuation "\\\n").token?
      (LeafReader.continuation "\\\r\n").token? := by
  have hends : "\\\n".endsWith "\n" = true ∧ "\\\r\n".endsWith "\n" = true := by
    decide +kernel
  simp only [LeafReader.token?, hends.1, hends.2, if_true]
  exact .some (Tree.twin_ofText _ (.inr (by decide)))

namespace Twin

/-- A line break is delivered in the same way. -/
theorem deliver_break (h : a.Twin b) (hruns : a.Runs config .newLine n outer text)
    (htakes : a.TakesBreaks) :
    Agree (fun a' between => ∃ b', between.signal config .newLine = .ok b' ∧ a'.Twin b')
      (a.deliver config .newLine n) (b.deliver config .carriageReturn n) := by
  induction n generalizing a b with
  | zero => exact absurd hruns.pos (Nat.lt_irrefl 0)
  | succ n ih =>
    refine ((h.turn hruns htakes).and hruns.promises_step).bind fun progress progress' hboth => ?_
    obtain ⟨hturn, hruns⟩ := hboth
    cases hturn with
    | taken hnext h => exact ⟨_, hnext, h⟩
    | passed h htakes => exact ih h hruns htakes

/-- A line break ends a backslash that joins lines. -/
theorem signal_break_of_continuation (h : a.Twin b) (hreads : a.Reads outer text)
    (hstack : a.stack = .leaf (.continuation "\\") :: below) :
    Agree Twin (a.signal config .newLine)
      (b.signal config .carriageReturn >>= fun b => b.signal config .newLine) := by
  obtain ⟨top', below', hstack', htop, hbelow⟩ := h.exists_stack_eq hstack
  obtain rfl : top' = .leaf (.continuation "\\") := by
    cases htop with
    | leaf h =>
      obtain ⟨_, rfl⟩ := h
      rfl
  have hruns : a.Runs config .newLine a.stepLimit outer text := hreads.runs
  have hhosted : HostedBy outer below (Reader.leaf (.continuation "\\\n")).layer :=
    (hruns.hosted hstack :)
  have hopening := hreads.opening_eq_nil hstack
  have hopening' := h.opening_eq_nil hopening
  have hline : a.signal config .newLine = _ :=
    signal_of_acceptAndComplete hstack hopening (r := .leaf (.continuation "\\\n")) rfl
  have hreturn : b.signal config .carriageReturn = _ :=
    signal_of_accept hstack' hopening' (r := .leaf (.continuation "\\\r")) rfl
  have hnext : ({ b with
      stack := .leaf (.continuation "\\\r") :: below'
      notices := b.notices.merge {} } : Automaton).signal config .newLine = _ :=
    signal_of_acceptAndComplete rfl hopening' (r := .leaf (.continuation "\\\r\n")) rfl
  have hnoticed : Automaton.Twin { a with notices := a.notices.merge {} }
      { b with notices := (b.notices.merge {}).merge {} } :=
    { h with notices := by simp [Notices.merge, h.notices] }
  have hfinish : Agree (fun d d' => d.Twin d' ∧
        ((Reader.leaf (.continuation "\\\n")).layer = .blank →
          Option.Rel (Tree.SameLevel ReaderSpelling.Suits) d.token d'.token))
      ((Reader.leaf (.continuation "\\\n")).finish config)
      ((Reader.leaf (.continuation "\\\r\n")).finish config) :=
    ⟨⟨.nil, continuation_twin, .nil, .none, .none⟩, fun hblank => by cases hblank⟩
  rw [hline, hreturn]
  change Agree Twin _ (Automaton.signal config _ .newLine)
  rw [hnext]
  exact (hnoticed.pop hbelow hhosted hfinish).mono fun _ _ hpopped => hpopped.1

/-- Whatever the innermost state is, it makes the same of a line break in the two spellings, unless
it joins lines or is a string in which a backslash comes last. -/
theorem takesBreaks (h : a.Twin b) (hreads : a.Reads outer text) (hescape : a.isEscaping = false)
    (hcontinuation : ∀ below, a.stack ≠ .leaf (.continuation "\\") :: below) : a.TakesBreaks := by
  by_cases hinner : a.IsInner
  · exact hreads.takesBreaks hinner
  · intro top below hstack _
    obtain ⟨r, below', hleaf⟩ : ∃ r below', a.stack = .leaf r :: below' := by
      simpa [IsInner] using hinner
    obtain ⟨rfl, rfl⟩ := List.cons.inj (hleaf.symm.trans hstack)
    obtain ⟨_, _, _, htop, _⟩ := h.exists_stack_eq hstack
    have hsettled : r.IsSettled := by
      cases htop with
      | leaf h => exact h.1
    cases r with
    | string scan text =>
      have hscan : scan.isEscaping = false := by simpa [isEscaping, hstack] using hescape
      exact hscan
    | continuation text => exact hsettled.resolve_right fun heq => hcontinuation _ (heq ▸ hstack)
    | _ => trivial

/-- A line break is taken in the same way in the two spellings. -/
theorem signal_break (h : a.Twin b) (hreads : a.Reads outer text)
    (hescape : a.isEscaping = false) :
    Agree Twin (a.signal config .newLine)
      (b.signal config .carriageReturn >>= fun b => b.signal config .newLine) := by
  by_cases hcontinuation : ∃ below, a.stack = .leaf (.continuation "\\") :: below
  · obtain ⟨below, hstack⟩ := hcontinuation
    exact h.signal_break_of_continuation hreads hstack
  · have htakes := h.takesBreaks hreads hescape (not_exists.1 hcontinuation)
    have hruns : a.Runs config .newLine a.stepLimit outer text := hreads.runs
    have hdelivered := h.deliver_break hruns htakes
    rw [Automaton.signal, Automaton.signal, h.stepLimit_eq,
      ← bind_pure (Automaton.deliver config .newLine a.stepLimit a)]
    refine hdelivered.bind fun a' between hnext => ?_
    obtain ⟨b', hnext, hb⟩ := hnext
    rw [hnext]
    exact hb

/-- The same characters are taken in the two spellings. -/
theorem feed (h : a.Twin b) (hreads : a.Reads outer text) {cs : List Char} (hreturn : '\r' ∉ cs)
    (hescape : escapesBreak config a cs = false) :
    Agree Twin (a.feed config cs) (b.feed config (cs.flatMap Text.spellReturn)) := by
  induction cs generalizing a b text with
  | nil => exact h
  | cons c cs ih =>
    rw [escapesBreak, Bool.or_eq_false_iff] at hescape
    have hsignal :
        Agree Twin (a.signal config (.ofChar c)) (b.feed config (Text.spellReturn c)) := by
      by_cases hc : c = '\n'
      · subst hc
        have hescaping : a.isEscaping = false := by simpa using hescape.1
        have hofChar : Signal.ofChar '\n' = .newLine ∧ Signal.ofChar '\r' = .carriageReturn :=
          ⟨rfl, rfl⟩
        simpa [Text.spellReturn, Automaton.feed, hofChar] using h.signal_break hreads hescaping
      · have hplain : (Signal.ofChar c).IsPlain := by
          intro c' hc'
          rw [Signal.toChar?_ofChar] at hc'
          cases hc'
          exact ⟨hc, fun heq => hreturn (by simp [heq])⟩
        simpa [Text.spellReturn, hc, Automaton.feed] using h.signal_plain trivial hreads hplain
    rw [List.flatMap_cons, feed_append, Automaton.feed, List.foldlM_cons]
    refine (hsignal.and (P := fun a' => a'.Delivered (.ofChar c) outer text ∧
      escapesBreak config a' cs = false) fun a' ha' => ⟨hreads.promises_signal _ a' ha', ?_⟩).bind
      fun a' b' hboth => ?_
    · rw [ha'] at hescape
      exact hescape.2
    · exact ih hboth.1 hboth.2.1.1 (fun hmem => hreturn (List.mem_cons_of_mem _ hmem)) hboth.2.2

end Twin

/-- A text is read in the same way in the two spellings. -/
theorem run_twin {root : Reader} (hroot : root.Twin root) (hrests : root.Rests)
    (hempty : root.text = "") {text : String} (hreturn : '\r' ∉ text.toList)
    (hescape : ∀ a, start config root = .ok a → escapesBreak config a text.toList = false) :
    Agree (fun x y => x.1.Twin y.1) (run config root text)
      (run config root (Text.withReturns text)) := by
  unfold run
  rw [Text.toList_withReturns]
  refine ((start_twin hroot).and (P := fun a => a.Reads root.layer "" ∧
    escapesBreak config a text.toList = false) fun a ha =>
      ⟨(promises_start hrests hempty a ha).2, hescape a ha⟩).bind
      fun a b hboth => ?_
  obtain ⟨⟨htwin, _⟩, hreads, hescape⟩ := hboth
  refine ((htwin.feed hreads hreturn hescape).and (hreads.promises_feed _)).bind
    fun a' b' hboth => ?_
  exact hboth.1.finish trivial hboth.2

end Automaton

end ScriptTree
