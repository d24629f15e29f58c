import ScriptTree.Proofs.Spellings.Steps

/-!
# Reading in the two spellings

Automata that are twins take a signal that is the same in the two spellings in the same way, and
deliver the same at the end of the text.
-/

namespace ScriptTree

variable [ReaderSpelling]

namespace Automaton

open Reader

variable {config : Config} {signal : Signal} {outer : Layer} {a b : Automaton}
  {below : List Reader} {text : String} {n : Nat}

omit [ReaderSpelling] in
/-- No state is about to be opened inside a leaf. -/
theorem Reads.opening_eq_nil (h : a.Reads outer text) {r : LeafReader}
    (hstack : a.stack = .leaf r :: below) : a.opening = [] := by
  cases h with
  | ended d h =>
    rw [h.stack_eq] at hstack
    cases hstack
  | «open» top below h =>
    have hnested := h.nested
    obtain ⟨rfl, rfl⟩ := h.toHolds.eq_of_stack hstack
    cases hopening : a.opening with
    | nil => rfl
    | cons inner more =>
      rw [hopening] at hnested
      exact False.elim hnested.1

namespace Twin

/-- A signal that is the same in the two spellings is delivered in the same way. -/
theorem deliver (h : a.Twin b) (hsuits : ReaderSpelling.Suits config)
    (hruns : a.Runs config signal n outer text) (hsignal : ReaderSpelling.IsPlain signal) :
    Agree Twin (a.deliver config signal n) (b.deliver config signal n) := by
  induction n generalizing a b with
  | zero => exact absurd hruns.pos (Nat.lt_irrefl 0)
  | succ n ih =>
    refine ((h.step hsuits hruns hsignal).and hruns.promises_step).bind
      fun progress progress' hboth => ?_
    obtain ⟨htwin, hruns⟩ := hboth
    cases htwin with
    | taken h => exact h
    | passed h => exact ih h hruns

/-- A signal that is the same in the two spellings is taken in the same way. -/
theorem signal_plain (h : a.Twin b) (hsuits : ReaderSpelling.Suits config)
    (hreads : a.Reads outer text) (hsignal : ReaderSpelling.IsPlain signal) :
    Agree Twin (a.signal config signal) (b.signal config signal) := by
  unfold Automaton.signal
  rw [h.stepLimit_eq]
  exact h.deliver hsuits hreads.runs hsignal

/-- The same is delivered at the end of the text. -/
theorem finish (h : a.Twin b) (hsuits : ReaderSpelling.Suits config)
    (hreads : a.Reads outer text) :
    Agree (fun x y => x.1.Twin y.1) (a.finish config) (b.finish config) := by
  have hsignal : Agree Twin (a.signal config .endOfText) (b.signal config .endOfText) :=
    h.signal_plain hsuits hreads ReaderSpelling.isPlain_endOfText
  refine (hsignal.and (hreads.promises_signal _)).bind fun a' b' hboth => ?_
  obtain ⟨htwin, hdelivered⟩ := hboth
  have hstack : a'.stack = [] := hdelivered.2 rfl
  have hstack' := htwin.stack_eq_nil hstack
  have hunwind : a'.unwind config = .ok a' ∧ b'.unwind config = .ok b' := by
    unfold unwind
    rw [hstack, hstack']
    exact ⟨rfl, rfl⟩
  rw [hunwind.1, hunwind.2]
  have hleftover : Spelling.Respelled a'.leftover b'.leftover :=
    ReaderSpelling.leftover_respelled htwin.leftover
  have hempty : b'.leftover.isEmpty = a'.leftover.isEmpty := by
    rw [Bool.eq_iff_iff, String.isEmpty_iff, String.isEmpty_iff]
    exact Spelling.respelled_solid hleftover (by decide)
  have hrest : Tree.Twins
      (if a'.leftover.isEmpty then [] else [Tree.ofText .invalid a'.leftover])
      (if b'.leftover.isEmpty then [] else [Tree.ofText .invalid b'.leftover]) := by
    rw [hempty]
    split
    · exact .nil
    · exact .singleton (Tree.twin_ofText .invalid hleftover)
  have hd : Delivery.Twin (a'.delivered.getD {}) (b'.delivered.getD {}) := by
    rcases htwin.delivered.none_or_some with ⟨hnone, hnone'⟩ | ⟨_, _, hsome, hsome', hd⟩
    · rw [hnone, hnone']
      exact ⟨.nil, .none, .nil, .none, .none⟩
    · rw [hsome, hsome']
      exact hd
  exact { hd with trailing := hd.trailing.append hrest }

end Twin

/-- Automata that are twins are started, with a state that is its own twin. -/
theorem start_twin {root : Reader} (hroot : root.Twin root) :
    Agree (fun a b => a.Twin b ∧ a = { stack := [root] }) (start config root)
      (start config root) :=
  have htwin : Automaton.Twin {} {} := ⟨.nil, .nil, .none, ReaderSpelling.leftover_empty, rfl⟩
  htwin.push hroot

end Automaton

end ScriptTree
