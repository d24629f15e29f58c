import ScriptTree.Parse.Automaton
import ScriptTree.Proofs.Spellings.Blocks
import ScriptTree.Proofs.Spellings.Groups

/-!
# Reading states of the two spellings are read alike

A signal that is the same in the two spellings meets with the same reactions. What a state
delivers, and how the state around it takes that, is the same as well.
-/

namespace ScriptTree

variable [ReaderSpelling]

namespace RootReader.Twin

variable {r r' : RootReader} {token token' : Tree} {ts ts' : List Tree}

theorem pushExtras (h : r.Twin r') (hts : Tree.Twins ts ts') :
    (r.pushExtras ts).Twin (r'.pushExtras ts') :=
  { h with form := h.form.append (Form.twin_extras hts) }

/-- The same signal meets with the same reaction. -/
theorem onSignal (h : r.Twin r') (signal : Signal) :
    Reaction.Twin Twin (r.onSignal signal) (r'.onSignal signal) := by
  unfold RootReader.onSignal
  split
  · exact ⟨h.pushExtras (.singleton (.refl _)), .accept, rfl⟩
  · rename_i leaf hleaf
    exact ⟨h, .enter (TriviaStart.twin_of_bracketed? hleaf), rfl⟩
  · exact ⟨h, .complete, rfl⟩
  · rw [h.begun]
    split
    · exact ⟨{ h with begun := rfl }, .enter (.expression (ExpressionReader.twin_start _)), rfl⟩
    · exact ⟨h, .absorb, rfl⟩
  · exact ⟨h, .absorb, rfl⟩

theorem onToken (h : r.Twin r') (ht : token.Twin token') :
    Agree Twin (r.onToken token) (r'.onToken token') := by
  unfold RootReader.onToken
  rw [ht.isTrivia_eq, ht.isInvalid_eq, h.form.isFilled_eq]
  split
  · exact h.pushExtras (.singleton ht)
  · exact (h.form.place rfl .expression ht).bind fun _ _ hform => { h with form := hform }

/-- The same delivery meets with the same receipt. -/
theorem onDelivery (h : r.Twin r') {d d' : Delivery} (hd : d.Twin d') :
    Agree Twin (r.onDelivery d) (r'.onDelivery d') := by
  have hleading := h.pushExtras hd.leading
  have htoken : Agree Twin ((r.pushExtras d.leading).onToken? d.token)
      ((r'.pushExtras d'.leading).onToken? d'.token) := by
    rcases hd.token.none_or_some with ⟨hnone, hnone'⟩ | ⟨_, _, hsome, hsome', ht⟩
    · rw [hnone, hnone']
      exact hleading
    · rw [hsome, hsome']
      exact hleading.onToken ht
  refine htoken.bind fun placed placed' hplaced => ?_
  have hhandback := hd.handback.map fun _ _ ht => ht.invalidated
  have hindent : Option.Rel Tree.Twin (d.line.bind LineStart.indent)
      (d'.line.bind LineStart.indent) :=
    hd.line.bind fun _ _ hline => hline.indent
  exact ((hplaced.pushExtras hd.trailing).pushExtras (Aligned.toList hhandback)).pushExtras
    (Aligned.toList hindent)

end RootReader.Twin

namespace Reader

variable {r r' : Reader} {config : Config} {signal : Signal}

/-- The same signal meets with the same reaction. -/
theorem Twin.onSignal (h : r.Twin r') (hsuits : ReaderSpelling.Suits config)
    (hsignal : ReaderSpelling.IsPlain signal) :
    Agree (Reaction.Twin Twin) (r.onSignal config signal) (r'.onSignal config signal) := by
  cases h with
  | leaf h =>
    obtain ⟨hfed, hverdict⟩ := ReaderSpelling.leafTwin_feed h hsignal
    simp only [Reader.onSignal, hverdict, ReaderSpelling.isCutShort_eq h]
    refine ⟨.leaf hfed, ?_, rfl⟩
    cases (LeafReader.feed _ signal).2
    · exact .accept
    · exact .acceptAndComplete
    · exact .complete
  | expression h => exact (h.onSignal signal).map fun _ _ => .expression
  | group h => exact (h.onSignal signal).map fun _ _ hr => hr.map fun _ _ => .group
  | sequence h => exact (h.onSignal signal).map fun _ _ hr => hr.map fun _ _ => .sequence
  | block h => exact (h.onSignal hsuits signal).map fun _ _ => .block
  | root h => exact (h.onSignal signal).map fun _ _ => .root

/-- Whether a state waits for the white space of a line. -/
def AwaitsIndent : Reader → Prop
  | .block r => r.goal = .indent
  | _ => False

/-- The same delivery meets with the same receipt, where the white space of a line is measured alike. -/
theorem Twin.onDelivery (h : r.Twin r') {d d' : Delivery} (hd : d.Twin d')
    (hindent : r.AwaitsIndent →
      Option.Rel (Tree.SameLevel ReaderSpelling.Suits) d.token d'.token) :
    Agree (Receipt.Twin Twin) (r.onDelivery d) (r'.onDelivery d') := by
  cases h with
  | leaf h => exact ⟨.leaf h, .nil, rfl⟩
  | expression h => exact (h.onDelivery hd).map fun _ _ hr => hr.map fun _ _ => .expression
  | group h => exact (h.onDelivery hd).map fun _ _ hr => Receipt.twin_state (.group hr)
  | sequence h => exact (h.onDelivery hd).map fun _ _ hr => hr.map fun _ _ => .sequence
  | block h => exact (h.onDelivery hd hindent).map fun _ _ hr => hr.map fun _ _ => .block
  | root h => exact (h.onDelivery hd).map fun _ _ hr => Receipt.twin_state (.root hr)

/-- The same is delivered. -/
theorem Twin.finish (h : r.Twin r') :
    Agree Delivery.Twin (r.finish config) (r'.finish config) := by
  cases h with
  | leaf h => exact ⟨.nil, ReaderSpelling.token?_twin h, .nil, .none, .none⟩
  | expression h => exact h.finish config.maxTraceFrames
  | group h => exact h.finish
  | sequence h => exact h.finish
  | block h => exact h.finish
  | root h => exact ⟨.nil, .some (Tree.twin_ofForm _ h.form), .nil, .none, .none⟩

end Reader

end ScriptTree
