import ScriptTree.Grammar.Root
import ScriptTree.Proofs.Blocks

/-!
# Every reading state keeps the text

A state at rest answers every signal, a state takes every delivery of a state that it hosts, and a
state that may end delivers its text. Nothing else is needed of the states in what follows.
-/

namespace ScriptTree

namespace RootReader

/-- Extras come last. -/
theorem Rests.pushExtras {r : RootReader} (h : r.Rests) (tokens : List Tree) :
    (r.pushExtras tokens).Rests :=
  ⟨by simp [RootReader.pushExtras, h.items]⟩

@[simp]
theorem text_pushExtras (r : RootReader) (tokens : List Tree) :
    (r.pushExtras tokens).text = r.text ++ Tree.textOfTokens tokens := by
  simp [pushExtras, text]

/-- A standalone expression opens states that begin with the signal. -/
theorem reacts_enter {config : Config} {signal : Signal} {r : RootReader} (h : r.Rests)
    (begun : Bool) {inner : Reader} (htext : inner.text = "")
    (htakes : Reader.Takes config signal 2 inner) (hchar : signal.toChar?.isSome) :
    Reader.Reacts config signal 4 (.root r)
      ⟨.root { r with begun }, .enter inner, {}⟩ := by
  refine .taken ⟨rfl, ⟨h.items⟩, ?_, htakes.mono (by omega)⟩ hchar
  rw [htext, String.append_empty]
  rfl

/-- A standalone expression answers every signal. -/
theorem answers {config : Config} {signal : Signal} {r : RootReader} (h : r.Rests) :
    Reader.Answers config signal (.root r) := by
  refine yields_ok.2 ?_
  have hsuits {start : TriviaStart} (h : TriviaStart.bracketed? signal = some start) :
      start.Suits signal ∧ signal.toChar?.isSome :=
    TriviaStart.suits_of_at? (show TriviaStart.at? true signal = some start from h)
  have habsorb (hchar : signal.toChar?.isSome) :
      Reader.Reacts config signal 4 (.root r) ⟨.root r, .absorb, {}⟩ :=
    .taken ⟨rfl, h, rfl⟩ hchar
  unfold onSignal
  split
  · rename_i signal _ _ t htrivia
    obtain ⟨htext, hchar⟩ := hsuits htrivia
    have hsignal : t.text = signal.text := htext
    exact .taken ⟨rfl, h.pushExtras [t], by simp [Reaction.map, hsignal]⟩ hchar
  · rename_i leaf htrivia
    obtain ⟨hbegins, hchar⟩ := hsuits htrivia
    exact reacts_enter h r.begun hbegins.text_eq ((Reader.takes_leaf hbegins).mono (by omega)) hchar
  · exact .left ⟨rfl, rfl, trivial, rfl, Nat.le_refl _⟩
  · split
    · rename_i hstart
      rw [Bool.and_eq_true] at hstart
      exact reacts_enter h true (by simp [ExpressionReader.text])
        (ExpressionReader.takes_of_canStart hstart.2) rfl
    · exact habsorb rfl
  · rename_i signal _ _ hend _ _
    refine habsorb ?_
    cases signal with
    | endOfText => exact absurd rfl hend
    | _ => rfl

/-- Only items have to stand after the expression of a statement. -/
theorem standsAfter_expression {role : Role}
    (h : Form.standsAfter .expressionStatement .expression role = true) : role = .item := by
  cases role with
  | slot other =>
    obtain ⟨hmem, place, otherPlace, hplace, hother, hlt⟩ := Form.standsAfter_slot h
    simp only [NodeKind.slots, List.mem_cons, List.not_mem_nil, or_false] at hmem
    subst hmem
    cases hplace
    cases hother
    omega
  | item => rfl
  | extra => cases h

/-- The expression comes last. -/
theorem onToken_yields {r : RootReader} (h : r.Rests) (token : Tree) :
    Yields (r.onToken token) fun r' => r'.Rests ∧ r'.text = r.text ++ token.text := by
  rw [onToken]
  split
  · exact yields_pure.2 ⟨h.pushExtras [token], by simp⟩
  · rename_i hfilled
    have happends : Form.Appends .expressionStatement .expression r.form := by
      intro entry hentry
      have hrole := Form.mem_roles hentry
      refine ⟨fun hslot => hfilled ?_, Bool.not_eq_true _ ▸ fun hafter => ?_⟩
      · have hfill : Form.isFilled .expression r.form = true :=
          List.any_eq_true.2 ⟨entry, hentry, by simp [hslot]⟩
        simp [hfill]
      · exact h.items (standsAfter_expression hafter ▸ hrole)
    rw [Form.place_of_appends token rfl happends]
    exact yields_pure.2 ⟨⟨by simp [h.items]⟩, by simp [text]⟩

/-- A standalone expression takes every delivery. -/
theorem onDelivery_yields {r : RootReader} (h : r.Rests) (d : Delivery) :
    Yields (r.onDelivery d) fun r' => r'.Rests ∧ r'.text = r.text ++ d.text := by
  have htoken : Yields ((r.pushExtras d.leading).onToken? d.token) fun r' =>
      r'.Rests ∧ r'.text = (r.pushExtras d.leading).text ++ Tree.textOfTokens d.token.toList := by
    cases d.token with
    | none => exact yields_ok.2 ⟨h.pushExtras _, by simp⟩
    | some token => simpa [onToken?] using onToken_yields (h.pushExtras _) token
  refine htoken.bind fun placed hplaced => ?_
  refine yields_pure.2 ⟨((hplaced.1.pushExtras _).pushExtras _).pushExtras _, ?_⟩
  cases hhandback : d.handback <;>
    simp [hplaced.2, Delivery.text, textHandedOn, textOfLine, hhandback, String.append_assoc]

end RootReader

namespace Reader

variable {config : Config} {signal : Signal}

/-- A state at rest answers every signal. -/
theorem Rests.answers {r : Reader} (h : r.Rests) : r.Answers config signal := by
  cases r with
  | leaf r => exact answers_leaf h
  | expression r => exact ExpressionReader.answers h
  | group r => exact GroupReader.answers h
  | sequence r => exact SequenceReader.answers h
  | block r => exact BlockReader.answers h
  | root r => exact RootReader.answers h

/-- A state takes every delivery of a state that it hosts. -/
theorem Hosts.onDelivery_yields {r : Reader} {layer : Layer} {d : Delivery} (h : r.Hosts layer)
    (hd : d.From layer) :
    Yields (r.onDelivery d) fun receipt =>
      receipt.Fits r.layer (r.text ++ d.text) (r.cost + d.credit layer) := by
  cases r with
  | leaf r => exact False.elim h
  | expression r => exact Yields.map (ExpressionReader.onDelivery_yields h hd) fun _ h => h
  | group r => exact Yields.map (GroupReader.onDelivery_yields h hd) fun _ h => h
  | sequence r => exact Yields.map (SequenceReader.onDelivery_yields h hd) fun _ h => h
  | block r => exact Yields.map (BlockReader.onDelivery_yields h hd) fun _ h => h
  | root r =>
    refine Yields.map (RootReader.onDelivery_yields h d) fun r' hr' => ?_
    exact ⟨rfl, hr'.1, by simp [hr'.2], Nat.le_add_right 1 _⟩

/-- A leaf is delivered on its own. -/
theorem finish_leaf {r : LeafReader} (h : r.IsWhole) :
    Delivery.From { token := r.token? } r.layer ∧
      ({ token := r.token? } : Delivery).text = r.text := by
  have hleaf := r.isLeaf_layer
  refine ⟨⟨.inl rfl, fun _ => ⟨rfl, rfl, rfl, rfl⟩,
    fun htrivia t ht => LeafReader.isTrivia_of_layer htrivia ht, ?_, ?_, ?_⟩, ?_⟩
  · intro hlayer
    rw [hlayer] at hleaf
    cases hleaf
  · intro mode hlayer
    rw [hlayer] at hleaf
    cases hleaf
  · intro houtermost
    cases hlayer : r.layer <;> rw [hlayer] at hleaf houtermost
    all_goals first | exact False.elim houtermost | cases hleaf
  · simp [Delivery.text, LeafReader.text_token? h]

/-- A state that may end delivers its text, unless nesting goes beyond a limit. -/
theorem Ends.finish_meets {limited : Prop} (hlimited : config.maxTraceFrames.isSome → limited)
    {r : Reader} (h : r.Ends) :
    Meets limited (r.finish config) fun d =>
      d.From r.layer ∧ d.text = r.text ∧ d.credit r.layer ≤ r.credit := by
  cases r with
  | leaf r =>
    obtain ⟨hfrom, htext⟩ := finish_leaf h
    have hcredit : Delivery.credit { token := r.token? } r.layer = 10 := if_pos r.isLeaf_layer
    exact ⟨hfrom, htext, Nat.le_of_eq hcredit⟩
  | expression r =>
    refine (ExpressionReader.finish_meets hlimited h).mono fun d hd => ?_
    exact ⟨hd.1, hd.2.1, Nat.le_of_eq (congrArg handbackCost hd.2.2)⟩
  | group r =>
    obtain ⟨hfrom, htext, hhandback⟩ := GroupReader.finish_eq h
    exact ⟨hfrom, htext, Nat.le_of_eq (congrArg handbackCost hhandback)⟩
  | sequence r =>
    obtain ⟨hfrom, htext, hhandback⟩ := SequenceReader.finish_eq h
    exact ⟨hfrom, htext, Nat.le_of_eq (congrArg handbackCost hhandback)⟩
  | block r =>
    obtain ⟨hfrom, htext, hhandback⟩ := BlockReader.finish_eq h
    exact ⟨hfrom, htext, Nat.le_of_eq (congrArg handbackCost hhandback)⟩
  | root r =>
    refine ⟨⟨.inl rfl, nofun, nofun, nofun, nofun, fun _ => ⟨rfl, rfl, _, _, rfl⟩⟩, ?_,
      Nat.le_refl _⟩
    simp [RootReader.finish, Delivery.text, RootReader.text]

end Reader

end ScriptTree
