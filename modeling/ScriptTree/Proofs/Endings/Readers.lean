import ScriptTree.Proofs.Endings.Expressions
import ScriptTree.Proofs.Structure.Readers

/-!
# Every reading state stays neat

A group and a production hand the trivia behind their last part to the state around them, and so
does a list. Only an entry of a dictionary keeps them while its value may come. The lines before a
further branch of a chain go to the end of the chain; then the branch comes, because a production is
open for it.
-/

namespace ScriptTree

namespace Form

variable {form : List Entry} {slot : Slot} {t : Tree}

/-- The occupant of a slot is no trivia. -/
theorem Neat.occupant? (h : Neat form) (ht : occupant? slot form = some t) :
    t.Trimmed ∧ t.isTrivia = false := by
  obtain ⟨⟨role, t⟩, hentry, rfl⟩ := Option.map_eq_some_iff.1 ht
  have hmem := List.mem_of_find?_eq_some hentry
  have hrole : role = .slot slot := by simpa using List.find?_some hentry
  exact ⟨h.trimmed _ hmem, h.placed _ hmem (by simp [hrole])⟩

theorem Itemless.filter (h : Itemless form) (keep : Entry → Bool) : Itemless (form.filter keep) := by
  have hsublist := List.filter_sublist (p := keep) (l := form)
  exact ⟨⟨fun entry hentry => h.trimmed entry (hsublist.subset hentry),
    fun entry hentry => h.placed entry (hsublist.subset hentry)⟩,
    fun hitem => h.item ((hsublist.map Prod.fst).subset hitem)⟩

/-- What is left when trailing extras are split off has no items either. -/
theorem Itemless.splitTrailing (h : Itemless form) : Itemless (Form.splitTrailing form).1 :=
  ⟨h.toNeat.splitTrailing.1, fun hitem => h.item (roles_splitTrailing_subset form hitem)⟩

end Form

/-! ### Groups -/

namespace GroupReader

variable {r : GroupReader} {form : List Entry} {tokens : List Tree} {t : Tree}

theorem Neat.setForm (h : r.Neat) (hform : Form.Neat form) (expected : GroupExpectation) :
    ({ r with form, expected } : GroupReader).Neat :=
  { h with form := hform }

theorem Neat.setEntry (h : r.Neat) {entry : List Entry} (hentry : Form.Waits entry)
    (expected : GroupExpectation) :
    ({ r with entry := some entry, expected } : GroupReader).Neat :=
  { h with entry := fun _ heq => Option.mem_some_iff.1 heq ▸ hentry }

theorem Neat.setGoal (h : r.Neat) (goal : GroupGoal) : ({ r with goal } : GroupReader).Neat :=
  { h with }

/-- A form with a further item. -/
theorem neat_append_item (h : Form.Neat form) (ht : t.Trimmed) (hplaced : t.isTrivia = false) :
    Form.Neat (form ++ [(.item, t)]) :=
  Form.neat_append.2 ⟨h, Form.neat_singleton ht fun _ => hplaced⟩

/-- The open entry is closed as an item. -/
theorem Neat.sealedForm (h : r.Neat) : Form.Neat r.sealedForm := by
  unfold GroupReader.sealedForm
  split
  · rename_i entry hentry
    exact neat_append_item h.form (h.entry entry hentry).trimmed_ofForm rfl
  · exact h.form

theorem Neat.sealEntry (h : r.Neat) : r.sealEntry.Neat :=
  { h with
    form := h.sealedForm
    entry := fun _ heq => by cases heq }

theorem Neat.pushExtras (h : r.Neat) (htokens : ∀ t ∈ tokens, t.Trimmed) :
    (r.pushExtras tokens).Neat := by
  unfold GroupReader.pushExtras
  split
  · rename_i entry hentry
    exact h.setEntry ((h.entry entry hentry).extras htokens) _
  · exact h.setForm (h.form.extras htokens) _

theorem Neat.pushExtra (h : r.Neat) (ht : t.Trimmed) : (r.pushExtras [t]).Neat :=
  h.pushExtras (by simpa using ht)

/-- An item has its place in every group. -/
theorem Neat.placeItem (h : r.Neat) (ht : t.Trimmed) (hplaced : t.isTrivia = false) :
    Promises (r.placeItem t) Neat := by
  have hinner : Promises (r.placeInner t) Neat :=
    (h.form.place ht hplaced).bind fun _ hform => promises_pure.2 (h.setForm hform _)
  have hkey : Promises (r.placeKey t) Neat := by
    unfold GroupReader.placeKey
    refine (promises_true _).bind fun _ _ => ?_
    refine (Form.waits_nil.place ht hplaced (by simp)).bind fun _ hentry => ?_
    exact promises_pure.2 (h.sealEntry.setEntry hentry _)
  have helement : Promises (r.placeElement t) Neat :=
    (h.form.addItem ht hplaced).bind fun _ hform => promises_pure.2 (h.setForm hform _)
  unfold GroupReader.placeItem
  split
  · exact hinner
  · exact hinner
  · exact hkey
  · exact helement

/-- A value completes the open entry, which then ends with it. -/
theorem Neat.placeValue (h : r.Neat) (ht : t.Trimmed) (hplaced : t.isTrivia = false) :
    Promises (r.placeValue t) Neat := by
  unfold GroupReader.placeValue
  split
  · rename_i entry hentry
    refine ((h.entry entry hentry).place_value ht hplaced).bind fun entry hentry =>
      promises_pure.2 ?_
    exact { h with
      form := neat_append_item h.form hentry rfl
      entry := fun _ heq => by cases heq }
  · exact (h.form.addItem ht hplaced).bind fun _ hform => promises_pure.2 { h with form := hform }

theorem Neat.reject (h : r.Neat) (ht : t.Trimmed) : (r.reject t).Neat := by
  unfold GroupReader.reject
  split
  · exact { h with handback := fun _ heq => Option.mem_some_iff.1 heq ▸ ht }
  · exact h.pushExtra ht.invalidated

/-- What a neat group answers to a signal. -/
abbrev AnswersNeat (reaction : Reaction GroupReader) : Prop :=
  (reaction.map .group).Neat

/-- A state is opened for an item or a value. -/
theorem Neat.answers_item (h : r.Neat) (goal : GroupGoal) :
    AnswersNeat ⟨{ r with goal }, .enter r.itemReader, {}⟩ := by
  refine ⟨h.setGoal goal, fun inner heq => Step.enter.inj heq ▸ ?_⟩
  unfold GroupReader.itemReader
  split
  · exact SequenceReader.neat_start _ _ _
  · exact SequenceReader.neat_start _ _ _
  · exact ExpressionReader.neat_start _

/-- The signal is handled without a state being opened. -/
theorem Neat.answers (h : r.Neat) {step : Step} (hstep : ∀ inner, step ≠ .enter inner)
    (notices : Notices) : AnswersNeat ⟨r, step, notices⟩ :=
  ⟨h, fun inner heq => absurd heq (hstep inner)⟩

/-- A character that does not close the group. -/
theorem Neat.onInnerChar (h : r.Neat) (c : Char) : Promises (r.onInnerChar c) AnswersNeat := by
  unfold GroupReader.onInnerChar
  split
  · have hcomma : Form.Neat (r.sealEntry.form ++ [(.extra, .ofPunct .comma)]) :=
      Form.neat_append.2
        ⟨h.sealEntry.form, Form.neat_singleton (Tree.trimmed_ofPunct _) (by simp)⟩
    exact promises_pure.2 ((h.sealEntry.setForm hcomma _).answers (by simp) _)
  · split
    · split
      · exact promises_pure.2 (h.answers (by simp) _)
      · rename_i entry hentry
        refine ((h.entry entry hentry).place (Tree.trimmed_ofPunct _) rfl (by simp)).bind
          fun _ hentry => ?_
        exact promises_pure.2 ((h.setEntry hentry _).answers (by simp) _)
    · split
      · exact promises_pure.2 (h.answers_item _)
      · split
        · exact promises_pure.2 (h.answers_item _)
        · refine promises_pure.2 (h.answers (fun inner => ?_) _)
          split <;> simp

/-- Every signal leaves the group neat. -/
theorem Neat.onSignal (h : r.Neat) (signal : Signal) : Promises (r.onSignal signal) AnswersNeat := by
  have hchar (c : Char) : Promises (r.onChar c) AnswersNeat := by
    unfold GroupReader.onChar
    split
    · split
      · refine (h.sealEntry.form.place (Tree.trimmed_ofPunct _) rfl).bind fun form hform => ?_
        have hclosed : ({ r.sealEntry with form } : GroupReader).Neat :=
          { h.sealEntry with form := hform }
        exact promises_pure.2 (hclosed.answers (by simp) _)
      · exact h.onInnerChar c
    · exact h.onInnerChar c
  unfold GroupReader.onSignal
  split
  · exact promises_pure.2 (h.answers (by simp) _)
  · split
    · split
      · refine (h.form.place (Tree.trimmed_ofPunct _) rfl).bind fun form hform => ?_
        have hopened : ({ r with form, opened := true } : GroupReader).Neat :=
          { h with form := hform }
        exact promises_pure.2 (hopened.answers (by simp) _)
      · have hopened : ({ r with opened := true } : GroupReader).Neat := { h with }
        exact promises_pure.2 (hopened.answers (by simp) _)
    · split
      · rename_i t htrivia
        exact promises_pure.2
          ((h.pushExtra (ExpressionReader.trimmed_of_at? htrivia)).answers (by simp) _)
      · exact promises_pure.2 ⟨h.setGoal _, fun inner heq => Step.enter.inj heq ▸ trivial⟩
      · exact hchar _
      · exact promises_pure.2 (h.answers (by simp) _)
      · exact promises_pure.2 (h.answers (by simp) _)

/-- The token that a state was opened for. -/
theorem Neat.onToken (h : r.Neat) (goal : GroupGoal) (ht : t.Trimmed) :
    Promises (r.onToken goal t) Neat := by
  unfold GroupReader.onToken
  split
  · exact promises_pure.2 (h.pushExtra ht)
  · rename_i hextra
    rw [Bool.not_eq_true, Bool.or_eq_false_iff] at hextra
    cases goal with
    | trivia => exact promises_pure.2 (h.pushExtra ht)
    | item => exact h.placeItem ht hextra.1
    | value =>
      exact (h.placeValue ht hextra.1).bind fun _ hr => promises_pure.2 { hr with }

/-- A token that a state inside could not place. -/
theorem Neat.onHandback (h : r.Neat) (ht : t.Trimmed) : Promises (r.onHandback t) Neat := by
  unfold GroupReader.onHandback
  split
  · rename_i entry hentry
    split
    · rename_i hassign
      have hplaced : t.isTrivia = false := by simp [Tree.isTrivia, hassign.1, LeafKind.isTrivia]
      refine ((h.entry entry hentry).place ht hplaced (by simp)).bind fun _ hentry => ?_
      exact promises_pure.2 (h.setEntry hentry _)
    · exact promises_pure.2 (h.reject ht)
  · exact promises_pure.2 (h.reject ht)

theorem Neat.onLine (h : r.Neat) {line : LineStart} (hline : line.Neat) : (r.onLine line).Neat := by
  unfold GroupReader.onLine
  split
  · exact { h with line := fun _ heq => Option.mem_some_iff.1 heq ▸ hline }
  · refine h.pushExtras fun t ht => ?_
    obtain ⟨indent, hindent, rfl⟩ := Option.map_eq_some_iff.1 (Option.mem_toList.1 ht)
    exact (hline indent hindent).withLeafKind _

/-- Every delivery leaves the group neat. -/
theorem Neat.onDelivery (h : r.Neat) {d : Delivery} (hd : d.Neat) :
    Promises (r.onDelivery d) Neat := by
  have hleading := (h.setGoal .trivia).pushExtras hd.leading
  have htoken : Promises
      (({ r with goal := .trivia }.pushExtras d.leading).onToken? r.goal d.token) Neat := by
    cases htoken : d.token with
    | none => exact promises_ok.2 hleading
    | some t => exact hleading.onToken _ (hd.token t htoken)
  refine htoken.bind fun placed hplaced => ?_
  have htrailing := hplaced.pushExtras hd.trailing
  have hhandback : Promises ((placed.pushExtras d.trailing).onHandback? d.handback) Neat := by
    cases hhandback : d.handback with
    | none => exact promises_ok.2 htrailing
    | some t => exact htrailing.onHandback (hd.handback t hhandback)
  refine hhandback.bind fun handed hhanded => promises_pure.2 ?_
  cases hline : d.line with
  | none => exact hhanded
  | some line => exact hhanded.onLine (hd.line line hline)

/-- What the group delivers. -/
theorem Neat.finish (h : r.Neat) : r.finish.Neat where
  leading := fun _ ht => by cases ht
  token t ht := by
    obtain rfl := Option.mem_some_iff.1 ht
    exact h.sealedForm.trimmed_splitTrailing fun hkind => by cases hgroup : r.kind <;>
      rw [hgroup] at hkind <;> cases hkind
  trailing := h.sealedForm.splitTrailing.2
  handback := h.handback
  line := h.line

end GroupReader

/-! ### Productions -/

namespace SequenceReader

variable {r : SequenceReader} {form : List Entry} {tokens : List Tree} {t : Tree} {part : Part}
  {rest : List Part}

theorem Neat.setForm (h : r.Neat) (hform : Form.Itemless form) (remaining : List Part) :
    ({ r with form, remaining } : SequenceReader).Neat :=
  { h with form := hform }

theorem Neat.setActive (h : r.Neat) (active : Option (Part × List Part)) :
    ({ r with active } : SequenceReader).Neat :=
  { h with }

theorem Neat.pushExtras (h : r.Neat) (htokens : ∀ t ∈ tokens, t.Trimmed) :
    (r.pushExtras tokens).Neat :=
  h.setForm (h.form.extras htokens) _

theorem Neat.pushExtra (h : r.Neat) (ht : t.Trimmed) : (r.pushExtras [t]).Neat :=
  h.pushExtras (by simpa using ht)

/-- A token that fills a part is no trivia. -/
theorem isTrivia_of_fills {shape : Shape} (h : fills t shape = true) : t.isTrivia = false := by
  cases shape with
  | keyword words =>
    obtain ⟨kw, hkw, -⟩ := (Option.any_eq_true _ _).1 h
    exact Tree.isTrivia_of_keyword? hkw
  | contextual text =>
    rw [fills, Bool.and_eq_true, beq_iff_eq] at h
    simp [Tree.isTrivia, h.1, LeafKind.isTrivia]
  | name | punct | operator => simp [Tree.isTrivia, beq_iff_eq.1 h, LeafKind.isTrivia]
  | expression | group | block => cases h

/-- A word that begins an expression is no trivia. -/
theorem isTrivia_of_canStartWith {ctx : Context} (h : ctx.canStartWith t = true) :
    t.isTrivia = false := by
  unfold Context.canStartWith at h
  split at h
  · rename_i hkind
    simp [Tree.isTrivia, hkind, LeafKind.isTrivia]
  · rename_i hkind
    simp [Tree.isTrivia, hkind, LeafKind.isTrivia]
  · cases h

/-- What a neat production makes of a token. -/
abbrev ContinuesNeat (receipt : Receipt SequenceReader) : Prop :=
  (receipt.map .sequence).Neat

/-- A production that opens no state. -/
theorem Neat.continues (h : r.Neat) : ContinuesNeat { state := r } :=
  Receipt.neat_of_state h (by simp [Receipt.map])

/-- A production is neat whatever states it opens. -/
theorem state_of_continuesNeat {receipt : Receipt SequenceReader} (h : ContinuesNeat receipt) :
    receipt.state.Neat := by
  cases h.around with
  | neat h => exact h

/-- A part takes a token as it is, or as the first word of an expression. -/
theorem Neat.offer? (h : r.Neat) (ht : t.Trimmed) (parts : List Part) :
    Promises (r.offer? t parts) fun receipt? => ∀ receipt ∈ receipt?, ContinuesNeat receipt := by
  refine SequenceReader.offer?_promises (fun part rest hfills => ?_)
    (fun part rest role _ hstarts => ?_) parts
  · exact (h.form.place ht (isTrivia_of_fills hfills)).mono fun _ hform =>
      (h.setForm hform rest).continues
  · have hseeded : Promises (ExpressionReader.seeded (r.context role) t)
        ExpressionReader.ContinuesNeat :=
      (ExpressionReader.neat_start _).onWord ht (isTrivia_of_canStartWith hstarts)
    have hactive : ({ r with active := some (part, rest), remaining := part :: rest } :
        SequenceReader).Neat := { h with }
    refine hseeded.mono fun seeded hseeded => ?_
    have hexpression : seeded.state.Neat := by
      cases hseeded.around with
      | neat h => exact h
    exact Receipt.neat_of_state (show Reader.Neat (.sequence _) from hactive)
      (List.forall_mem_cons.2 ⟨show Reader.NeatOpened (.expression _) from hexpression,
        hseeded.opened⟩)

/-- A token that was read before the production was chosen. -/
theorem Neat.seed (h : r.Neat) (ht : t.Trimmed) : Promises (r.seed t) ContinuesNeat := by
  unfold SequenceReader.seed
  split
  · exact promises_pure.2 (h.pushExtra ht).continues
  · refine (h.offer? ht _).bind fun receipt? hreceipt? => promises_pure.2 ?_
    cases receipt? with
    | none => exact (h.pushExtra ht.invalidated).continues
    | some receipt => exact hreceipt? receipt rfl

/-- The colon of a variable may become the one that announces accessors. -/
theorem Neat.beforePart (h : r.Neat) (signal : Signal) : Promises (r.beforePart signal) Neat := by
  unfold SequenceReader.beforePart
  split
  · unfold SequenceReader.retargetColon
    dsimp only
    split
    · exact promises_pure.2 h
    · rename_i colon hcolon
      split
      · exact promises_pure.2 h
      · obtain ⟨ht, hplaced⟩ := h.form.toNeat.occupant? hcolon
        have htrailing := h.form.toNeat.splitTrailing.2
        refine ((h.form.splitTrailing.filter _).place ht hplaced).bind fun form hform =>
          promises_pure.2 ?_
        exact h.setForm (hform.extras htrailing) _
  · exact promises_ok.2 h

/-- What a neat production answers to a signal. -/
abbrev AnswersNeat (reaction : Reaction SequenceReader) : Prop :=
  (reaction.map .sequence).Neat

/-- The signal is handled without a state being opened. -/
theorem Neat.answers (h : r.Neat) {step : Step} (hstep : ∀ inner, step ≠ .enter inner)
    (notices : Notices) : AnswersNeat ⟨r, step, notices⟩ :=
  ⟨h, fun inner heq => absurd heq (hstep inner)⟩

/-- The state for a part is neat. -/
theorem neat_partReader? {shape : Shape} {signal : Signal} {inner : Reader}
    (h : r.partReader? shape signal = some inner) : inner.NeatInner := by
  unfold SequenceReader.partReader? at h
  split at h
  case h_9 =>
    split at h <;> cases h <;> exact BlockReader.neat_start _ _ _ _
  all_goals cases h
  all_goals first
    | trivial
    | exact ExpressionReader.neat_start _
    | exact GroupReader.neat_start _ _

/-- A part is begun. -/
theorem Neat.startPart (h : r.Neat) (part : Part) (rest : List Part) (signal : Signal) :
    Promises (r.startPart part rest signal) AnswersNeat := by
  unfold SequenceReader.startPart
  split
  · refine (h.form.place (Tree.trimmed_ofPunct _) rfl).bind fun form hform => promises_pure.2 ?_
    have hnext : ({ r with active := none, form, remaining := rest } : SequenceReader).Neat :=
      { h with form := hform }
    exact hnext.answers (by simp) _
  · split
    · rename_i reader hreader
      exact promises_pure.2
        ⟨h.setActive _, fun inner heq => Step.enter.inj heq ▸ neat_partReader? hreader⟩
    · exact promises_pure.2 (h.answers (by simp) _)

/-- Every signal leaves the production neat. -/
theorem Neat.onSignal (h : r.Neat) (signal : Signal) : Promises (r.onSignal signal) AnswersNeat := by
  unfold SequenceReader.onSignal
  split
  · exact promises_pure.2 (h.answers (by simp) _)
  · split
    · exact promises_pure.2 ⟨h.setActive _, fun inner heq => Step.enter.inj heq ▸ trivial⟩
    · split
      · exact promises_pure.2 (h.answers (by simp) _)
      · refine (h.beforePart signal).bind fun r hr => ?_
        split
        · exact hr.startPart _ _ signal
        · exact promises_pure.2 (hr.answers (by simp) _)

theorem Neat.handBack (h : r.Neat) (ht : t.Trimmed) : (r.handBack t).Neat := by
  unfold SequenceReader.handBack
  dsimp only
  split
  · rename_i earlier hearlier
    have hlost := h.pushExtra (h.handback earlier hearlier).invalidated
    exact { hlost with handback := fun _ heq => Option.mem_some_iff.1 heq ▸ ht }
  · exact { h with handback := fun _ heq => Option.mem_some_iff.1 heq ▸ ht }

/-- A token is offered to parts, or handed back. -/
theorem Neat.offerOrHandBack (h : r.Neat) (ht : t.Trimmed) (parts : List Part) :
    Promises (do return (← r.offer? t parts).getD { state := r.handBack t }) ContinuesNeat := by
  refine (h.offer? ht parts).bind fun receipt? hreceipt? => promises_pure.2 ?_
  cases receipt? with
  | none => exact (h.handBack ht).continues
  | some receipt => exact hreceipt? receipt rfl

/-- The token that a state was opened for. -/
theorem Neat.onToken (h : r.Neat) (active : Option (Part × List Part)) (ht : t.Trimmed) :
    Promises (r.onToken active t) ContinuesNeat := by
  unfold SequenceReader.onToken
  split
  · exact promises_pure.2 (h.pushExtra ht).continues
  · rename_i hextra
    rw [Bool.not_eq_true, Bool.or_eq_false_iff] at hextra
    split
    · exact promises_pure.2 (h.pushExtra ht).continues
    · split
      · exact h.offerOrHandBack ht _
      · exact (h.form.place ht hextra.1).bind fun _ hform =>
          promises_pure.2 (h.setForm hform _).continues

/-- Every delivery leaves the production neat. -/
theorem Neat.onDelivery (h : r.Neat) {d : Delivery} (hd : d.Neat) :
    Promises (r.onDelivery d) ContinuesNeat := by
  have hleading := (h.setActive none).pushExtras hd.leading
  have hfirst : Promises
      (({ r with active := none }.pushExtras d.leading).onToken? r.active d.token) ContinuesNeat := by
    cases htoken : d.token with
    | some t => exact hleading.onToken _ (hd.token t htoken)
    | none =>
      cases hactive : r.active with
      | none => exact promises_ok.2 hleading.continues
      | some active => exact promises_ok.2 (hleading.setForm hleading.form _).continues
  refine hfirst.bind fun first hfirst => ?_
  have htrailing := (state_of_continuesNeat hfirst).pushExtras hd.trailing
  have hsecond : Promises ((first.state.pushExtras d.trailing).onHandback? d.handback)
      ContinuesNeat := by
    cases hhandback : d.handback with
    | none => exact promises_ok.2 htrailing.continues
    | some t =>
      have ht := hd.handback t hhandback
      unfold SequenceReader.onHandback? SequenceReader.onHandback
      dsimp only
      split
      · exact promises_pure.2 (htrailing.handBack ht).continues
      · exact htrailing.offerOrHandBack ht _
  refine hsecond.bind fun second hsecond => promises_pure.2 ?_
  have hstate := state_of_continuesNeat hsecond
  have hlast : (second.state.onLine? d.line).Neat := by
    cases hline : d.line with
    | none => exact hstate
    | some line =>
      exact { hstate with line := fun _ heq => Option.mem_some_iff.1 heq ▸ hd.line line hline }
  refine Receipt.neat_of_state hlast fun inner hinner => ?_
  exact (List.mem_append.1 hinner).elim (hfirst.opened inner) (hsecond.opened inner)

/-- What the production delivers. -/
theorem Neat.finish (h : r.Neat) : r.finish.Neat where
  leading := fun _ ht => by cases ht
  token t ht := by
    obtain rfl := Option.mem_some_iff.1 ht
    exact h.form.toNeat.trimmed_splitTrailing fun _ => h.form.item
  trailing := h.form.toNeat.splitTrailing.2
  handback := h.handback
  line := h.line

end SequenceReader

/-! ### Lists -/

namespace BlockReader

variable {r : BlockReader} {form : List Entry} {tokens : List Tree} {t word : Tree}
  {config : Config} {signal : Signal}

theorem Neat.setPhase (h : r.Neat) (phase : BlockPhase) : ({ r with phase } : BlockReader).Neat :=
  { h with }

theorem Neat.setGoal (h : r.Neat) (goal : BlockGoal) : ({ r with goal } : BlockReader).Neat :=
  { h with }

theorem Neat.setIndent (h : r.Neat) {indent : Option Tree} (hindent : ∀ t ∈ indent, t.Trimmed) :
    ({ r with indent } : BlockReader).Neat :=
  { h with indent := hindent }

theorem Neat.setHeld (h : r.Neat) {held : List Tree} (hheld : ∀ t ∈ held, t.Trimmed) :
    ({ r with held } : BlockReader).Neat :=
  { h with held := hheld }

theorem Neat.setForm (h : r.Neat) (hform : Form.Neat form) :
    ({ r with form } : BlockReader).Neat :=
  { h with form := hform }

theorem Neat.pushExtras (h : r.Neat) (htokens : ∀ t ∈ tokens, t.Trimmed) :
    (r.pushExtras tokens).Neat :=
  h.setForm (h.form.extras htokens)

theorem Neat.pushExtra (h : r.Neat) (ht : t.Trimmed) : (r.pushExtras [t]).Neat :=
  h.pushExtras (by simpa using ht)

theorem Neat.releaseHeld (h : r.Neat) : r.releaseHeld.Neat := by
  refine (h.setHeld (by simp)).pushExtras fun released hreleased => ?_
  obtain ⟨t, ht, rfl⟩ := List.mem_map.1 hreleased
  unfold releasedToken
  split
  · exact h.held t ht
  · exact (h.held t ht).invalidated

/-- Trivia stay with a held token if there is one. -/
theorem Neat.placeTrivia (h : r.Neat) (htokens : ∀ t ∈ tokens, t.Trimmed) :
    (r.placeTrivia tokens).Neat := by
  unfold BlockReader.placeTrivia
  split
  · exact h.pushExtras htokens
  · exact h.setHeld (List.forall_mem_append.2 ⟨h.held, htokens⟩)

theorem Neat.placeIndent (h : r.Neat) (isInvalid : Bool) : (r.placeIndent isInvalid).Neat := by
  refine (h.setIndent (by simp)).pushExtras fun t ht => ?_
  obtain ⟨indent, hindent, rfl⟩ := Option.map_eq_some_iff.1 (Option.mem_toList.1 ht)
  split
  · exact (h.indent indent hindent).invalidated
  · exact h.indent indent hindent

theorem Neat.dedent (h : r.Neat) {line : LineStart} (hline : line.Neat) : (r.dedent line).Neat :=
  { h with line := fun _ heq => Option.mem_some_iff.1 heq ▸ hline }

theorem Neat.beginLine (h : r.Neat) (level : IndentLevel) : (r.beginLine level).Neat :=
  { h.placeIndent _ with }

/-- What a neat list answers to a signal. -/
abbrev AnswersNeat (reaction : Reaction BlockReader) : Prop :=
  (reaction.map .block).Neat

/-- The signal is handled without a state being opened. -/
theorem Neat.answers (h : r.Neat) {step : Step} (hstep : ∀ inner, step ≠ .enter inner)
    (notices : Notices) : AnswersNeat ⟨r, step, notices⟩ :=
  ⟨h, fun inner heq => absurd heq (hstep inner)⟩

theorem Neat.answers_complete (h : r.Neat) (notices : Notices) :
    AnswersNeat ⟨r, .complete, notices⟩ :=
  h.answers (by simp) notices

theorem Neat.answers_takeExtra (h : r.Neat) (kind : LeafKind) {text : String} (htext : text ≠ "") :
    AnswersNeat (r.takeExtra kind text) :=
  (h.pushExtra (Tree.trimmed_ofText kind htext)).answers (by simp) _

theorem Neat.answers_enter (h : r.Neat) (goal : BlockGoal) {inner : Reader}
    (hinner : inner.NeatInner) : AnswersNeat (r.enter goal inner) :=
  ⟨h.setGoal goal, fun _ heq => Step.enter.inj heq ▸ hinner⟩

theorem Neat.answers_enterTrivia (h : r.Neat) (leaf : LeafReader) :
    AnswersNeat (r.enterTrivia leaf) :=
  h.answers_enter .trivia trivial

theorem Neat.answers_absorb (h : r.Neat) : AnswersNeat r.absorb :=
  (h.setGoal .trivia).answers (by simp) _

/-- A signal on the rest of the line that announces the list. -/
theorem Neat.onHeader (h : r.Neat) (signal : Signal) : AnswersNeat (r.onHeader signal) := by
  unfold BlockReader.onHeader
  split
  · exact (h.setPhase .lineStart).answers_takeExtra _ (by decide)
  · exact h.answers_takeExtra _ (by decide)
  · exact h.answers_enterTrivia _
  · exact h.answers_complete _
  · split
    · exact h.answers_enterTrivia _
    · exact h.answers_absorb

/-- A signal after the last item of a line. -/
theorem Neat.onAfterItem (h : r.Neat) (signal : Signal) : AnswersNeat (r.onAfterItem signal) := by
  unfold BlockReader.onAfterItem
  split
  · exact h.answers_enterTrivia _
  · dsimp only
    split
    · exact ((h.setPhase .itemStart).pushExtra (Tree.trimmed_ofPunct _)).answers (by simp) _
    · split
      · exact h.answers_complete _
      · split
        · exact (h.setPhase .lineStart).answers_takeExtra _ (by decide)
        · exact h.answers_takeExtra _ (by decide)
        · exact h.answers_enterTrivia _
        · exact h.answers_complete _
        · exact h.answers_absorb

/-- A signal where an item may begin. -/
theorem Neat.onItemStart (h : r.Neat) (signal : Signal) : AnswersNeat (r.onItemStart signal) := by
  have hchar (c : Char) : AnswersNeat (r.onItemChar c) := by
    unfold BlockReader.onItemChar
    split
    · exact h.answers_enter _ trivial
    · split
      · exact h.releaseHeld.answers_enter _ (SequenceReader.neat_start _ _ _)
      · unfold BlockReader.onNoItem
        dsimp only
        split
        · exact h.releaseHeld.answers_complete _
        · exact h.releaseHeld.answers_absorb
  unfold BlockReader.onItemStart
  split
  · exact h.answers_enterTrivia _
  · exact hchar _
  · dsimp only
    split
    · exact h.releaseHeld.answers_complete _
    · exact (h.releaseHeld.setPhase .afterItem).onAfterItem _

/-- The current line holds content. -/
theorem Neat.onContent (h : r.Neat) (config : Config) (signal : Signal) :
    AnswersNeat (onContent config r signal) := by
  have hending (level : IndentLevel) :
      AnswersNeat ⟨{ r with indent := none }.dedent ⟨r.indent, level⟩, .complete, {}⟩ :=
    have hline : LineStart.Neat ⟨r.indent, level⟩ := h.indent
    ((h.setIndent (by simp)).dedent hline).answers_complete _
  have hgoOn {s : BlockReader} (hs : s.Neat) (level : IndentLevel) (notices : Notices) :
      AnswersNeat { (s.beginLine level).onItemStart signal with notices } :=
    have hanswers := (hs.beginLine level).onItemStart signal
    ⟨hanswers.state, hanswers.entered⟩
  have hlevel (level : Option Nat) : ({ r with level } : BlockReader).Neat := { h with }
  unfold BlockReader.onContent
  generalize measure config r.indent = level
  dsimp only
  split
  · split
    · exact hending level
    · exact hgoOn (hlevel _) level _
  · split
    · exact hending _
    · exact hgoOn h _ _
  · exact hgoOn h _ _
  · exact hgoOn h _ _

/-- A signal after the white space of a line. -/
theorem Neat.onAfterIndent (h : r.Neat) (config : Config) (signal : Signal) :
    AnswersNeat (onAfterIndent config r signal) := by
  have hplaced := h.placeIndent false
  unfold BlockReader.onAfterIndent
  split
  · exact (hplaced.setPhase .lineStart).answers_takeExtra _ (by decide)
  · exact hplaced.answers_takeExtra _ (by decide)
  · exact hplaced.answers_enterTrivia _
  · exact hplaced.answers_complete _
  · exact h.onContent config _

/-- Every signal leaves the list neat. -/
theorem Neat.onSignal (h : r.Neat) (config : Config) (signal : Signal) :
    AnswersNeat (onSignal config r signal) := by
  have hlineStart : AnswersNeat (onLineStart config r signal) := by
    have hcontent := (h.setPhase .afterIndent).onAfterIndent config signal
    unfold BlockReader.onLineStart
    dsimp only
    split
    · split
      · exact h.answers_enter _ trivial
      · exact hcontent
    · exact hcontent
  unfold BlockReader.onSignal
  split
  · exact h.answers_complete _
  · split
    · exact h.onHeader signal
    · exact hlineStart
    · exact h.onAfterIndent config signal
    · exact h.onItemStart signal
    · exact h.onAfterItem signal

/-- What a neat list makes of a delivery. -/
abbrev ContinuesNeat (receipt : Receipt BlockReader) : Prop :=
  (receipt.map .block).Neat

/-- A list that opens no state. -/
theorem Neat.continues (h : r.Neat) : ContinuesNeat { state := r } :=
  Receipt.neat_of_state h (by simp [Receipt.map])

theorem Neat.rejectWord (h : r.Neat) (hword : word.Trimmed) : (r.rejectWord word).Neat :=
  (h.releaseHeld.pushExtra hword.invalidated).setPhase .afterItem

/-- Tokens are placed in an item one after another. -/
theorem seedItem_neat {item : SequenceReader} (hitem : item.Neat)
    (htokens : ∀ t ∈ tokens, t.Trimmed) :
    Promises (seedItem item tokens) SequenceReader.ContinuesNeat := by
  have hseed {receipt : Receipt SequenceReader} (h : SequenceReader.ContinuesNeat receipt) :
      Promises (tokens.foldlM seedNext receipt) SequenceReader.ContinuesNeat := by
    induction tokens generalizing receipt with
    | nil => exact promises_pure.2 h
    | cons t rest ih =>
      obtain ⟨ht, hrest⟩ := List.forall_mem_cons.1 htokens
      have hnext : Promises (seedNext receipt t) SequenceReader.ContinuesNeat := by
        refine ((SequenceReader.state_of_continuesNeat h).seed ht).bind fun seeded hseeded =>
          promises_pure.2 ?_
        have hstate : Reader.Neat (.sequence seeded.state) :=
          SequenceReader.state_of_continuesNeat hseeded
        refine Receipt.neat_of_state hstate fun inner hinner => ?_
        exact (List.mem_append.1 hinner).elim (h.opened inner) (hseeded.opened inner)
      rw [List.foldlM_cons]
      exact hnext.bind fun _ hnext => ih hrest hnext
  exact hseed hitem.continues

/-- An item is begun with a word. -/
theorem Neat.beginItem (h : r.Neat) (kind : NodeKind) (hword : word.Trimmed) :
    Promises (r.beginItem kind word) ContinuesNeat := by
  have hheld : (if kind = .memberVariable ∨ kind = .method then r else r.releaseHeld).Neat := by
    split
    · exact h
    · exact h.releaseHeld
  unfold BlockReader.beginItem
  dsimp only
  generalize (if kind = .memberVariable ∨ kind = .method then r else r.releaseHeld) = s at *
  refine (seedItem_neat (SequenceReader.neat_start _ _ _)
    (List.forall_mem_append.2 ⟨hheld.held, by simpa using hword⟩)).bind fun item hitem =>
      promises_pure.2 ?_
  have hstate : ({ s with held := [], goal := .item } : BlockReader).Neat :=
    { hheld with held := by simp }
  have hsequence : Reader.NeatOpened (.sequence item.state) :=
    SequenceReader.state_of_continuesNeat hitem
  exact Receipt.neat_of_state hstate (List.forall_mem_cons.2 ⟨hsequence, hitem.opened⟩)

/-- The lines before a further branch go to the chain, which then waits for the branch. -/
theorem Neat.beginBranch (h : r.Neat) (kind : NodeKind) (hword : word.Trimmed) :
    Promises (r.beginBranch kind word) ContinuesNeat := by
  obtain ⟨hkept, htrailing⟩ := h.form.splitTrailing
  unfold BlockReader.beginBranch
  dsimp only
  split
  · exact promises_pure.2 (h.rejectWord hword).continues
  · rename_i form hform
    refine ((SequenceReader.neat_start kind r.itemLevel false).seed hword).bind fun branch hbranch =>
      promises_pure.2 ?_
    have hawaits : ({ r with form, goal := .branch } : BlockReader).AwaitsBranch :=
      { h with form := Branch.awaits_updateLast? hkept htrailing hform }
    have hsequence : Reader.NeatOpened (.sequence branch.state) :=
      SequenceReader.state_of_continuesNeat hbranch
    exact ⟨.branch hawaits rfl, by simp [Receipt.map],
      List.forall_mem_cons.2 ⟨hsequence, hbranch.opened⟩⟩

/-- The first word of an item. -/
theorem Neat.onWord (h : r.Neat) (hword : word.Trimmed) :
    Promises (r.onWord word) ContinuesNeat := by
  unfold BlockReader.onWord
  dsimp only
  split
  · exact promises_pure.2 (h.rejectWord hword).continues
  · split
    · refine promises_pure.2 (h.setHeld (List.forall_mem_append.2 ⟨h.held, ?_⟩)).continues
      split
      · simpa using hword
      · simpa using hword.invalidated
    · split
      · exact h.beginBranch _ hword
      · split
        · exact h.beginBranch _ hword
        · split
          · exact h.beginItem _ hword
          · exact promises_pure.2 (h.rejectWord hword).continues

/-- A complete item. -/
theorem Neat.onItem (h : r.Neat) (ht : t.Trimmed) (hplaced : t.isTrivia = false) :
    Promises (r.onItem t) Neat := by
  unfold BlockReader.onItem
  refine (h.form.addItem ht hplaced).bind fun form hform => ?_
  have hplaced := h.setForm hform
  dsimp only
  split
  · exact promises_pure.2 (hplaced.setPhase _)
  · exact promises_pure.2 { hplaced with }
  · exact promises_pure.2 (hplaced.setPhase _)

/-- The branch completes the chain that waits for it. -/
theorem AwaitsBranch.onBranch (h : r.AwaitsBranch) (hopen : Branch.endsOpen r.form = true)
    (ht : t.Trimmed) (hplaced : t.isTrivia = false) : Promises (r.onBranch t) Neat := by
  unfold BlockReader.onBranch
  refine (promises_true _).bind fun _ _ => promises_pure.2 ?_
  obtain ⟨form, hform⟩ := Option.isSome_iff_exists.1
    (Branch.isSome_updateLast? (Form.setSlot .ifStatement .elseBranch t) hopen)
  exact { h with form := by simpa [hform] using h.form t ht hplaced form hform }

/-- The token that a state was opened for, unless that is a branch. Only a word opens states. -/
theorem Neat.onToken (h : r.Neat) {goal : BlockGoal} (hgoal : goal ≠ .branch) (ht : t.Trimmed) :
    Promises (r.onToken goal t) fun receipt =>
      ContinuesNeat receipt ∧ (goal = .word ∨ receipt.opened = []) := by
  have hone {s : BlockReader} (hs : s.Neat) :
      ContinuesNeat { state := s } ∧ (goal = .word ∨ ([] : List Reader) = []) :=
    ⟨hs.continues, .inr rfl⟩
  have hsingle : ∀ u ∈ [t], u.Trimmed := by simpa using ht
  have htrivia := hone (h.placeTrivia hsingle)
  unfold BlockReader.onToken
  split
  · exact promises_pure.2 (hone (s := { r with indent := some t, phase := .afterIndent })
      { h with indent := fun _ heq => Option.mem_some_iff.1 heq ▸ ht })
  · split
    · exact promises_pure.2 htrivia
    · rename_i hextra
      rw [Bool.not_eq_true, Bool.or_eq_false_iff] at hextra
      cases goal with
      | trivia | indent => exact promises_pure.2 htrivia
      | word => exact (h.onWord ht).mono fun _ hreceipt => ⟨hreceipt, .inl rfl⟩
      | item => exact (h.onItem ht hextra.1).bind fun _ hr => promises_pure.2 (hone hr)
      | branch => exact absurd rfl hgoal

/-- What a delivery brings behind its token. -/
theorem Neat.onRest (h : r.Neat) {d : Delivery} (hd : d.Neat) :
    (((r.pushExtras d.trailing).onHandback? d.handback).onLine? d.line).state.Neat := by
  have hhanded : ((r.pushExtras d.trailing).onHandback? d.handback).Neat := by
    cases hhandback : d.handback with
    | none => exact h.pushExtras hd.trailing
    | some t =>
      exact ((h.pushExtras hd.trailing).pushExtra (hd.handback t hhandback).invalidated).setPhase
        .afterItem
  cases hline : d.line with
  | none => exact hhanded
  | some line =>
    have hline := hd.line line hline
    have hdedent := hhanded.dedent hline
    have hgoOn := (hhanded.setIndent hline).beginLine line.level
    unfold BlockReader.onLine? BlockReader.onLine
    dsimp only
    split
    · exact hdedent
    · dsimp only
      split
      · exact hdedent
      · exact hgoOn
    · exact hgoOn
    · exact hgoOn

/-- Every delivery but that of a branch leaves the list neat. A word is delivered on its own. -/
theorem Neat.onDelivery (h : r.Neat) (hgoal : r.goal ≠ .branch) {d : Delivery} (hd : d.Neat)
    (hword : r.goal = .word → d.trailing = [] ∧ d.handback = none ∧ d.line = none) :
    Promises (r.onDelivery d) ContinuesNeat := by
  have hleading := (h.setGoal .trivia).placeTrivia hd.leading
  have hplaced : Promises
      (({ r with goal := .trivia }.placeTrivia d.leading).onToken? r.goal d.token)
      fun receipt => ContinuesNeat receipt ∧ (r.goal = .word ∨ receipt.opened = []) := by
    cases htoken : d.token with
    | none => exact promises_ok.2 ⟨hleading.continues, .inr rfl⟩
    | some t => exact hleading.onToken hgoal (hd.token t htoken)
  refine hplaced.bind fun placed hplaced => promises_pure.2 ?_
  obtain ⟨hcontinues, hopened⟩ := hplaced
  rcases hopened with hgoal | hopened
  · obtain ⟨htrailing, hhandback, hline⟩ := hword hgoal
    rw [htrailing, hhandback, hline]
    simpa [BlockReader.onHandback?, BlockReader.onLine?, BlockReader.pushExtras] using
      (⟨hcontinues.around, hcontinues.alone, hcontinues.opened⟩ :
        ContinuesNeat { state := placed.state, opened := placed.opened })
  · have hstate : placed.state.Neat := hcontinues.alone (by simp [Receipt.map, hopened])
    exact Receipt.neat_of_state (show Reader.Neat (.block _) from hstate.onRest hd)
      (by simp [Receipt.map, hopened])

/-- The branch that the list waits for makes it neat again. -/
theorem AwaitsBranch.onDelivery (h : r.AwaitsBranch) (hgoal : r.goal = .branch)
    (hopen : Branch.endsOpen r.form = true) {d : Delivery} (hd : d.Neat) (hleading : d.leading = [])
    {kind : NodeKind} {branch : List Entry} (htoken : d.token = some (.ofForm kind branch)) :
    Promises (r.onDelivery d) ContinuesNeat := by
  have hidle : ({ r with goal := .trivia } : BlockReader).AwaitsBranch := { h with }
  have hplaced : Promises (({ r with goal := .trivia } : BlockReader).onToken? r.goal d.token)
      fun receipt => receipt.state.Neat ∧ receipt.opened = [] := by
    rw [hgoal, htoken]
    exact (hidle.onBranch hopen (hd.token _ htoken) rfl).bind fun _ hr => promises_pure.2 ⟨hr, rfl⟩
  unfold BlockReader.onDelivery
  rw [hleading, placeTrivia_nil]
  refine hplaced.bind fun placed hplaced => promises_pure.2 ?_
  exact Receipt.neat_of_state (show Reader.Neat (.block _) from hplaced.1.onRest hd)
    (by simp [Receipt.map, hplaced.2])

/-- What the list delivers. -/
theorem Neat.finish (h : r.Neat) : r.finish.Neat := by
  have hplaced : ∃ s : BlockReader,
      (if r.releaseHeld.line.isNone then r.releaseHeld.placeIndent false else r.releaseHeld) = s ∧
        s.Neat := by
    refine ⟨_, rfl, ?_⟩
    split
    · exact h.releaseHeld.placeIndent _
    · exact h.releaseHeld
  obtain ⟨s, heq, hs⟩ := hplaced
  unfold BlockReader.finish
  dsimp only
  rw [heq]
  exact {
    leading := fun _ ht => by cases ht
    token := fun t ht => by
      obtain rfl := Option.mem_some_iff.1 ht
      exact hs.form.trimmed_splitTrailing fun hkind => by
        cases hblock : s.kind <;> rw [hblock] at hkind <;> cases hkind
    trailing := hs.form.splitTrailing.2
    handback := fun _ ht => by cases ht
    line := hs.line }

/-- Besides a neat list, one that waits for nothing but a branch takes it. -/
theorem Neat.awaitsBranch (h : r.Neat) : r.AwaitsBranch :=
  { h with form := Branch.awaits_of_neat h.form }

end BlockReader

/-! ### All states -/

namespace RootReader

variable {r : RootReader} {t : Tree} {tokens : List Tree}

theorem neat_pushExtras (h : Form.Neat r.form) (htokens : ∀ t ∈ tokens, t.Trimmed) :
    Form.Neat (r.pushExtras tokens).form :=
  h.extras htokens

/-- Every signal leaves the standalone expression neat. -/
theorem onSignal_neat (h : Form.Neat r.form) (signal : Signal) :
    ((r.onSignal signal).map .root).Neat := by
  have hanswers {step : Step} (hstep : ∀ inner, step ≠ .enter inner) (notices : Notices) :
      Reaction.Neat ((⟨r, step, notices⟩ : Reaction RootReader).map .root) :=
    ⟨h, fun inner heq => absurd heq (hstep inner)⟩
  unfold RootReader.onSignal
  split
  · rename_i t htrivia
    have ht : t.Trimmed := ExpressionReader.trimmed_of_at?
      (show TriviaStart.at? true _ = some (.token t) from htrivia)
    exact ⟨neat_pushExtras h (by simpa using ht), fun inner heq => by cases heq⟩
  · exact ⟨h, fun inner heq => Step.enter.inj heq ▸ trivial⟩
  · exact hanswers (by simp) _
  · split
    · exact ⟨h, fun inner heq => Step.enter.inj heq ▸ ExpressionReader.neat_start _⟩
    · exact hanswers (by simp) _
  · exact hanswers (by simp) _

/-- Every delivery leaves the standalone expression neat. -/
theorem onDelivery_neat (h : Form.Neat r.form) {d : Delivery} (hd : d.Neat) :
    Promises (r.onDelivery d) fun r => Form.Neat r.form := by
  have hleading := neat_pushExtras h hd.leading
  have htoken : Promises ((r.pushExtras d.leading).onToken? d.token)
      fun r => Form.Neat r.form := by
    cases htoken : d.token with
    | none => exact promises_ok.2 hleading
    | some t =>
      have ht := hd.token t htoken
      unfold RootReader.onToken? RootReader.onToken
      dsimp only
      split
      · exact promises_pure.2 (neat_pushExtras hleading (by simpa using ht))
      · rename_i hextra
        have hplaced : t.isTrivia = false := by
          by_contra htrivia
          simp [htrivia] at hextra
        exact (hleading.place ht hplaced).bind fun _ hform => promises_pure.2 hform
  refine htoken.bind fun placed hplaced => promises_pure.2 ?_
  refine neat_pushExtras (neat_pushExtras (neat_pushExtras hplaced hd.trailing) ?_) ?_
  · intro t ht
    obtain ⟨handback, hhandback, rfl⟩ := Option.map_eq_some_iff.1 (Option.mem_toList.1 ht)
    exact (hd.handback handback hhandback).invalidated
  · intro t ht
    obtain ⟨line, hline, hindent⟩ := Option.bind_eq_some_iff.1 (Option.mem_toList.1 ht)
    exact hd.line line hline t hindent

end RootReader

namespace Reader

variable {r : Reader} {o : Origin} {config : Config}

/-- Every signal leaves a neat state neat, and a leaf that holds text then. -/
theorem NeatOrLeaf.onSignal (h : r.NeatOrLeaf) (config : Config) {signal : Signal}
    (hafter : ∀ leaf, r = .leaf leaf → (leaf.feed signal).1.text ≠ "") :
    Promises (r.onSignal config signal) Reaction.Neat := by
  cases r with
  | leaf r =>
    refine promises_ok.2 ⟨hafter r rfl, fun inner heq => ?_⟩
    have hstep (verdict : Verdict) : stepOfVerdict verdict ≠ .enter inner := by
      cases verdict <;> simp [stepOfVerdict]
    exact absurd heq (hstep _)
  | expression r => exact promises_ok.2 (ExpressionReader.Neat.onSignal h signal)
  | group r => exact (GroupReader.Neat.onSignal h signal).map fun _ h => h
  | sequence r => exact (SequenceReader.Neat.onSignal h signal).map fun _ h => h
  | block r => exact promises_ok.2 (BlockReader.Neat.onSignal h config signal)
  | root r => exact promises_ok.2 (RootReader.onSignal_neat h signal)

/-- What a neat state delivers is neat, unless it is the whole of an expression. -/
theorem Neat.finish (h : r.Neat) (config : Config) (hinner : r.origin ≠ .root) :
    Promises (r.finish config) Delivery.Neat := by
  cases r with
  | leaf r => exact promises_ok.2 (LeafReader.neat_token h)
  | expression r => exact ExpressionReader.Neat.finish h _
  | group r => exact promises_ok.2 (GroupReader.Neat.finish h)
  | sequence r => exact promises_ok.2 (SequenceReader.Neat.finish h)
  | block r => exact promises_ok.2 (BlockReader.Neat.finish h)
  | root r => exact absurd rfl hinner

/-- An inner state is not the whole of an expression. -/
theorem NeatInner.neatOrLeaf (h : r.NeatInner) : r.NeatOrLeaf ∧ r.origin ≠ .root := by
  cases r with
  | root r => exact False.elim h
  | leaf r =>
    refine ⟨trivial, ?_⟩
    cases r <;> simp [Reader.origin, LeafReader.origin]
  | _ => exact ⟨h, by simp [Reader.origin]⟩

/-- A state that is opened after another one is an inner state and no leaf. -/
theorem NeatOpened.inner (h : r.NeatOpened) : r.NeatInner ∧ ∀ leaf, r ≠ .leaf leaf := by
  cases r with
  | leaf r => exact False.elim h
  | _ => exact ⟨h, by simp⟩

/-- A state stays neat when it is told of the end of a state that it opened. -/
theorem NeatAround.onDelivery {top : Reader} {d : Delivery} (h : r.NeatAround)
    (hreceives : r.Receives top.origin) (hfits : d.FitsFrom top.origin)
    (hd : d.Neat) (hsequence : top.origin = .sequence →
      d.leading = [] ∧ ∃ kind form, d.token = some (.ofForm kind form)) :
    Promises (r.onDelivery d) Receipt.Neat := by
  cases r with
  | leaf r => exact False.elim hreceives
  | expression r =>
    cases h with
    | neat h => exact (ExpressionReader.Neat.onDelivery h hd).map fun _ h => h
  | group r =>
    cases h with
    | neat h =>
      exact (GroupReader.Neat.onDelivery h hd).map fun _ h =>
        Receipt.neat_of_state (show Reader.Neat (.group _) from h) (by simp)
  | sequence r =>
    cases h with
    | neat h => exact (SequenceReader.Neat.onDelivery h hd).map fun _ h => h
  | root r =>
    cases h with
    | neat h =>
      exact (RootReader.onDelivery_neat h hd).map fun _ h =>
        Receipt.neat_of_state (show Reader.Neat (.root _) from h) (by simp)
  | block r =>
    have hgoal : r.GoalSuits top.origin := hreceives.goal
    by_cases hbranch : r.goal = .branch
    · obtain ⟨horigin, -, hopen⟩ : top.origin = .sequence ∧ r.held = [] ∧ Branch.endsOpen r.form := by
        simpa [BlockReader.GoalSuits, hbranch] using hgoal
      obtain ⟨hleading, kind, form, htoken⟩ := hsequence horigin
      have hawaits : r.AwaitsBranch := by
        cases h with
        | neat h => exact BlockReader.Neat.awaitsBranch h
        | branch h => exact h
      exact (hawaits.onDelivery hbranch hopen hd hleading htoken).map fun _ h => h
    · cases h with
      | branch h hgoal => exact absurd hgoal hbranch
      | neat h =>
        refine (BlockReader.Neat.onDelivery h hbranch hd fun hword => ?_).map fun _ h => h
        have horigin : top.origin = .word := by simpa [BlockReader.GoalSuits, hword] using hgoal
        exact (hfits.alone (by rw [horigin]; rfl)).2

end Reader

end ScriptTree
