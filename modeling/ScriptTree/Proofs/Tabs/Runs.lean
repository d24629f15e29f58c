import ScriptTree.Proofs.Spellings.Runs
import ScriptTree.Proofs.Tabs.Leaves

/-!
# Reading in the two spellings of tabs

A tab and the first blank of a group lead through the same steps, up to the leaf that takes them.
That leaf takes the rest of the group as well.
-/

namespace ScriptTree

open Text (isInlineSpace)

/-- A reaction that ends the state, or opens white space inside it. -/
def Step.MeetsBlank (step : Step) : Prop :=
  step = .complete ∨ ∃ kind, step = .enter (.leaf (.blank kind ""))

namespace BlockReader

variable {config : Config} {c : Char}

/-- White space where an item may begin is trivia. -/
theorem onItemStart_blank (r : BlockReader) (hc : isInlineSpace c = true) :
    r.onItemStart (.char c) = r.enterTrivia (.blank .space "") := by
  simp only [onItemStart, TriviaStart.inline?_blank hc]

/-- White space after that of a line is trivia, unless the line ends the block. -/
theorem onContent_blank (r : BlockReader) (hc : isInlineSpace c = true) :
    onContent config r (.char c) = onContent config r (.char ' ') ∧
      (onContent config r (.char ' ')).step.MeetsBlank := by
  have hblank : isInlineSpace ' ' = true := rfl
  simp only [onContent, onItemStart_blank _ hc, onItemStart_blank _ hblank, true_and]
  repeat' split
  all_goals first | exact .inl rfl | exact .inr ⟨_, rfl⟩

/-- White space is trivia wherever it stands, or the white space of a line, unless it ends the
block. -/
theorem onSignal_blank (r : BlockReader) (hc : isInlineSpace c = true) :
    r.onSignal config (.char c) = r.onSignal config (.char ' ') ∧
      (r.onSignal config (.char ' ')).step.MeetsBlank := by
  have hblank : isInlineSpace ' ' = true := rfl
  unfold onSignal
  split
  · exact ⟨rfl, .inl rfl⟩
  · split
    · simp only [onHeader, TriviaStart.inline?_blank hc, TriviaStart.inline?_blank hblank]
      exact ⟨trivial, .inr ⟨_, rfl⟩⟩
    · simp only [onLineStart, if_pos hc, if_pos hblank]
      exact ⟨trivial, .inr ⟨_, rfl⟩⟩
    · exact r.onContent_blank hc
    · rw [onItemStart_blank _ hc, onItemStart_blank _ hblank]
      exact ⟨rfl, .inr ⟨_, rfl⟩⟩
    · simp only [onAfterItem, TriviaStart.inline?_blank hc, TriviaStart.inline?_blank hblank]
      exact ⟨trivial, .inr ⟨_, rfl⟩⟩

end BlockReader

namespace Reader

variable {config : Config} {r : Reader}

/-- A state that has begun: a leaf took a character or is white space, and a group is open. -/
def TakesBlanks : Reader → Prop
  | .leaf r => r.HasBegun
  | .group r => r.opened = true
  | _ => True

/-- What a state that is no leaf makes of white space does not depend on the character. -/
def MeetsBlanks (config : Config) (r : Reader) : Prop :=
  ∃ reaction : Reaction Reader, reaction.step.MeetsBlank ∧
    ∀ c, isInlineSpace c = true → r.onSignal config (.char c) = .ok reaction

/-- A state that is no leaf ends at white space or opens it. -/
theorem TakesBlanks.meetsBlanks (h : r.TakesBlanks) (hleaf : ∀ leaf, r ≠ .leaf leaf) :
    r.MeetsBlanks config := by
  cases r with
  | leaf r => exact absurd rfl (hleaf r)
  | expression r =>
    cases hdone : r.done with
    | true =>
      exact ⟨r.complete.map .expression, .inl rfl,
        fun c _ => by simp [onSignal, ExpressionReader.onSignal, hdone]⟩
    | false =>
      refine ⟨(r.enter .trivia (.leaf (.blank .space ""))).map .expression, .inr ⟨_, rfl⟩,
        fun c hc => ?_⟩
      simp [onSignal, ExpressionReader.onSignal, hdone, TriviaStart.at?_blank _ hc]
  | group r =>
    have hopened : r.opened = true := h
    cases hdone : r.done with
    | true =>
      exact ⟨⟨.group r, .complete, {}⟩, .inl rfl,
        fun c _ => by simp [onSignal, GroupReader.onSignal, hdone]; rfl⟩
    | false =>
      refine ⟨⟨.group { r with goal := .trivia }, .enter (.leaf (.blank .space "")), {}⟩,
        .inr ⟨_, rfl⟩, fun c hc => ?_⟩
      simp [onSignal, GroupReader.onSignal, hdone, hopened, TriviaStart.at?_blank _ hc]
      rfl
  | sequence r =>
    cases hdone : r.done with
    | true =>
      exact ⟨⟨.sequence r, .complete, {}⟩, .inl rfl,
        fun c _ => by simp [onSignal, SequenceReader.onSignal, hdone]; rfl⟩
    | false =>
      refine ⟨⟨.sequence { r with active := none }, .enter (.leaf (.blank .space "")), {}⟩,
        .inr ⟨_, rfl⟩, fun c hc => ?_⟩
      simp [onSignal, SequenceReader.onSignal, hdone, TriviaStart.inline?_blank hc]
      rfl
  | block r =>
    have hblank : isInlineSpace ' ' = true := rfl
    refine ⟨(r.onSignal config (.char ' ')).map .block, (r.onSignal_blank hblank).2,
      fun c hc => ?_⟩
    rw [onSignal, (r.onSignal_blank hc).1]
  | root r =>
    refine ⟨⟨.root r, .enter (.leaf (.blank .space "")), {}⟩, .inr ⟨_, rfl⟩, fun c hc => ?_⟩
    simp [onSignal, RootReader.onSignal, TriviaStart.bracketed?_blank hc]
    rfl

end Reader

namespace Automaton

open Reader

variable {config : Config} {signal : Signal} {outer : Layer} {a b : Automaton}
  {top : Reader} {below : List Reader} {text : String} {n : Nat}

/-- The innermost state takes white space. -/
def TakesBlanks (a : Automaton) : Prop :=
  ∀ top below, a.stack = top :: below → a.opening = [] → top.TakesBlanks

/-- Between two characters every state has begun. -/
theorem Reads.takesBlanks (h : a.Reads outer text) (hholds : a.HoldsText) : a.TakesBlanks := by
  intro top below hstack hopening
  have hrests := h.rests hstack hopening
  cases top with
  | leaf r => exact LeafReader.hasBegun_of_text (hholds r below hstack)
  | group r => exact hrests.opened
  | _ => trivial

end Automaton

variable [TabWidth]

attribute [local instance] ReaderSpelling.tabs

open LeafReader (Retabbed)

namespace Reader

variable {config : Config} {r r' : Reader}

/-- The reactions to a tab and to the first of a group of blanks: both end the state, both open
white space, or both are taken by a leaf that takes the rest of the group as well. -/
inductive TabTurn : Reaction Reader → Reaction Reader → Prop where
  | left {r r' : Reader} (notices : Notices) (hr : r.Twin r') :
      TabTurn ⟨r, .complete, notices⟩ ⟨r', .complete, notices⟩
  | opened {r r' inner' : Reader} (kind : LeafKind) (notices : Notices) (hr : r.Twin r')
      (hinner : (Reader.leaf (.blank kind "")).Twin inner') :
      TabTurn ⟨r, .enter (.leaf (.blank kind "")), notices⟩ ⟨r', .enter inner', notices⟩
  | taken {r between r' : LeafReader} {k : Nat} (hk : k + 1 = TabWidth.blanks)
      (hrest : LeafReader.TakesBlanks k between r') (hr : Retabbed TabWidth.blanks r r') :
      TabTurn ⟨.leaf r, .accept, {}⟩ ⟨.leaf between, .accept, {}⟩

/-- States that are no leaves end both, or both open white space. -/
theorem tabTurn_of_meetsBlank {reaction reaction' : Reaction Reader}
    (h : Reaction.Twin Reader.Twin reaction reaction') (hmeets : reaction.step.MeetsBlank) :
    TabTurn reaction reaction' := by
  obtain ⟨state, step, notices⟩ := reaction
  obtain ⟨state', step', notices'⟩ := reaction'
  obtain ⟨hstate, hstep, hnotices⟩ := h
  obtain rfl : notices' = notices := hnotices
  rcases hmeets with heq | ⟨kind, heq⟩
  · obtain rfl : step = .complete := heq
    cases hstep
    exact .left notices' hstate
  · obtain rfl : step = .enter (.leaf (.blank kind "")) := heq
    cases hstep with
    | enter hinner => exact .opened kind notices' hstate hinner

/-- A state makes the same of a tab and of the first of a group of blanks. -/
theorem Twin.tabTurn (h : r.Twin r') (hsuits : ReaderSpelling.Suits config)
    (htakes : r.TakesBlanks) :
    Agree TabTurn (r.onSignal config (.char '\t')) (r'.onSignal config (.char ' ')) := by
  by_cases hleaf : ∃ leaf, r = .leaf leaf
  · obtain ⟨leaf, rfl⟩ := hleaf
    cases h with
    | @leaf _ leaf' h =>
      have hturn : LeafReader.TabTurn TabWidth.blanks leaf leaf' :=
        LeafReader.Retabbed.tabTurn h TabWidth.pos htakes
      cases hturn with
      | left next next' hnext htab hblank =>
        simp only [Reader.onSignal, htab, hblank]
        exact .left _ (.leaf hnext)
      | taken next next' hnext htab hblanks =>
        generalize hwidth : TabWidth.blanks = width at hblanks
        cases hblanks with
        | zero => exact absurd TabWidth.pos (hwidth ▸ Nat.lt_irrefl 0)
        | succ hblank hrest =>
          simp only [Reader.onSignal, htab, hblank]
          exact .taken hwidth.symm hrest hnext
  · obtain ⟨reaction, hmeets, hreaction⟩ := htakes.meetsBlanks (not_exists.1 hleaf)
    have hblank : Agree (Reaction.Twin Reader.Twin) (r.onSignal config (.char ' '))
        (r'.onSignal config (.char ' ')) := h.onSignal hsuits trivial
    rw [hreaction ' ' rfl] at hblank
    rw [hreaction '\t' rfl]
    cases hreaction' : r'.onSignal config (.char ' ') with
    | error e =>
      rw [hreaction'] at hblank
      exact hblank
    | ok reaction' =>
      rw [hreaction'] at hblank
      exact tabTurn_of_meetsBlank hblank hmeets

end Reader

namespace Automaton

open Reader

variable {config : Config} {signal : Signal} {outer : Layer} {a b : Automaton}
  {top : Reader} {below : List Reader} {text : String} {n : Nat}

/-- The progress of a tab here and of the first of a group of blanks there: the rest of the group is
still to come where the first blank was taken. -/
inductive Progress.TabTurn (config : Config) : Progress → Progress → Prop where
  | taken {a between b : Automaton} {k : Nat} (hk : k + 1 = TabWidth.blanks)
      (hrest : between.feed config (List.replicate k ' ') = .ok b) (h : a.Twin b) :
      TabTurn config (.taken a) (.taken between)
  | passed {a b : Automaton} (h : a.Twin b) (htakes : a.TakesBlanks) :
      TabTurn config (.passed a) (.passed b)

omit [TabWidth] in
/-- A leaf takes blanks one after another. -/
theorem feed_blanks {r r' : LeafReader} (h : r.TakesBlanks n r') (hstack : a.stack = .leaf r :: below)
    (hopening : a.opening = []) :
    a.feed config (List.replicate n ' ') = .ok { a with stack := .leaf r' :: below } := by
  induction h generalizing a with
  | zero r =>
    rw [← hstack]
    rfl
  | @succ k r between r' hfeed _ ih =>
    have hsignal : (Reader.leaf r).onSignal config (.char ' ') =
        .ok ⟨.leaf between, .accept, {}⟩ := by
      rw [onSignal, hfeed]
      rfl
    have htaken := signal_of_accept hstack hopening hsignal
    rw [Notices.merge_empty] at htaken
    rw [List.replicate_succ, Automaton.feed, List.foldlM_cons,
      show Signal.ofChar ' ' = .char ' ' from rfl, htaken]
    exact ih rfl hopening

omit [TabWidth] in
/-- Blanks after the end of the outermost state are kept. -/
theorem feed_blanks_of_nil (k : Nat) (hstack : a.stack = []) :
    a.feed config (List.replicate k ' ') =
      .ok { a with leftover := a.leftover ++ String.ofList (List.replicate k ' ') } := by
  induction k generalizing a with
  | zero =>
    rw [List.replicate_zero, String.ofList_nil, String.append_empty]
    rfl
  | succ k ih =>
    have hkept : a.signal config (.char ' ') = .ok (a.keepLeftover (.char ' ')) :=
      signal_of_nil hstack
    rw [List.replicate_succ, Automaton.feed, List.foldlM_cons,
      show Signal.ofChar ' ' = .char ' ' from rfl, hkept]
    have hstack' : (a.keepLeftover (.char ' ')).stack = [] := hstack
    refine (ih hstack').trans ?_
    rw [← List.singleton_append, String.ofList_append, ← String.append_assoc]
    rfl

/-- A group of blanks has a first one. -/
theorem exists_succ_eq_blanks : ∃ k, k + 1 = TabWidth.blanks :=
  ⟨TabWidth.blanks - 1, Nat.sub_add_cancel TabWidth.pos⟩

namespace Twin

/-- A tab and the first of a group of blanks lead to the same step. -/
theorem tabTurn (h : a.Twin b) (hsuits : ReaderSpelling.Suits config)
    (hruns : a.Runs config (.char '\t') n outer text) (htakes : a.TakesBlanks) :
    Agree (Progress.TabTurn config) (a.step config (.char '\t')) (b.step config (.char ' ')) := by
  refine h.step_agree (fun _ hstack' => ?_) (fun inner _ more _ hinner a' _ hpushed hstack
    hopening => .passed hpushed ?_) ?_
  · obtain ⟨k, hk⟩ := exists_succ_eq_blanks
    refine .taken hk (feed_blanks_of_nil k hstack') { h with leftover := ?_ }
    have hleftover : Text.Retabbed TabWidth.blanks (a.leftover.push '\t')
        (b.leftover ++ String.ofList (List.replicate TabWidth.blanks ' ')) :=
      Text.Retabbed.push_tab h.leftover
    rw [String.push_eq_append] at hleftover
    rw [← hk, List.replicate_succ, ← List.singleton_append, String.ofList_append,
      ← String.append_assoc] at hleftover
    rw [hk] at hleftover
    exact hleftover
  · intro top below hstack' _
    rw [hstack] at hstack'
    obtain ⟨rfl, rfl⟩ := List.cons.inj hstack'
    cases hinner <;> trivial
  · intro top top' below below' hstack hopening htop hbelow
    have hopening' := h.opening_eq_nil hopening
    have hreaction : Agree TabTurn (top.onSignal config (.char '\t'))
        (top'.onSignal config (.char ' ')) := htop.tabTurn hsuits (htakes top below hstack hopening)
    refine ((hreaction.and fun _ => (hruns.fits hstack hopening).of_ok).mapError).bind
      fun reaction reaction' hboth => ?_
    obtain ⟨hreaction, hfits⟩ := hboth
    have hnoticed (notices : Notices) : Automaton.Twin
        { a with notices := a.notices.merge notices } { b with notices := b.notices.merge notices } :=
      { h with notices := congrArg (·.merge notices) h.notices }
    cases hreaction with
    | left notices hr =>
      have hhosted := hruns.hosted hstack
      rw [← hfits.layer_eq] at hhosted
      have hpop := (hnoticed notices).pop hbelow hhosted (finish_agree config hr)
      refine (hpop.and fun _ => (hfits.pop rfl _).of_ok).bind fun a' b' hpopped => ?_
      exact .passed hpopped.1.1 (hpopped.2.takesBlanks hpopped.1.2.holdsText)
    | @opened r r' inner' kind notices hr hinner =>
      have hstacked : Automaton.Twin
          { a with stack := r :: below, notices := a.notices.merge notices }
          { b with stack := r' :: below', notices := b.notices.merge notices } :=
        { hnoticed notices with stack := .cons hr hbelow }
      refine (hstacked.push hinner).bind fun a' b' hpushed => .passed hpushed.1 ?_
      intro top below hstack' _
      rw [hpushed.2] at hstack'
      obtain ⟨rfl, rfl⟩ := List.cons.inj hstack'
      trivial
    | @taken r between r' k hk hrest hr =>
      have hstacked : ({ b with
          stack := .leaf between :: below'
          notices := b.notices.merge {} } : Automaton).stack = .leaf between :: below' := rfl
      exact .taken hk (feed_blanks hrest hstacked hopening')
        { hnoticed {} with stack := .cons (.leaf hr) hbelow }

/-- A tab and the first of a group of blanks are delivered in the same way. -/
theorem deliver_tab (h : a.Twin b) (hsuits : ReaderSpelling.Suits config)
    (hruns : a.Runs config (.char '\t') n outer text) (htakes : a.TakesBlanks) :
    Agree (fun a' between => ∃ k b', k + 1 = TabWidth.blanks ∧
        between.feed config (List.replicate k ' ') = .ok b' ∧ a'.Twin b')
      (a.deliver config (.char '\t') n) (b.deliver config (.char ' ') n) := by
  induction n generalizing a b with
  | zero => exact absurd hruns.pos (Nat.lt_irrefl 0)
  | succ n ih =>
    refine ((h.tabTurn hsuits hruns htakes).and hruns.promises_step).bind
      fun progress progress' hboth => ?_
    obtain ⟨hturn, hruns⟩ := hboth
    cases hturn with
    | taken hk hrest h => exact ⟨_, _, hk, hrest, h⟩
    | passed h htakes => exact ih h hruns htakes

/-- A tab is taken in the same way as a group of blanks. -/
theorem signal_tab (h : a.Twin b) (hsuits : ReaderSpelling.Suits config)
    (hreads : a.Reads outer text) (hholds : a.HoldsText) :
    Agree Twin (a.signal config (.char '\t'))
      (b.feed config (List.replicate TabWidth.blanks ' ')) := by
  have hruns : a.Runs config (.char '\t') a.stepLimit outer text := hreads.runs
  have hdelivered := h.deliver_tab hsuits hruns (hreads.takesBlanks hholds)
  obtain ⟨k, hk⟩ := exists_succ_eq_blanks
  rw [← hk, List.replicate_succ, Automaton.feed, List.foldlM_cons,
    show Signal.ofChar ' ' = .char ' ' from rfl, Automaton.signal, Automaton.signal, h.stepLimit_eq,
    ← bind_pure (Automaton.deliver config (.char '\t') a.stepLimit a)]
  refine hdelivered.bind fun a' between hnext => ?_
  obtain ⟨k', b', hk', hnext, hb⟩ := hnext
  obtain rfl : k' = k := by omega
  change Agree Twin (pure a') (Automaton.feed config between (List.replicate k' ' '))
  rw [hnext]
  exact hb

/-- The same characters are taken in the two spellings. -/
theorem feed_tabs (h : a.Twin b) (hsuits : ReaderSpelling.Suits config)
    (hreads : a.Reads outer text) (hholds : a.HoldsText) {cs cs' : List Char}
    (hcs : Text.Retabs TabWidth.blanks cs cs') :
    Agree Twin (a.feed config cs) (b.feed config cs') := by
  induction hcs generalizing a b text with
  | nil => exact h
  | @same c cs cs' _ ih =>
    have hchar : (Signal.ofChar c).toChar?.isSome := by rw [Signal.toChar?_ofChar]; rfl
    have hsignal : Agree Twin (a.signal config (.ofChar c)) (b.signal config (.ofChar c)) :=
      h.signal_plain hsuits hreads trivial
    rw [Automaton.feed, List.foldlM_cons, Automaton.feed, List.foldlM_cons]
    refine (hsignal.and (P := fun a' => a'.Delivered (.ofChar c) outer text ∧ a'.HoldsText)
      fun a' ha' => ⟨hreads.promises_signal _ a' ha', hreads.holdsText hchar ha'⟩).bind fun a' b' hboth => ?_
    exact ih hboth.1 hboth.2.1.1 hboth.2.2
  | @tab cs cs' _ ih =>
    rw [feed_append, Automaton.feed, List.foldlM_cons, show Signal.ofChar '\t' = .char '\t' from rfl]
    refine ((h.signal_tab hsuits hreads hholds).and
      (P := fun a' => a'.Delivered (.char '\t') outer text ∧ a'.HoldsText)
      fun a' ha' => ⟨hreads.promises_signal _ a' ha', hreads.holdsText rfl ha'⟩).bind fun a' b' hboth => ?_
    exact ih hboth.1 hboth.2.1.1 hboth.2.2

end Twin

end Automaton

end ScriptTree
