import ScriptTree.Proofs.Innermost
import ScriptTree.Proofs.Spellings.Reactions

/-!
# Steps in the two spellings

Two automata whose states are twins take the same steps for a signal that is the same in the two
spellings, and are twins again.
-/

namespace ScriptTree

variable [ReaderSpelling]

namespace Reader

variable {r r' : Reader} {config : Config}

/-- White space is read by a leaf in both spellings. -/
theorem Twin.exists_blank (h : r.Twin r') (hblank : r.layer = .blank) :
    ∃ leaf leaf', r = .leaf leaf ∧ r' = .leaf leaf' ∧ ReaderSpelling.LeafTwin leaf leaf' ∧
      ∃ kind text, leaf = .blank kind text := by
  cases h with
  | @leaf r r' h =>
    cases r with
    | blank kind text => exact ⟨_, _, rfl, rfl, h, kind, text, rfl⟩
    | _ => cases hblank
  | _ => cases hblank

omit [ReaderSpelling] in
/-- A state that waits for the white space of a line hosts nothing else. -/
theorem Hosts.eq_blank {layer : Layer} (h : r.Hosts layer) (hawaits : r.AwaitsIndent) :
    layer = .blank := by
  cases r with
  | block r =>
    have hgoal := h.goal
    rw [BlockReader.GoalFits, show r.goal = .indent from hawaits] at hgoal
    exact hgoal.1
  | _ => exact False.elim hawaits

end Reader

namespace Automaton

open Reader

/-- The same automaton in the two spellings. -/
structure Twin (a b : Automaton) : Prop where
  stack : List.Forall₂ Reader.Twin a.stack b.stack
  opening : OpenedTwins a.opening b.opening
  delivered : Option.Rel Delivery.Twin a.delivered b.delivered
  leftover : ReaderSpelling.Leftover a.leftover b.leftover
  notices : b.notices = a.notices

/-- The same progress in the two spellings. -/
inductive Progress.Twin : Progress → Progress → Prop where
  | taken {a b : Automaton} (h : a.Twin b) : Twin (.taken a) (.taken b)
  | passed {a b : Automaton} (h : a.Twin b) : Twin (.passed a) (.passed b)

variable {config : Config} {signal : Signal} {outer : Layer} {a b : Automaton}
  {top top' inner inner' : Reader} {below below' : List Reader} {text : String} {n : Nat}

/-- The same delivery, which is measured alike if it is white space. -/
theorem finish_agree (config : Config) (h : top.Twin top') :
    Agree (fun d d' => d.Twin d' ∧
        (top.layer = .blank → Option.Rel (Tree.SameLevel ReaderSpelling.Suits) d.token d'.token))
      (top.finish config) (top'.finish config) := by
  have hfinish : Agree Delivery.Twin (top.finish config) (top'.finish config) := h.finish
  by_cases hblank : top.layer = .blank
  · obtain ⟨r, r', rfl, rfl, hleaf, kind, text, rfl⟩ := h.exists_blank hblank
    exact ⟨hfinish, fun _ => ReaderSpelling.token?_sameLevel hleaf⟩
  · exact hfinish.mono fun d d' hd => ⟨hd, fun heq => absurd heq hblank⟩

namespace Twin

theorem stepLimit_eq (h : a.Twin b) : b.stepLimit = a.stepLimit := by
  rw [stepLimit, stepLimit, h.stack.length_eq]

/-- No state ended, or the same ones did. -/
theorem stack_eq_nil (h : a.Twin b) (hstack : a.stack = []) : b.stack = [] := by
  have hstacks : List.Forall₂ Reader.Twin a.stack b.stack := h.stack
  rwa [hstack, List.forall₂_nil_left_iff] at hstacks

/-- The innermost states are twins, and so are the states around them. -/
theorem exists_stack_eq (h : a.Twin b) (hstack : a.stack = top :: below) :
    ∃ top' below', b.stack = top' :: below' ∧ top.Twin top' ∧
      List.Forall₂ Reader.Twin below below' := by
  have hstacks : List.Forall₂ Reader.Twin a.stack b.stack := h.stack
  rw [hstack, List.forall₂_cons_left_iff] at hstacks
  obtain ⟨top', below', htop, hbelow, hstack'⟩ := hstacks
  exact ⟨top', below', hstack', htop, hbelow⟩

/-- No state is about to be opened, or the same ones are. -/
theorem opening_eq_nil (h : a.Twin b) (hopening : a.opening = []) : b.opening = [] := by
  have hopenings : List.Forall₂ OpenedTwin a.opening b.opening := h.opening
  rwa [hopening, List.forall₂_nil_left_iff] at hopenings

/-- The same state is opened. -/
theorem push (h : a.Twin b) (hinner : inner.Twin inner') :
    Agree (fun a' b' => a'.Twin b' ∧ a' = { a with stack := inner :: a.stack })
      (a.push config inner) (b.push config inner') := by
  unfold Automaton.push
  rw [h.stack.length_eq]
  exact (agree_self _).bind fun _ _ _ => ⟨{ h with stack := .cons hinner h.stack }, rfl⟩

/-- The innermost states end, which deliver the same. -/
theorem pop (h : a.Twin b) (hbelow : List.Forall₂ Reader.Twin below below')
    (hhosted : HostedBy outer below top.layer)
    (hfinish : Agree (fun d d' => d.Twin d' ∧
        (top.layer = .blank → Option.Rel (Tree.SameLevel ReaderSpelling.Suits) d.token d'.token))
      (top.finish config) (top'.finish config)) :
    Agree (fun a b => a.Twin b ∧ a.IsInner)
      (Automaton.pop config { a with stack := top :: below })
      (Automaton.pop config { b with stack := top' :: below' }) := by
  refine Agree.and ?_ fun _ hpop => pop_isInner rfl hhosted hpop
  unfold Automaton.pop
  cases hbelow with
  | nil => exact hfinish.bind fun d d' hd => { h with stack := .nil, delivered := .some hd.1 }
  | @cons around around' rest rest' haround hrest =>
    obtain ⟨hhosts, _⟩ := hhosted
    refine hfinish.bind fun d d' hd => ?_
    have hreceipt := haround.onDelivery hd.1 fun hawaits => hd.2 (hhosts.eq_blank hawaits)
    refine hreceipt.mapError.bind fun receipt receipt' hreceipt => ?_
    refine { h with
      stack := .cons hreceipt.state hrest
      opening := hreceipt.opened
      notices := ?_ }
    dsimp only
    rw [h.notices, hreceipt.notices]

/-- The same answer is done. -/
theorem perform (h : a.Twin b) {x y : Step} (hxy : Step.Twin x y) (c? : Option Char)
    (hhosted : ∀ top below, a.stack = top :: below → HostedBy outer below top.layer) :
    Agree Progress.Twin (a.perform config c? x) (b.perform config c? y) := by
  have hpop : Agree (fun a b => a.Twin b) (a.pop config) (b.pop config) := by
    rcases hstack : a.stack with _ | ⟨top, below⟩
    · unfold Automaton.pop
      rw [hstack, h.stack_eq_nil hstack]
      exact h
    · obtain ⟨top', below', hstack', htop, hbelow⟩ := h.exists_stack_eq hstack
      have hhosted := hhosted top below hstack
      have hpop := h.pop hbelow hhosted (finish_agree config htop)
      rw [← hstack, ← hstack'] at hpop
      exact hpop.mono fun _ _ hboth => hboth.1
  cases hxy with
  | accept => exact .taken h
  | acceptAndComplete => exact hpop.bind fun _ _ hpopped => .taken hpopped
  | complete => exact hpop.bind fun _ _ hpopped => .passed hpopped
  | enter hinner => exact (h.push hinner).bind fun _ _ hpushed => .passed hpushed.1
  | absorb =>
    cases c? with
    | none => exact hpop.bind fun _ _ hpopped => .passed hpopped
    | some c =>
      have hfresh : (LeafReader.invalid (String.singleton c)).IsFresh := ⟨c, rfl⟩
      exact (h.push (twin_leaf hfresh)).bind fun _ _ hpushed => .taken hpushed.1

/-- A signal is kept after the end of the outermost states. -/
theorem keepLeftover (h : a.Twin b) (hsignal : ReaderSpelling.IsPlain signal) :
    (a.keepLeftover signal).Twin (b.keepLeftover signal) :=
  { h with leftover := ReaderSpelling.leftover_append h.leftover hsignal }

/-- What a step comes to: a signal is kept, a state is opened, or the innermost states react. -/
theorem step_agree (h : a.Twin b) {signal' : Signal} {T : Progress → Progress → Prop}
    (hkept : a.stack = [] → b.stack = [] →
      T (.taken (a.keepLeftover signal)) (.taken (b.keepLeftover signal')))
    (hopened : ∀ inner inner' more, a.opening = inner :: more → inner.OpenedTwin inner' →
      ∀ a' b' : Automaton, a'.Twin b' → a'.stack = inner :: a.stack → a'.opening = more →
        T (.passed a') (.passed b'))
    (hreacted : ∀ top top' below below', a.stack = top :: below → a.opening = [] →
      top.Twin top' → List.Forall₂ Reader.Twin below below' →
      Agree T
        (do let reaction ← ParseError.ofTree (top.onSignal config signal)
            { a with
              stack := reaction.state :: below
              notices := a.notices.merge reaction.notices }.perform config signal.toChar?
                reaction.step)
        (do let reaction ← ParseError.ofTree (top'.onSignal config signal')
            { b with
              stack := reaction.state :: below'
              notices := b.notices.merge reaction.notices }.perform config signal'.toChar?
                reaction.step)) :
    Agree T (a.step config signal) (b.step config signal') := by
  have hopenings : List.Forall₂ OpenedTwin a.opening b.opening := h.opening
  unfold Automaton.step
  rcases hstack : a.stack with _ | ⟨top, below⟩
  · rw [h.stack_eq_nil hstack]
    exact hkept hstack (h.stack_eq_nil hstack)
  · obtain ⟨top', below', hstack', htop, hbelow⟩ := h.exists_stack_eq hstack
    rw [hstack']
    rcases hopening : a.opening with _ | ⟨inner, more⟩
    · rw [h.opening_eq_nil hopening]
      have hreaction := hreacted top top' below below' hstack hopening htop hbelow
      rw [hopening, h.opening_eq_nil hopening] at hreaction
      exact hreaction
    · rw [hopening, List.forall₂_cons_left_iff] at hopenings
      obtain ⟨inner', more', hinner, hmore, hopening'⟩ := hopenings
      rw [hopening']
      have hless : Automaton.Twin { a with stack := top :: below, opening := more }
          { b with stack := top' :: below', opening := more' } :=
        { h with stack := .cons htop hbelow, opening := hmore }
      refine (hless.push hinner.twin).bind fun a' b' hpushed => ?_
      exact hopened inner inner' more hopening hinner a' b' hpushed.1
        (by rw [hpushed.2, hstack]) (by rw [hpushed.2])

/-- A signal that is the same in the two spellings leads to the same step. -/
theorem step (h : a.Twin b) (hsuits : ReaderSpelling.Suits config)
    (hruns : a.Runs config signal n outer text) (hsignal : ReaderSpelling.IsPlain signal) :
    Agree Progress.Twin (a.step config signal) (b.step config signal) := by
  refine h.step_agree (fun _ _ => .taken (h.keepLeftover hsignal))
    (fun _ _ _ _ _ _ _ hpushed _ _ => .passed hpushed) ?_
  intro top top' below below' hstack hopening htop hbelow
  have hreaction : Agree (Reaction.Twin Reader.Twin) (top.onSignal config signal)
      (top'.onSignal config signal) := htop.onSignal hsuits hsignal
  refine ((hreaction.and fun _ => (hruns.fits hstack hopening).of_ok).mapError).bind
    fun reaction reaction' hboth => ?_
  obtain ⟨hreaction, hfits⟩ := hboth
  have hreacted : Automaton.Twin
      { a with stack := reaction.state :: below, notices := a.notices.merge reaction.notices }
      { b with stack := reaction'.state :: below', notices := b.notices.merge reaction'.notices } :=
    { h with
      stack := .cons hreaction.state hbelow
      notices := by dsimp only; rw [h.notices, hreaction.notices] }
  have hhosted (top'' : Reader) (below'' : List Reader)
      (heq : reaction.state :: below = top'' :: below'') : HostedBy outer below'' top''.layer := by
    obtain ⟨rfl, rfl⟩ := List.cons.inj heq
    rw [hfits.layer_eq]
    exact hruns.hosted hstack
  exact hreacted.perform hreaction.step _ hhosted

end Twin

end Automaton

end ScriptTree
