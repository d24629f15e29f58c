import ScriptTree.Proofs.Parsing

/-!
# What a text leads to

Reading is followed from one stack of open states to another. After a word, an operator or white
space the leaf is still open, since more of it might follow; whatever ends it is then taken as if
the leaf had ended before.
-/

namespace ScriptTree

/-- No limits on depth are set. -/
structure Config.IsUnlimited (config : Config) : Prop where
  stack : config.maxReadingStack = none
  frames : config.maxTraceFrames = none

/-- When `top` ends, the state around it takes the delivery; the given states are then open in its
place. -/
def Reader.HandsTo (config : Config) (top outer : Reader) (stack : List Reader) : Prop :=
  ∃ d receipt, top.finish config = .ok d ∧ outer.onDelivery d = .ok receipt ∧
    receipt.notices = {} ∧ stack = receipt.opened.reverse ++ [receipt.state]

/-- A delivery that opens no further states. -/
theorem Reader.HandsTo.of_onDelivery {config : Config} {top outer after : Reader} {d : Delivery}
    (hfinish : top.finish config = .ok d) (h : outer.onDelivery d = .ok { state := after }) :
    top.HandsTo config outer [after] :=
  ⟨d, { state := after }, hfinish, h, rfl, rfl⟩

namespace Automaton

/-- The automaton with the given open states, which noticed nothing. -/
def ofStack (stack : List Reader) : Automaton := { stack }

/-- The automaton whose outermost state has ended. -/
def ofDelivery (d : Delivery) : Automaton := { delivered := some d }

/-- A signal is taken within some steps. -/
inductive Delivers (config : Config) (signal : Signal) : Automaton → Automaton → Prop where
  | taken {a b : Automaton} (h : a.step config signal = .ok (.taken b)) :
      Delivers config signal a b
  | passed {a between b : Automaton} (h : a.step config signal = .ok (.passed between))
      (hrest : Delivers config signal between b) : Delivers config signal a b

/-- Characters are taken one after another. -/
inductive Feeds (config : Config) : Automaton → List Char → Automaton → Prop where
  | nil (a : Automaton) : Feeds config a [] a
  | cons {a between b : Automaton} {c : Char} {cs : List Char}
      (h : Delivers config (.ofChar c) a between) (hrest : Feeds config between cs b) :
      Feeds config a (c :: cs) b

/-- After the characters, a signal that passes the test is taken as from `b`. -/
def Reaches (config : Config) (Ends : Signal → Prop) (a : Automaton) (cs : List Char)
    (b : Automaton) : Prop :=
  ∃ between, Feeds config a cs between ∧ ∀ signal d, Ends signal →
    Delivers config signal b d → Delivers config signal between d

/-- The first character passes a test. -/
def Begins (Ends : Signal → Prop) (cs : List Char) : Prop :=
  ∃ c rest, cs = c :: rest ∧ Ends (.ofChar c)

variable {config : Config} {signal : Signal} {outer : Layer} {a b d : Automaton} {text : String}
  {cs ds : List Char} {Ends Ends' : Signal → Prop} {top top' inner around : Reader}
  {below stack : List Reader}

theorem begins_cons {c : Char} (hc : Ends (.ofChar c)) : Begins Ends (c :: cs) :=
  ⟨c, cs, rfl, hc⟩

theorem Begins.append (h : Begins Ends cs) : Begins Ends (cs ++ ds) := by
  obtain ⟨c, rest, rfl, hc⟩ := h
  exact ⟨c, rest ++ ds, rfl, hc⟩

theorem Begins.mono (h : Begins Ends cs) (hends : ∀ signal, Ends signal → Ends' signal) :
    Begins Ends' cs := by
  obtain ⟨c, rest, rfl, hc⟩ := h
  exact ⟨c, rest, rfl, hends _ hc⟩

/-- The bound on the number of steps is not reached. -/
theorem Delivers.signal_eq (h : Delivers config signal a b) (hreads : a.Reads outer text) :
    a.signal config signal = .ok b := by
  have hruns : a.Runs config signal a.stepLimit outer text := hreads.runs
  rw [Automaton.signal]
  generalize a.stepLimit = n at hruns
  clear hreads
  induction h generalizing n with
  | taken h =>
    obtain ⟨m, rfl⟩ : ∃ m, n = m + 1 := ⟨n - 1, (Nat.sub_add_cancel hruns.pos).symm⟩
    rw [deliver, h]
    rfl
  | passed h _ ih =>
    obtain ⟨m, rfl⟩ : ∃ m, n = m + 1 := ⟨n - 1, (Nat.sub_add_cancel hruns.pos).symm⟩
    rw [deliver, h]
    exact ih m (hruns.promises_step _ h)

namespace Feeds

theorem append (h : Feeds config a cs b) (h' : Feeds config b ds d) :
    Feeds config a (cs ++ ds) d := by
  induction h with
  | nil _ => exact h'
  | cons h _ ih => exact .cons h (ih h')

/-- The characters are read one after another. -/
theorem feed_eq (h : Feeds config a cs b) (hreads : a.Reads outer text) :
    a.feed config cs = .ok b := by
  induction h generalizing text with
  | nil _ => rfl
  | @cons a between b c cs h _ ih =>
    have hsignal := h.signal_eq hreads
    rw [feed, List.foldlM_cons, hsignal]
    exact ih (hreads.promises_signal _ _ hsignal).1

end Feeds

namespace Reaches

theorem refl (config : Config) (Ends : Signal → Prop) (a : Automaton) :
    Reaches config Ends a [] a :=
  ⟨a, .nil a, fun _ _ _ h => h⟩

theorem of_feeds (h : Feeds config a cs b) : Reaches config Ends a cs b :=
  ⟨b, h, fun _ _ _ h => h⟩

theorem mono (h : Reaches config Ends a cs b) (hends : ∀ signal, Ends' signal → Ends signal) :
    Reaches config Ends' a cs b := by
  obtain ⟨between, hfeeds, hdelivers⟩ := h
  exact ⟨between, hfeeds, fun signal d hsignal => hdelivers signal d (hends signal hsignal)⟩

/-- One text after another: the first character of the second one ends the first one. -/
theorem trans (h : Reaches config Ends a cs b) (h' : Reaches config Ends' b ds d)
    (hbegins : Begins Ends ds) : Reaches config Ends' a (cs ++ ds) d := by
  obtain ⟨between, hfeeds, hdelivers⟩ := h
  obtain ⟨between', hfeeds', hdelivers'⟩ := h'
  obtain ⟨c, rest, rfl, hc⟩ := hbegins
  cases hfeeds' with
  | cons hfirst hrest =>
    exact ⟨between', hfeeds.append (.cons (hdelivers _ _ hc hfirst) hrest), hdelivers'⟩

/-- One text after another, of which the second one ends with what was read. -/
theorem feeds (h : Reaches config Ends a cs b) (h' : Feeds config b ds d)
    (hbegins : Begins Ends ds) : Feeds config a (cs ++ ds) d := by
  obtain ⟨between, hfeeds, hdelivers⟩ := h
  obtain ⟨c, rest, rfl, hc⟩ := hbegins
  cases h' with
  | cons hfirst hrest => exact hfeeds.append (.cons (hdelivers _ _ hc hfirst) hrest)

/-- States that end at any signal that comes next. -/
theorem trans_nil (h : Reaches config Ends a cs b) (h' : Reaches config Ends b [] d) :
    Reaches config Ends a cs d := by
  obtain ⟨between, hfeeds, hdelivers⟩ := h
  obtain ⟨between', hfeeds', hdelivers'⟩ := h'
  cases hfeeds'
  exact ⟨between, hfeeds, fun signal d hsignal hd =>
    hdelivers _ _ hsignal (hdelivers' _ _ hsignal hd)⟩

/-- One text after another, of which the second one may be empty. -/
theorem trans_of_eq_nil_or (h : Reaches config Ends a cs b) (h' : Reaches config Ends b ds d)
    (hbegins : ds = [] ∨ Begins Ends ds) : Reaches config Ends a (cs ++ ds) d := by
  rcases hbegins with rfl | hbegins
  · rw [List.append_nil]
    exact trans_nil h h'
  · exact trans h h' hbegins

end Reaches

/-- The innermost state takes a signal. -/
theorem delivers_accept (h : top.onSignal config signal = .ok ⟨top', .accept, {}⟩) :
    Delivers config signal (ofStack (top :: below)) (ofStack (top' :: below)) := by
  refine .taken ?_
  simp only [step, ofStack, h]
  rfl

/-- The innermost state opens another one. -/
theorem delivers_enter (hconfig : config.IsUnlimited)
    (h : top.onSignal config signal = .ok ⟨top', .enter inner, {}⟩)
    (hrest : Delivers config signal (ofStack (inner :: top' :: below)) b) :
    Delivers config signal (ofStack (top :: below)) b := by
  refine .passed ?_ hrest
  simp only [step, ofStack, h, ParseError.ofTree_ok, bind, Except.bind, perform, push,
    hconfig.stack, checkDepth, ParseError.ofDepth]
  rfl

/-- States that are about to be opened are opened. -/
theorem delivers_opening (hconfig : config.IsUnlimited) {opening : List Reader}
    (hrest : Delivers config signal (ofStack (opening.reverse ++ stack)) b) (hstack : stack ≠ []) :
    Delivers config signal { stack, opening } b := by
  induction opening generalizing stack with
  | nil => exact hrest
  | cons inner more ih =>
    rw [List.reverse_cons, List.append_assoc] at hrest
    obtain ⟨top, below, rfl⟩ := List.exists_cons_of_ne_nil hstack
    refine .passed ?_ (ih hrest (List.cons_ne_nil _ _))
    simp only [step, bind, Except.bind, push, hconfig.stack, checkDepth, ParseError.ofDepth]
    rfl

/-- The innermost state ends, and hands what it read to the state around it. -/
theorem delivers_complete (hconfig : config.IsUnlimited)
    (h : top.onSignal config signal = .ok ⟨top', .complete, {}⟩)
    (hhands : top'.HandsTo config around stack)
    (hrest : Delivers config signal (ofStack (stack ++ below)) b) :
    Delivers config signal (ofStack (top :: around :: below)) b := by
  obtain ⟨d, receipt, hfinish, hreceipt, hnotices, rfl⟩ := hhands
  rw [List.append_assoc, List.singleton_append] at hrest
  refine .passed ?_ (delivers_opening hconfig hrest (List.cons_ne_nil _ _))
  simp only [step, ofStack, h, ParseError.ofTree_ok, bind, Except.bind, perform, pop,
    hfinish, hreceipt, hnotices]
  rfl

/-- The innermost state takes a signal and ends. -/
theorem delivers_acceptAndComplete
    (h : top.onSignal config signal = .ok ⟨top', .acceptAndComplete, {}⟩)
    {around' : Reader} (hhands : top'.HandsTo config around [around']) :
    Delivers config signal (ofStack (top :: around :: below)) (ofStack (around' :: below)) := by
  obtain ⟨d, ⟨state, opened, notices⟩, hfinish, hreceipt, hnotices, hstack⟩ := hhands
  obtain rfl : notices = {} := hnotices
  have happend : [] ++ [around'] = opened.reverse ++ [state] := hstack
  obtain ⟨hopened, hstate⟩ := List.append_inj' happend rfl
  obtain rfl : opened = [] := by simpa using hopened.symm
  obtain rfl : around' = state := List.singleton_inj.1 hstate
  refine .taken ?_
  simp only [step, ofStack, h, ParseError.ofTree_ok, bind, Except.bind, perform, pop,
    hfinish, hreceipt]
  rfl

/-- The outermost state ends with the text. -/
theorem delivers_endOfText (h : top.onSignal config .endOfText = .ok ⟨top', .complete, {}⟩)
    {delivery : Delivery} (hfinish : top'.finish config = .ok delivery) :
    Delivers config .endOfText (ofStack [top]) (ofDelivery delivery) := by
  have hpassed : (ofStack [top]).step config .endOfText = .ok (.passed (ofDelivery delivery)) := by
    simp only [step, ofStack, h, ParseError.ofTree_ok, bind, Except.bind, perform,
      pop, hfinish]
    rfl
  exact .passed hpassed (.taken rfl)

/-- Characters are read inside a state that the first one opens. -/
theorem feeds_enter (hconfig : config.IsUnlimited) {Begin : Signal → Prop}
    (hbegins : Begins Begin cs)
    (htop : ∀ signal, Begin signal → top.onSignal config signal = .ok ⟨top', .enter inner, {}⟩)
    (h : Feeds config (ofStack (inner :: top' :: below)) cs b) :
    Feeds config (ofStack (top :: below)) cs b := by
  obtain ⟨c, rest, rfl, hc⟩ := hbegins
  cases h with
  | cons hfirst hrest => exact .cons (delivers_enter hconfig (htop _ hc) hfirst) hrest

/-- A text is read inside a state that its first character opens. -/
theorem reaches_enter (hconfig : config.IsUnlimited) {Begin : Signal → Prop}
    (hbegins : Begins Begin cs)
    (htop : ∀ signal, Begin signal → top.onSignal config signal = .ok ⟨top', .enter inner, {}⟩)
    (h : Reaches config Ends (ofStack (inner :: top' :: below)) cs b) :
    Reaches config Ends (ofStack (top :: below)) cs b := by
  obtain ⟨between, hfeeds, hdelivers⟩ := h
  exact ⟨between, feeds_enter hconfig hbegins htop hfeeds, hdelivers⟩

/-- A state ends at what comes next. -/
theorem reaches_complete (hconfig : config.IsUnlimited)
    (htop : ∀ signal, Ends signal → top.onSignal config signal = .ok ⟨top', .complete, {}⟩)
    (hhands : top'.HandsTo config around stack) :
    Reaches config Ends (ofStack (top :: around :: below)) [] (ofStack (stack ++ below)) :=
  ⟨_, .nil _, fun signal _ hends hd => delivers_complete hconfig (htop signal hends) hhands hd⟩

/-- A text is parsed as the tree that its reading comes to. -/
theorem Reaches.parse_eq (hconfig : config.IsUnlimited) (entrance : Entrance) {text : String}
    {d : Delivery} {t : Tree}
    (h : Reaches config Ends (ofStack [entrance.reader]) text.toList (ofStack stack))
    (hends : Ends .endOfText) (hend : Delivers config .endOfText (ofStack stack) (ofDelivery d))
    (hroot : entrance.rootOf d = .ok t) : parse entrance config text = .ok t.placed := by
  obtain ⟨between, hfeeds, hdelivers⟩ := h
  obtain ⟨hrests, _, hempty⟩ := entrance.reader_rests
  have hstart : start config entrance.reader = .ok (ofStack [entrance.reader]) := by
    simp only [start, push, hconfig.stack, checkDepth, ParseError.ofDepth]
    rfl
  have hopen : (ofStack [entrance.reader]).Reads entrance.reader.layer "" :=
    (promises_start hrests hempty _ hstart).2
  have hfeed : (ofStack [entrance.reader]).feed config text.toList = .ok between :=
    hfeeds.feed_eq hopen
  have hread := hopen.promises_feed _ _ hfeed
  have hsignal : between.signal config .endOfText = .ok (ofDelivery d) :=
    (hdelivers _ _ hends hend).signal_eq hread
  have hfinish : between.finish config = .ok (d, {}) := by
    rw [finish, hsignal]
    simp [unwind, ofDelivery, bind, Except.bind, pure, Except.pure]
  have hrun : run config entrance.reader text = .ok (d, {}) := by
    rw [run, hstart]
    simp only [bind, Except.bind, hfeed, hfinish]
  rw [parse, hrun]
  simp only [bind, Except.bind, hroot, ParseError.ofTree_ok]
  rfl

end Automaton

end ScriptTree
