import ScriptTree.Proofs.Endings.Readers
import ScriptTree.Proofs.Innermost
import ScriptTree.Proofs.Structure.Parsing

/-!
# Where nodes end

Every node inside a parsed tree is trimmed. So a node whose last leaf is trivia was cut off at its
right end: there stands an entry of a dictionary that never got its value, or a part without any text
behind the trivia.
-/

namespace ScriptTree

/-- What the outermost state delivers, which may be the whole of an expression with all that stands
around it. A list is delivered on its own and trimmed. -/
structure Delivery.NeatFrom (d : Delivery) (outer : Origin) : Prop where
  leading : ∀ t ∈ d.leading, t.Trimmed
  token : ∀ kind form, d.token = some (.ofForm kind form) → Form.Neat form
  trailing : ∀ t ∈ d.trailing, t.Trimmed
  list : ∀ kind, outer = .block kind → d.leading = [] ∧ ∀ t ∈ d.token, t.Trimmed

namespace Reader

variable {r : Reader} {config : Config}

/-- A list and a production deliver a node, and nothing before it. -/
theorem finish_promises_node
    (h : r.origin = .sequence ∨ ∃ kind, r.origin = .block kind) :
    Promises (r.finish config) fun d =>
      d.leading = [] ∧ ∃ kind form, d.token = some (.ofForm kind form) := by
  cases r with
  | sequence r => exact promises_ok.2 ⟨rfl, _, _, rfl⟩
  | block r => exact promises_ok.2 ⟨rfl, _, _, rfl⟩
  | leaf r => cases r <;> simp [Reader.origin, LeafReader.origin] at h
  | expression | group | root => simp [Reader.origin] at h

/-- What a neat state delivers when it is the outermost one. -/
theorem Neat.finish_neatFrom (h : r.Neat) :
    Promises (r.finish config) fun d => d.NeatFrom r.origin := by
  by_cases hroot : r.origin = .root
  · cases r with
    | root r =>
      refine promises_ok.2 ⟨by simp [RootReader.finish], fun kind form heq => ?_,
        by simp [RootReader.finish], fun kind heq => by cases heq⟩
      cases heq
      exact h
    | leaf r => cases r <;> cases hroot
    | _ => cases hroot
  · refine (h.finish config hroot).and (fun d hd => ?_ : Promises (r.finish config) fun d =>
      ∀ kind, r.origin = .block kind → d.leading = []) |>.mono fun d hd => ?_
    · exact fun kind hkind => (finish_promises_node (.inr ⟨kind, hkind⟩) d hd).1
    · refine ⟨hd.1.leading, fun kind form heq => ?_, hd.1.trailing, fun kind hkind =>
        ⟨hd.2 kind hkind, hd.1.token⟩⟩
      exact Form.neat_of_trimmed (hd.1.token _ heq)

end Reader

namespace Automaton

open Reader

/-- An automaton all of whose states are neat but perhaps the innermost one. Only the outermost
state reads the whole of an expression. -/
structure HoldsNeat (a : Automaton) (outer : Origin) : Prop where
  around : ∀ r ∈ a.stack, r.NeatAround
  inner : .root ∉ (a.stack.map origin).dropLast
  opening : ∀ r ∈ a.opening, r.NeatOpened
  delivered : ∀ d ∈ a.delivered, d.NeatFrom outer

/-- An automaton whose states are neat, but perhaps for an innermost leaf. -/
structure Neat (a : Automaton) (outer : Origin) : Prop extends a.HoldsNeat outer where
  top : a.opening = [] → ∀ r ∈ a.stack.head?, r.NeatOrLeaf

variable {config : Config} {signal : Signal} {outer : Origin} {layer : Layer} {a : Automaton}
  {top : Reader} {below : List Reader} {text : String}

/-- A neat state is opened inside the innermost one. -/
theorem push_neat (h : a.HoldsNeat outer) {inner : Reader} (hinner : inner.NeatInner) :
    Promises (a.push config inner) (Neat · outer) := by
  obtain ⟨hneat, horigin⟩ := hinner.neatOrLeaf
  have hpush : Meets True (a.push config inner) (· = { a with stack := inner :: a.stack }) :=
    push_meets (fun _ => trivial) inner
  refine hpush.promises.mono fun a' ha' => ?_
  subst ha'
  refine ⟨⟨List.forall_mem_cons.2 ⟨.neat hneat, h.around⟩, ?_, h.opening, h.delivered⟩,
    fun _ r hr => ?_⟩
  · have hlast := h.inner
    dsimp only
    cases hstack : a.stack with
    | nil => simp
    | cons r rest =>
      rw [hstack] at hlast
      rw [List.map_cons, List.map_cons, List.dropLast_cons_cons, ← List.map_cons]
      simpa using ⟨horigin.symm, hlast⟩
  · obtain rfl := Option.mem_some_iff.1 hr
    exact hneat

/-- A state that ends leaves the ones around it neat. -/
theorem pop_neat (h : a.HoldsNeat outer) (hneat : top.Neat) (hstack : a.stack = top :: below)
    (hbelow : Surrounds outer below top.origin) (htop : top.Orderly) :
    Promises (a.pop config) (Neat · outer) := by
  have haround := h.around
  have hinner := h.inner
  rw [hstack] at haround hinner
  unfold pop
  rw [hstack]
  cases below with
  | nil =>
    refine hneat.finish_neatFrom.bind fun d hd => promises_pure.2 ?_
    rw [show top.origin = outer from hbelow] at hd
    refine ⟨⟨by simp, by simp, h.opening, fun d' hd' => ?_⟩, fun _ => by simp⟩
    obtain rfl := Option.mem_some_iff.1 hd'
    exact hd
  | cons outside below =>
    obtain ⟨hreceives, -⟩ := hbelow
    rw [List.map_cons, List.map_cons, List.dropLast_cons_cons, List.mem_cons, not_or] at hinner
    obtain ⟨-, houtside, hrest⟩ := List.forall_mem_cons.1 haround |>.imp_right List.forall_mem_cons.1
    refine (((htop.finish config).and (hneat.finish config (Ne.symm hinner.1))).and
      fun d hd (hsequence : top.origin = .sequence) =>
        finish_promises_node (.inl hsequence) d hd).bind fun d hd => ?_
    obtain ⟨⟨hfits, hd⟩, hsequence⟩ := hd
    refine (((hreceives.onDelivery hfits).and
      (houtside.onDelivery hreceives hfits hd hsequence)).mapError).bind fun receipt hreceipt =>
        promises_pure.2 ?_
    obtain ⟨hfollows, hreceipt⟩ := hreceipt
    refine ⟨⟨List.forall_mem_cons.2 ⟨hreceipt.around, hrest⟩, ?_, hreceipt.opened, h.delivered⟩,
      fun hnone r hr => ?_⟩
    · rw [List.map_cons, hfollows.origin, ← List.map_cons]
      exact hinner.2
    · obtain rfl := Option.mem_some_iff.1 hr
      exact (hreceipt.alone hnone).neatOrLeaf

/-- What a neat state answers leaves all states neat. -/
theorem perform_neat (h : a.Neat outer) (hneat : top.Neat) (hstack : a.stack = top :: below)
    (hbelow : Surrounds outer below top.origin) {step : Step}
    (hfollows : step.Follows top) (hentered : ∀ inner, step = .enter inner → inner.NeatInner)
    (c? : Option Char) :
    Promises (a.perform config c? step) (Progress.Has (Neat · outer)) := by
  have hpop (htop : top.Orderly) : Promises (a.pop config) (Neat · outer) :=
    pop_neat h.toHoldsNeat hneat hstack hbelow htop
  cases step with
  | accept => exact promises_pure.2 h
  | acceptAndComplete => exact (hpop hfollows).bind fun _ ha' => promises_pure.2 ha'
  | complete => exact (hpop hfollows).bind fun _ ha' => promises_pure.2 ha'
  | enter inner =>
    exact (push_neat h.toHoldsNeat (hentered inner rfl)).bind fun _ ha' => promises_pure.2 ha'
  | absorb =>
    have hreceives : top.Receives .trivia := hfollows
    cases c? with
    | none => exact (hpop hreceives.orderly).bind fun _ ha' => promises_pure.2 ha'
    | some c =>
      have habsorb : Promises (a.absorb config c) (Neat · outer) := push_neat h.toHoldsNeat trivial
      exact habsorb.bind fun _ ha' => promises_pure.2 ha'

/-- Every step leaves the states neat if it leaves an innermost leaf with text. -/
theorem Neat.step (h : a.Neat outer) (horder : a.InOrder outer) (hafter : a.HoldsTextAfter signal) :
    Promises (a.step config signal) (Progress.Has (Neat · outer)) := by
  unfold Automaton.step
  cases horder with
  | ended d hstack hdelivered hd =>
    rw [hstack]
    exact promises_ok.2 { h with }
  | «open» top below hstack hbelow hnests =>
    rw [hstack]
    cases hopening : a.opening with
    | cons inner more =>
      have hmore := h.opening
      rw [hopening, List.forall_mem_cons] at hmore
      have hholds : HoldsNeat { a with stack := top :: below, opening := more } outer :=
        ⟨hstack ▸ h.around, hstack ▸ h.inner, hmore.2, h.delivered⟩
      exact (push_neat hholds hmore.1.inner.1).bind fun _ ha' => promises_pure.2 ha'
    | nil =>
      rw [hopening] at hnests
      have htop : top.Orderly := hnests
      have hneat : top.NeatOrLeaf := h.top hopening top (by simp [hstack])
      have hleaf (leaf : LeafReader) (heq : top = .leaf leaf) : (leaf.feed signal).1.text ≠ "" :=
        hafter leaf below (by rw [hstack, heq]) hopening
      have haround := h.around
      have hinner := h.inner
      rw [hstack] at haround hinner
      refine (((htop.onSignal config signal).and (hneat.onSignal config hleaf)).mapError).bind
        fun reaction hreaction => ?_
      obtain ⟨hfollows, hreaction⟩ := hreaction
      rw [← hfollows.origin] at hbelow
      have hnext : Neat { a with
          stack := reaction.state :: below
          opening := []
          notices := a.notices.merge reaction.notices } outer := by
        refine ⟨⟨List.forall_mem_cons.2 ⟨.neat hreaction.state.neatOrLeaf,
            (List.forall_mem_cons.1 haround).2⟩, ?_, by simp, h.delivered⟩, fun _ r hr => ?_⟩
        · rw [List.map_cons, hfollows.origin, ← List.map_cons]
          exact hinner
        · obtain rfl := Option.mem_some_iff.1 hr
          exact hreaction.state.neatOrLeaf
      exact perform_neat hnext hreaction.state rfl hbelow hfollows.step hreaction.entered _

theorem stepsKeepText_neat (outer : Origin) :
    StepsKeepText config fun a => a.InOrder outer ∧ a.Neat outer where
  step signal a h hafter := by
    refine (h.1.step.and (h.2.step h.1 hafter)).mono fun progress hprogress => ?_
    cases progress <;> exact hprogress
  opening a h inner hinner := (h.2.opening inner hinner).inner.2

/-- What a text is read as is neat. -/
theorem run_neat {root : Reader} (hroot : root.Orderly) (hneat : root.Neat)
    (hleaf : ∀ leaf, root ≠ .leaf leaf) (hrests : root.Rests)
    (hempty : root.text = "") (text : String) :
    Promises (run config root text) fun result => result.1.NeatFrom root.origin := by
  refine (promises_start hrests hempty).bind fun a ha => ?_
  obtain ⟨rfl, hreads⟩ := ha
  have hstart : InOrder root.origin { stack := [root] } ∧ Neat { stack := [root] } root.origin :=
    ⟨.open root [] rfl rfl hroot, ⟨by simpa using .neat hneat.neatOrLeaf, by simp, by simp, by simp⟩,
      fun _ r hr => by obtain rfl := Option.mem_some_iff.1 hr; exact hneat.neatOrLeaf⟩
  have hholds : HoldsText { stack := [root] } :=
    fun leaf below heq => absurd (List.cons.inj heq).1 (hleaf leaf)
  refine (feed_keepsText (stepsKeepText_neat root.origin) hstart hholds hreads text.toList).bind
    fun a' ha' => ?_
  obtain ⟨hkept, hholds', text', hreads'⟩ := ha'
  refine (finish_keepsText (stepsKeepText_neat root.origin) hkept hholds' hreads').mono
    fun result hresult => ?_
  obtain ⟨b, ⟨horder, hb⟩, hend, hdelivery⟩ := hresult
  rw [hdelivery]
  cases horder with
  | «open» top below hstack hbelow hnests =>
    rw [hend] at hstack
    cases hstack
  | ended d hstack hdelivered hd =>
    have hneat := hb.delivered d hdelivered
    rw [hdelivered]
    refine { hneat with trailing := List.forall_mem_append.2 ⟨hneat.trailing, ?_⟩ }
    split
    · simp
    · rename_i hleftover
      simpa using Tree.trimmed_ofText .invalid fun hempty => hleftover (by simp [hempty])

end Automaton

namespace Entrance

variable {entrance : Entrance} {d : Delivery} {form : List Entry}

/-- Every text is read as something neat from every entry point. -/
theorem run_neatFrom (entrance : Entrance) (config : Config) (text : String) :
    Promises (Automaton.run config entrance.reader text) fun result =>
      result.1.NeatFrom entrance.reader.origin := by
  obtain ⟨hrests, -, hempty⟩ := entrance.reader_rests
  refine Automaton.run_neat ?_ ?_ ?_ hrests hempty text
  · cases entrance with
    | expression => exact ⟨Form.plain_nil _, fun hfilled => by cases hfilled⟩
    | _ => exact BlockReader.orderly_start ..
  · cases entrance with
    | expression => exact Form.neat_nil
    | _ => exact BlockReader.neat_start ..
  · cases entrance <;> simp [reader]

/-- The children of a node with extras around it are neat. -/
theorem neat_surround {leading trailing : List Tree} (hleading : ∀ t ∈ leading, t.Trimmed)
    (hform : Form.Neat form) (htrailing : ∀ t ∈ trailing, t.Trimmed) :
    Form.Neat (Form.extras leading ++ form ++ Form.extras trailing) :=
  (Form.neat_append.2 ⟨Form.neat_extras.2 hleading, hform⟩).extras htrailing

/-- The only item of a list is neat with everything around it moved into it. -/
theorem neat_hoistItem {list : Tree} (h : Form.Neat list.form) : Form.Neat (hoistItem list).form := by
  unfold hoistItem
  split
  · rename_i kind form extent before entry after hitems hspan
    rw [eq_of_items_eq_singleton hitems hspan] at h
    obtain ⟨hbefore, hrest⟩ := Form.neat_append.1 h
    obtain ⟨hitem, hafter⟩ := Form.neat_cons.1 hrest
    exact neat_surround (by simpa using fun t role => hbefore.trimmed (role, t))
      (Form.neat_of_trimmed hitem.1) (by simpa using fun t role => hafter.trimmed (role, t))
  · exact h

/-- The children of the root are neat. -/
theorem neat_rootOf (hd : d.NeatFrom entrance.reader.origin)
    (htoken : d.token = some (.ofForm entrance.topKind form)) :
    Promises (entrance.rootOf d) fun t => Form.Neat t.form := by
  have hform := hd.token _ _ htoken
  have hroot := neat_surround hd.leading hform hd.trailing
  unfold Entrance.rootOf
  rw [htoken]
  cases entrance with
  | statements => exact promises_ok.2 hroot
  | expression => exact promises_ok.2 hroot
  | statement => exact promises_ok.2 (neat_hoistItem hroot)
  | file =>
    obtain ⟨hleading, htrimmed⟩ := hd.list .members rfl
    rw [hleading]
    have hmembers : Promises (surround [] [] (.ofForm .classMembersList form))
        fun t => t.Trimmed ∧ t.isTrivia = false := by
      refine promises_ok.2 ⟨?_, rfl⟩
      simpa [Form.extras, Tree.ofForm, Entrance.topKind] using htrimmed _ htoken
    refine hmembers.bind fun members hmembers => (promises_true _).bind fun _ _ => promises_pure.2 ?_
    exact Form.neat_cons.2 ⟨⟨hmembers.1, fun _ => hmembers.2⟩, Form.neat_extras.2 hd.trailing⟩

end Entrance

/-! ### Giving every token its place -/

@[simp]
theorem Tree.isTrivia_placeFrom (start : Position) (t : Tree) :
    (t.placeFrom start).1.isTrivia = t.isTrivia := by
  simp [Tree.isTrivia, Tree.leafKind?]

namespace Form

variable {kind : NodeKind} {form : List Entry}

theorem IsTrimmed.placeForm (start : Position) (h : IsTrimmed kind form) :
    IsTrimmed kind (Tree.placeForm start form).1 where
  placed entry hentry hrole := by
    obtain ⟨old, hold, hsame, place, hplace⟩ := exists_of_mem_placeForm hentry
    rw [hplace, Tree.isTrivia_placeFrom]
    exact h.placed old hold (hsame ▸ hrole)
  ends := by simpa [EndsPlaced] using h.ends
  link := by simpa using h.link

end Form

theorem Tree.Trimmed.placeFrom {t : Tree} (h : t.Trimmed) (start : Position) :
    (t.placeFrom start).1.Trimmed := by
  induction h generalizing start with
  | leaf kind extent text => exact .leaf _ _ text
  | node extent own children ih =>
    rw [Tree.placeFrom]
    refine .node _ (own.placeForm start) fun entry hentry => ?_
    obtain ⟨old, hold, -, place, hplace⟩ := Form.exists_of_mem_placeForm hentry
    rw [hplace]
    exact ih old hold place

theorem Form.Neat.placeForm {form : List Entry} (start : Position) (h : Form.Neat form) :
    Form.Neat (Tree.placeForm start form).1 where
  trimmed entry hentry := by
    obtain ⟨old, hold, -, place, hplace⟩ := Form.exists_of_mem_placeForm hentry
    rw [hplace]
    exact (h.trimmed old hold).placeFrom place
  placed entry hentry hrole := by
    obtain ⟨old, hold, hsame, place, hplace⟩ := Form.exists_of_mem_placeForm hentry
    rw [hplace, Tree.isTrivia_placeFrom]
    exact h.placed old hold (hsame ▸ hrole)

/-- Children stay neat when every token is given its place. -/
theorem neat_placed {root : Tree} (h : Form.Neat root.form) : Form.Neat root.placed.form := by
  cases root with
  | leaf kind s extent => exact Form.neat_nil
  | node kind form extent =>
    simpa [Tree.placed, Tree.placedAt, Tree.placeFrom, Tree.form] using h.placeForm .start

/-- The children of the root of a parsed tree are trimmed, and only extras among them are trivia. -/
theorem neat_of_parse {entrance : Entrance} {config : Config} {text : String} {t : Tree}
    (h : parse entrance config text = .ok t) : Form.Neat t.form := by
  have hboth := (entrance.run_delivers config text).and (entrance.run_neatFrom config text)
  have hparse : Promises (parse entrance config text) fun t => Form.Neat t.form := by
    refine hboth.bind fun result hresult => ?_
    obtain ⟨⟨form, hform⟩, hneat⟩ := hresult
    refine (Entrance.neat_rootOf hneat hform.token).mapError.bind fun root hroot =>
      promises_pure.2 (neat_placed hroot)
  exact hparse t h

/-! ### The right end of a node -/

namespace Tree

/-- A tree without leaves holds no text. -/
theorem text_of_leaves (t : Tree) (h : t.leaves = []) : t.text = "" := by
  induction t using Tree.induction with
  | leaf kind s extent => simp [leaves] at h
  | node kind form extent ih =>
    rw [leaves] at h
    rw [text_node]
    induction form with
    | nil => rfl
    | cons entry rest ihrest =>
      obtain ⟨role, t⟩ := entry
      rw [leavesOfForm, List.append_eq_nil_iff] at h
      rw [textOfForm_cons, ih _ List.mem_cons_self h.1,
        ihrest (fun entry hentry => ih entry (List.mem_cons_of_mem _ hentry)) h.2]
      rfl

theorem leavesOfForm_append (form more : List Entry) :
    leavesOfForm (form ++ more) = leavesOfForm form ++ leavesOfForm more := by
  induction form with
  | nil => rfl
  | cons entry rest ih =>
    obtain ⟨role, t⟩ := entry
    simp [leavesOfForm, ih]

/-- What is true of every node is true of the nodes of a child. -/
theorem EveryNode.of_mem {P : NodeKind → List Entry → Prop} {t : Tree} {entry : Entry}
    (h : t.EveryNode P) (hentry : entry ∈ t.form) : entry.2.EveryNode P := by
  cases h with
  | leaf kind s extent => cases hentry
  | node extent own children => exact children entry hentry

theorem EveryNode.own {P : NodeKind → List Entry → Prop} {t : Tree} {kind : NodeKind}
    (h : t.EveryNode P) (hkind : t.nodeKind? = some kind) : P kind t.form := by
  cases h with
  | leaf kind' s extent => cases hkind
  | node extent own children =>
    cases hkind
    exact own

end Tree

namespace Form

variable {kind : NodeKind} {form : List Entry}

/-- The last leaf of a node is trivia. -/
def EndsInTrivia (form : List Entry) : Prop :=
  ∃ leaf ∈ (Tree.leavesOfForm form).getLast?, leaf.1.isTrivia

instance (form : List Entry) : Decidable (EndsInTrivia form) :=
  inferInstanceAs (Decidable (∃ leaf ∈ (Tree.leavesOfForm form).getLast?, leaf.1.isTrivia))

/-- A node that is cut off at its right end: an entry of a dictionary without its value, a node whose
last part holds no text, or one whose last part is cut off. -/
inductive EndsCutOff : NodeKind → List Entry → Prop
  | value {form : List Entry} (h : .slot .value ∉ roles form) : EndsCutOff .keyValue form
  | empty {kind : NodeKind} {before : List Entry} {role : Role} {t : Tree}
    (hrole : role ≠ .extra) (ht : t.text = "") : EndsCutOff kind (before ++ [(role, t)])
  | last {kind kind' : NodeKind} {before form : List Entry} {role : Role} {extent : Extent}
    (hrole : role ≠ .extra) (h : EndsCutOff kind' form) :
    EndsCutOff kind (before ++ [(role, .node kind' form extent)])

/-- A trimmed tree's nodes end in trivia only where they are cut off. -/
theorem endsCutOff_of_trimmed {t : Tree} (h : t.Trimmed) :
    t.EveryNode fun kind form => EndsInTrivia form → EndsCutOff kind form := by
  induction h with
  | leaf kind text extent => exact .leaf _ _ _
  | @node kind form extent own children ih =>
    refine .node _ (fun htrivia => ?_) ih
    rcases own.ends with hends | ⟨rfl, hvalue⟩
    · rcases List.eq_nil_or_concat form with rfl | ⟨before, ⟨role, t⟩, hform⟩
      · obtain ⟨leaf, hleaf, -⟩ := htrivia
        cases hleaf
      · rw [List.concat_eq_append] at hform
        subst hform
        have hrole : role ≠ .extra := by simpa [EndsPlaced] using hends
        by_cases htext : t.text = ""
        · exact .empty hrole htext
        · have hmem : (role, t) ∈ before ++ [(role, t)] := by simp
          have hleaves : t.leaves ≠ [] := fun hnone => htext (t.text_of_leaves hnone)
          have hlast : (Tree.leavesOfForm (before ++ [(role, t)])).getLast? = t.leaves.getLast? := by
            rw [Tree.leavesOfForm_append, Tree.leavesOfForm, Tree.leavesOfForm, List.append_nil,
              List.getLast?_append_of_ne_nil _ hleaves]
          cases t with
          | leaf kind' s extent' =>
            obtain ⟨leaf, hleaf, htrivia⟩ := htrivia
            rw [hlast] at hleaf
            obtain rfl : (kind', s, extent') = leaf := by simpa [Tree.leaves] using hleaf
            have hplaced := own.placed _ hmem hrole
            rw [Tree.isTrivia] at hplaced
            cases htrivia.symm.trans hplaced
          | node kind' form' extent' =>
            cases ih _ hmem with
            | node _ hown _ =>
              refine .last hrole (hown ?_)
              rw [EndsInTrivia, hlast] at htrivia
              exact htrivia
    · exact .value hvalue

end Form

/-- No node inside a parsed tree ends in trivia, unless it is cut off at its right end: by an entry
of a dictionary that never got its value, which takes up all trivia until it would, or by a part
without any text. -/
theorem endsCutOff_of_parse {entrance : Entrance} {config : Config} {text : String} {t : Tree}
    (h : parse entrance config text = .ok t) :
    ∀ entry ∈ t.form, entry.2.EveryNode fun kind form =>
      Form.EndsInTrivia form → Form.EndsCutOff kind form :=
  fun entry hentry => Form.endsCutOff_of_trimmed ((neat_of_parse h).trimmed entry hentry)

/-- The entry of a dictionary that never got its value ends with the blank behind its key. -/
theorem exists_endsInTrivia :
    ∃ t, parse .file .unlimited "var x = {a }" = .ok t ∧
      ∃ members ∈ t.form, ∃ declaration ∈ members.2.form, ∃ initializer ∈ declaration.2.form,
        ∃ pair ∈ initializer.2.form, pair.2.nodeKind? = some .keyValue ∧
          Form.EndsInTrivia pair.2.form := by
  have hpair : (parse .file .unlimited "var x = {a }").toOption.any (fun t =>
      t.form.any fun members => members.2.form.any fun declaration =>
        declaration.2.form.any fun initializer => initializer.2.form.any fun pair =>
          pair.2.nodeKind? == some .keyValue && decide (Form.EndsInTrivia pair.2.form)) = true := by
    decide +kernel
  obtain ⟨t, ht, hany⟩ := exists_of_any_toOption hpair
  simp only [List.any_eq_true, Bool.and_eq_true, beq_iff_eq, decide_eq_true_eq] at hany
  exact ⟨t, ht, hany⟩

/-- Among the nodes of this text only those end in trivia that are cut off. -/
theorem endsCutOff_of_parse_key_without_value :
    ∃ t, parse .file .unlimited "var x = {a }" = .ok t ∧
      ∀ entry ∈ t.form, entry.2.EveryNode fun kind form =>
        Form.EndsInTrivia form → Form.EndsCutOff kind form := by
  obtain ⟨t, ht, _⟩ := exists_endsInTrivia
  exact ⟨t, ht, endsCutOff_of_parse ht⟩

/-- It is not true of every text that no node inside its tree ends in trivia. -/
theorem endsInTrivia_of_key_without_value :
    ∃ t, parse .file .unlimited "var x = {a }" = .ok t ∧
      ¬∀ entry ∈ t.form, entry.2.EveryNode fun _ form => ¬Form.EndsInTrivia form := by
  obtain ⟨t, ht, members, hmembers, declaration, hdeclaration, initializer, hinitializer, pair, hpair,
    hkind, hends⟩ := exists_endsInTrivia
  refine ⟨t, ht, fun h => ?_⟩
  have hwithin := (((h members hmembers).of_mem hdeclaration).of_mem hinitializer).of_mem hpair
  exact hwithin.own hkind hends

end ScriptTree
