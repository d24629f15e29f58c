import ScriptTree.Proofs.Sequences
import ScriptTree.Proofs.Structure.Groups

/-!
# Productions stay orderly

What fills a part of a production is regular, and what fits none of the parts either loses its place
or is handed back.
-/

namespace ScriptTree

namespace Form

variable {a : Allowance} {form : List Entry} {slot : Slot}

/-- The occupant of a slot in a tidy form is regular. -/
theorem Tidy.occupant? (h : Tidy a form) {t : Tree} (ht : occupant? slot form = some t) :
    t.Regular := by
  obtain ⟨entry, hentry, rfl⟩ := Option.map_eq_some_iff.1 ht
  exact h.regular entry (List.mem_of_find?_eq_some hentry)

/-- The occupant of a slot may be taken out, unless it is an operator. -/
theorem Tidy.filter (h : Tidy a form) (hslot : slot ≠ .operator) :
    Tidy a (form.filter fun entry => entry.1 != .slot slot) := by
  induction form generalizing a with
  | nil => exact tidy_nil a
  | cons entry rest ih =>
    obtain ⟨hfirst, hregular, hrest⟩ := tidy_cons.1 h
    rw [List.filter_cons]
    split
    · exact tidy_cons.2 ⟨hfirst, hregular, ih hrest⟩
    · rename_i hdropped
      have hrole : entry.1 = .slot slot := by simpa using hdropped
      rw [Allowance.next_default (by simp [hrole]) (by simpa [hrole] using hslot)] at hrest
      exact (ih hrest).of_le (Allowance.le_of_default a)

/-- The same holds of the form of a plain node. -/
theorem Plain.filter {kind : NodeKind} (h : Plain kind form) (hslot : slot ≠ .operator) :
    Plain kind (form.filter fun entry => entry.1 != .slot slot) :=
  ⟨h.toTidy.filter hslot, h.suits.sublist List.filter_sublist⟩

end Form

namespace SequenceReader

variable {r : SequenceReader} {form : List Entry} {tokens : List Tree} {t token : Tree}
  {parts rest : List Part} {part : Part} {o : Origin}

theorem Orderly.setForm (h : r.Orderly) (hform : Form.Plain r.kind form) (remaining : List Part) :
    ({ r with form, remaining } : SequenceReader).Orderly :=
  { h with form := hform }

theorem Orderly.setActive (h : r.Orderly) (active : Option (Part × List Part)) :
    ({ r with active } : SequenceReader).Orderly :=
  { h with }

theorem Orderly.pushExtras (h : r.Orderly) (htokens : Form.Tidy {} (Form.extras tokens)) :
    (r.pushExtras tokens).Orderly :=
  h.setForm (h.form.extras htokens) _

/-- What an orderly production makes of a token. -/
abbrev Continues (receipt : Receipt SequenceReader) : Prop :=
  (receipt.map .sequence).Follows .sequence

/-- A production that opens no state. -/
theorem Orderly.continues (h : r.Orderly) : Continues { state := r } :=
  ⟨rfl, h⟩

/-- A state is opened for a part. -/
theorem Orderly.receives (h : r.Orderly)
    (ho : if part.shape.isLeaf then o = .word ∨ o = .symbol else o.isLeaf = false) :
    ({ r with active := some (part, rest) } : SequenceReader).Receives o where
  toOrderly := h.setActive _
  trivia := nofun
  active part' rest' heq := by
    cases heq
    exact ho

/-- A state is opened for trivia. -/
theorem Orderly.receives_trivia (h : r.Orderly) :
    ({ r with active := none } : SequenceReader).Receives .trivia where
  toOrderly := h.setActive _
  trivia _ := rfl
  active _ _ heq := by cases heq

/-! ### Offers -/

/-- What is made of a token that is offered, if any part that takes it makes that of it: as it is,
or as the first word of an expression. -/
theorem offer?_promises {P : Receipt SequenceReader → Prop}
    (hplace : ∀ (part : Part) rest, fills t part.shape →
      Promises (Form.place r.kind part.slot t r.form) fun form =>
        P { state := { r with form, remaining := rest } })
    (hseed : ∀ (part : Part) rest role, part.shape = .expression role →
      (r.context role).canStartWith t →
      Promises (ExpressionReader.seeded (r.context role) t) fun seeded =>
        P { state := { r with active := some (part, rest), remaining := part :: rest }
            opened := .expression seeded.state :: seeded.opened })
    (parts : List Part) :
    Promises (r.offer? t parts) fun receipt? => ∀ receipt ∈ receipt?, P receipt := by
  induction parts with
  | nil =>
    rw [SequenceReader.offer?]
    exact promises_ok.2 fun _ hreceipt => by cases hreceipt
  | cons part rest ih =>
    rw [SequenceReader.offer?]
    split
    · exact ih
    · split
      · rename_i hfills
        exact (hplace part rest hfills).bind fun _ htaken => promises_pure.2 (by simpa using htaken)
      · split
        · rename_i role hshape
          split
          · rename_i hstarts
            exact (hseed part rest role hshape hstarts).bind fun _ htaken =>
              promises_pure.2 (by simpa using htaken)
          · exact ih
        · exact ih

/-- What can begin an expression is a word. -/
theorem isWord_of_canStartWith {ctx : Context} (ht : t.IsRead) (h : ctx.canStartWith t) :
    t.IsWord := by
  refine ⟨ht, ?_⟩
  unfold Context.canStartWith at h
  split at h
  · rename_i hkind
    exact .inl hkind
  · rename_i hkind
    exact .inr (by simp [Tree.keyword?, hkind, LeafKind.keyword?])
  · cases h

/-- A part takes a token as it is, or as the first word of an expression. -/
theorem Orderly.offer? (h : r.Orderly) (ht : t.IsRead) (parts : List Part) :
    Promises (r.offer? t parts) fun receipt? => ∀ receipt ∈ receipt?, Continues receipt := by
  refine offer?_promises (fun part rest _ => ?_) (fun part rest role hshape hstarts => ?_) parts
  · exact (h.form.place h.isPlain ht.isLeaf.regular).mono fun _ hform =>
      (h.setForm hform _).continues
  · have hseeded : Promises (ExpressionReader.seeded (r.context role) t)
        ExpressionReader.Continues :=
      (ExpressionReader.orderly_start _).onWord rfl (isWord_of_canStartWith ht hstarts)
    have hactive : ({ r with remaining := part :: rest, active := some (part, rest) } :
        SequenceReader).Receives .expression :=
      (h.setForm h.form (part :: rest)).receives (by simp [hshape, Shape.isLeaf, Origin.isLeaf])
    exact hseeded.mono fun seeded hseeded => ⟨rfl, hactive, hseeded.nests⟩

/-- An offer that no part takes has the given outcome. -/
theorem Orderly.offerOr (h : r.Orderly) (ht : t.IsRead) (parts : List Part)
    {receipt : Receipt SequenceReader} (hreceipt : Continues receipt) :
    Promises (do return (← r.offer? t parts).getD receipt) Continues := by
  refine (h.offer? ht parts).bind fun receipt? hreceipt? => promises_pure.2 ?_
  cases receipt? with
  | none => exact hreceipt
  | some receipt => exact hreceipt? receipt rfl

/-- A token that was read before the production was chosen. -/
theorem Orderly.seed (h : r.Orderly) (ht : t.IsRead) : Promises (r.seed t) Continues := by
  unfold SequenceReader.seed
  split
  · rename_i htrivia
    exact promises_pure.2 (h.pushExtras (Form.tidy_trivia (by simp [htrivia]))).continues
  · exact h.offerOr ht _ (h.pushExtras (Form.tidy_invalidated ht.isLeaf)).continues

/-! ### Signals -/

/-- What an orderly production answers to a signal. -/
abbrev Answers (reaction : Reaction SequenceReader) : Prop :=
  (reaction.map .sequence).Follows .sequence

/-- The state that reads a part reads what the part asks for. -/
theorem orderly_partReader? {shape : Shape} {signal : Signal} {inner : Reader}
    (h : r.partReader? shape signal = some inner) :
    inner.Orderly ∧ if shape.isLeaf then inner.origin = .word ∨ inner.origin = .symbol
      else inner.origin.isLeaf = false := by
  unfold partReader? at h
  split at h
  case h_5 => cases h
  case h_9 => split at h <;> cases h <;> exact ⟨BlockReader.orderly_start _ _ _ _, rfl⟩
  all_goals cases h
  case h_1 | h_2 | h_3 => exact ⟨trivial, .inl rfl⟩
  case h_4 => exact ⟨trivial, .inr rfl⟩
  case h_6 => exact ⟨ExpressionReader.orderly_start _, rfl⟩
  all_goals exact ⟨GroupReader.orderly_start _ _, rfl⟩

/-- A part is begun. -/
theorem Orderly.startPart (h : r.Orderly) (part : Part) (rest : List Part) (signal : Signal) :
    Promises (r.startPart part rest signal) Answers := by
  unfold SequenceReader.startPart
  split
  · refine (h.form.place h.isPlain (.leaf _ _ _)).bind fun _ hform => promises_pure.2 ?_
    exact ⟨rfl, (h.setForm hform rest).setActive none⟩
  · split
    · rename_i inner hinner
      obtain ⟨horderly, horigin⟩ := orderly_partReader? hinner
      exact promises_pure.2 ⟨rfl, h.receives horigin, horderly⟩
    · exact promises_pure.2 ⟨rfl, h⟩

/-- A colon comes to announce accessors. -/
theorem Orderly.retargetColon (h : r.Orderly) : Promises r.retargetColon Orderly := by
  unfold SequenceReader.retargetColon
  dsimp only
  split
  · exact promises_pure.2 h
  · rename_i colon hcolon
    split
    · exact promises_pure.2 h
    · obtain ⟨hkept, htrailing⟩ := h.form.splitTrailing h.isPlain
      have hfiltered : Form.Plain r.kind ((Form.splitTrailing r.form).1.filter
          fun entry => entry.1 != .slot .typeColon) := hkept.filter (by decide)
      refine (hfiltered.place h.isPlain (h.form.occupant? hcolon)).bind fun _ hform => ?_
      exact promises_pure.2 (h.setForm (hform.extras htrailing) _)

theorem Orderly.beforePart (h : r.Orderly) (signal : Signal) :
    Promises (r.beforePart signal) Orderly := by
  unfold SequenceReader.beforePart
  split
  · exact h.retargetColon
  · exact promises_ok.2 h

/-- Every signal leaves the production orderly. -/
theorem Orderly.onSignal (h : r.Orderly) (signal : Signal) :
    Promises (r.onSignal signal) Answers := by
  unfold SequenceReader.onSignal
  split
  · exact promises_pure.2 ⟨rfl, h⟩
  · split
    · rename_i leaf htrivia
      obtain ⟨hleaf, horigin⟩ := TriviaStart.orderly_of_inline? htrivia
      refine promises_pure.2 ⟨rfl, ?_, hleaf⟩
      dsimp only [Reader.origin]
      rw [horigin]
      exact h.receives_trivia
    · split
      · exact promises_pure.2 ⟨rfl, h⟩
      · refine (h.beforePart _).bind fun s hs => ?_
        split
        · exact hs.startPart _ _ _
        · exact promises_pure.2 ⟨rfl, hs⟩

/-! ### Deliveries -/

/-- A token is handed on, and one that was to be handed on before loses its place. -/
theorem Orderly.handBack (h : r.Orderly) (ht : t.IsRead) : (r.handBack t).Orderly := by
  have hhandback : ∀ t' ∈ some t, t'.IsRead := fun _ heq => Option.mem_some_iff.1 heq ▸ ht
  unfold SequenceReader.handBack
  split
  · rename_i earlier hearlier
    have hlost := h.pushExtras (Form.tidy_invalidated (h.handback earlier hearlier).isLeaf)
    exact { hlost with handback := hhandback }
  · exact { h with handback := hhandback }

/-- What a production makes of the token that it opened a state for. Only a word may open another
state. -/
structure Handled (o : Origin) (receipt : Receipt SequenceReader) : Prop where
  continues : Continues receipt
  inner : o.isLeaf = false → receipt.opened = []

theorem Orderly.handled (h : r.Orderly) : Handled o { state := r } :=
  ⟨h.continues, fun _ => rfl⟩

/-- What is delivered for no part is trivia, and what is delivered for a word is one. -/
theorem Orderly.onToken (h : r.Orderly) {active : Option (Part × List Part)}
    (hactive : ({ r with active } : SequenceReader).Receives o) (ht : t.Regular)
    (hsuits : o.Suits t) : Promises (r.onToken active t) (Handled o) := by
  unfold SequenceReader.onToken
  split
  · rename_i htrivia
    exact promises_pure.2 (h.pushExtras (Form.tidy_trivia htrivia)).handled
  · split
    · obtain rfl := hactive.trivia rfl
      exact promises_pure.2 (h.pushExtras (Form.tidy_trivia hsuits)).handled
    · rename_i part rest
      have horigin := hactive.active part rest rfl
      split
      · rename_i hleaf
        rw [if_pos hleaf] at horigin
        have hread : t.IsRead ∧ o.isLeaf = true := by
          rcases horigin with rfl | rfl
          · exact ⟨hsuits.toIsRead, rfl⟩
          · obtain ⟨text, rfl⟩ := hsuits
            exact ⟨Tree.isRead_symbol text, rfl⟩
        refine (h.offerOr hread.1 _ (h.handBack hread.1).continues).mono fun _ hreceipt => ?_
        exact ⟨hreceipt, fun ho => by rw [hread.2] at ho; cases ho⟩
      · exact (h.form.place h.isPlain ht).bind fun _ hform =>
          promises_pure.2 (h.setForm hform _).handled

/-- A token that a state inside could not place. -/
theorem Orderly.onHandback (h : r.Orderly) (ht : t.IsRead) :
    Promises (r.onHandback t) Continues := by
  unfold SequenceReader.onHandback
  split
  · exact promises_pure.2 (h.handBack ht).continues
  · exact h.offerOr ht _ (h.handBack ht).continues

/-- The beginning of a line ends the production. -/
theorem Continues.onLine? {receipt : Receipt SequenceReader} (h : Continues receipt)
    {line? : Option LineStart} (hline : ∀ line ∈ line?, line.IsOrderly) :
    Continues { state := receipt.state.onLine? line?, opened := receipt.opened } := by
  cases line? with
  | none => exact ⟨rfl, h.nests⟩
  | some line =>
    have hended {r : SequenceReader} (h : r.Orderly) : (r.onLine? (some line)).Orderly :=
      { h with line := hline }
    obtain ⟨state, opened, notices⟩ := receipt
    refine ⟨rfl, ?_⟩
    cases opened with
    | nil =>
      have hstate : state.Orderly := h.nests
      exact hended hstate
    | cons inner more =>
      obtain ⟨hreceives, hmore⟩ := h.nests
      have hstate : state.Receives inner.origin := hreceives
      exact ⟨{ hstate with toOrderly := hended hstate.toOrderly }, hmore⟩

/-- Every delivery leaves the production orderly. -/
theorem Receives.onDelivery {d : Delivery} (h : r.Receives o) (hd : d.FitsFrom o) :
    Promises (r.onDelivery d) Continues := by
  have hleading := (h.toOrderly.setActive none).pushExtras hd.leading
  have htoken : Promises
      (({ r with active := none }.pushExtras d.leading).onToken? r.active d.token) (Handled o) := by
    cases htoken : d.token with
    | none =>
      unfold SequenceReader.onToken?
      cases r.active with
      | none => exact promises_ok.2 hleading.handled
      | some active => exact promises_ok.2 (hleading.setForm hleading.form _).handled
    | some t =>
      obtain ⟨ht, hsuits⟩ := hd.token t htoken
      refine hleading.onToken ⟨hleading.setActive _, h.trivia, h.active⟩ ht hsuits
  refine htoken.bind fun first hfirst => ?_
  cases ho : o.isLeaf with
  | true =>
    obtain ⟨_, htrailing, hhandback, hline⟩ := hd.alone ho
    rw [htrailing, hhandback, hline]
    refine promises_pure.2 ⟨rfl, ?_⟩
    simpa [SequenceReader.pushExtras, SequenceReader.onLine?, Receipt.map]
      using hfirst.continues.nests
  | false =>
    have hopened := hfirst.inner ho
    have hstate : first.state.Orderly := by
      have hnests := hfirst.continues.nests
      simp only [Receipt.map, hopened] at hnests
      exact hnests
    have htrailing := hstate.pushExtras hd.trailing
    have hhandback : Promises ((first.state.pushExtras d.trailing).onHandback? d.handback)
        Continues := by
      cases hhandback : d.handback with
      | none => exact promises_ok.2 htrailing.continues
      | some t => exact htrailing.onHandback (hd.handback t hhandback)
    refine hhandback.bind fun second hsecond => promises_pure.2 ?_
    rw [hopened, List.nil_append]
    exact hsecond.onLine? hd.line

/-- What the production delivers. -/
theorem Orderly.finish (h : r.Orderly) : r.finish.FitsFrom .sequence := by
  obtain ⟨hkept, htrailing⟩ := h.form.splitTrailing h.isPlain
  exact {
    leading := Form.tidy_nil _
    token := fun t ht => by
      obtain rfl := Option.mem_some_iff.1 ht
      exact ⟨hkept.regular_ofForm (h.isPlain),
        Tree.isLooseOperand_ofForm h.kind _⟩
    trailing := htrailing
    handback := h.handback
    line := h.line
    alone := nofun }

end SequenceReader

end ScriptTree
