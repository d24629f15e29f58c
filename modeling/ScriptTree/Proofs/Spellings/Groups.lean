import ScriptTree.Grammar.Group
import ScriptTree.Proofs.Spellings.Expressions

/-!
# Groups of the two spellings are read alike

What a group does next depends on what it expects and on whether an entry is open, and the line
breaks between its items are extras.
-/

namespace ScriptTree.GroupReader.Twin

variable [ReaderSpelling]

variable {r r' : GroupReader} {token token' : Tree} {ts ts' : List Tree}

theorem setGoal (h : r.Twin r') (goal : GroupGoal) :
    ({ r with goal } : GroupReader).Twin { r' with goal } :=
  { h with goal := rfl }

theorem nodeKind_eq (h : r.Twin r') : r'.kind.nodeKind = r.kind.nodeKind :=
  congrArg _ h.kind

theorem isBare_eq (h : r.Twin r') : r'.kind.isBare = r.kind.isBare :=
  congrArg _ h.kind

theorem brackets?_eq (h : r.Twin r') : r'.kind.brackets? = r.kind.brackets? :=
  congrArg _ h.kind

theorem sealedForm (h : r.Twin r') : Form.Twin r.sealedForm r'.sealedForm := by
  rw [GroupReader.sealedForm, GroupReader.sealedForm]
  rcases h.entry.none_or_some with ⟨hnone, hnone'⟩ | ⟨_, _, hsome, hsome', hentry⟩
  · rw [hnone, hnone']
    exact h.form
  · rw [hsome, hsome']
    exact h.form.append (Form.twin_entry .item (Tree.twin_ofForm .keyValue hentry))

theorem sealEntry (h : r.Twin r') : r.sealEntry.Twin r'.sealEntry :=
  { h with form := h.sealedForm, entry := .none }

theorem pushExtras (h : r.Twin r') (hts : Tree.Twins ts ts') :
    (r.pushExtras ts).Twin (r'.pushExtras ts') := by
  unfold GroupReader.pushExtras
  rcases h.entry.none_or_some with ⟨hnone, hnone'⟩ | ⟨_, _, hsome, hsome', hentry⟩
  · rw [hnone, hnone']
    exact { h with form := h.form.append (Form.twin_extras hts), entry := .none }
  · rw [hsome, hsome']
    exact { h with entry := .some (hentry.append (Form.twin_extras hts)) }

theorem pushExtra (h : r.Twin r') (ht : token.Twin token') :
    (r.pushExtras [token]).Twin (r'.pushExtras [token']) :=
  h.pushExtras (.singleton ht)

theorem canStartItem_eq (h : r.Twin r') (c : Char) : r'.canStartItem c = r.canStartItem c := by
  rw [GroupReader.canStartItem, h.kind, h.ctx, GroupReader.canStartItem]

theorem itemReader (h : r.Twin r') : r.itemReader.Twin r'.itemReader := by
  unfold GroupReader.itemReader
  rw [h.kind, h.ctx]
  split
  · exact .sequence (SequenceReader.twin_start _ _ _)
  · exact .sequence (SequenceReader.twin_start _ _ _)
  · exact .expression (ExpressionReader.twin_start _)

/-! ### Tokens -/

/-- A new form, after which a separator may come. -/
theorem separated (h : r.Twin r') {form form' : List Entry} (hform : Form.Twin form form') :
    ({ r with form, expected := .separator } : GroupReader).Twin
      { r' with form := form', expected := .separator } :=
  { h with form := hform, expected := rfl }

theorem placeInner (h : r.Twin r') (ht : token.Twin token') :
    Agree Twin (r.placeInner token) (r'.placeInner token') :=
  (h.form.place h.nodeKind_eq .inner ht).bind fun _ _ hform => h.separated hform

theorem placeKey (h : r.Twin r') (ht : token.Twin token') :
    Agree Twin (r.placeKey token) (r'.placeKey token') := by
  have hsealed := h.sealEntry
  unfold GroupReader.placeKey
  rw [h.nodeKind_eq]
  refine (agree_self _).bind fun _ _ _ => ?_
  refine (Form.Twin.place .nil rfl .key ht).bind fun _ _ hentry => ?_
  exact { hsealed with entry := .some hentry, expected := rfl }

theorem placeElement (h : r.Twin r') (ht : token.Twin token') :
    Agree Twin (r.placeElement token) (r'.placeElement token') :=
  (h.form.addItem h.nodeKind_eq ht).bind fun _ _ hform => h.separated hform

theorem placeItem (h : r.Twin r') (ht : token.Twin token') :
    Agree Twin (r.placeItem token) (r'.placeItem token') := by
  unfold GroupReader.placeItem
  rw [h.kind]
  split
  · exact h.placeInner ht
  · exact h.placeInner ht
  · exact h.placeKey ht
  · exact h.placeElement ht

theorem placeValue (h : r.Twin r') (ht : token.Twin token') :
    Agree Twin (r.placeValue token) (r'.placeValue token') := by
  unfold GroupReader.placeValue
  rcases h.entry.none_or_some with ⟨hnone, hnone'⟩ | ⟨entry, entry', hsome, hsome', hentry⟩
  · simp only [hnone, hnone']
    refine (h.form.addItem h.nodeKind_eq ht).bind fun _ _ hform => ?_
    exact { h with form := hform, entry := .none }
  · simp only [hsome, hsome']
    refine (hentry.place rfl .value ht).bind fun _ _ hentry => ?_
    have hplaced : Twin { r with entry := some _ } { r' with entry := some _ } :=
      { h with entry := .some hentry }
    exact hplaced.sealEntry

theorem reject (h : r.Twin r') (ht : token.Twin token') :
    (r.reject token).Twin (r'.reject token') := by
  unfold GroupReader.reject
  rw [h.isBare_eq, h.handback.isNone_eq]
  split
  · exact { h with handback := .some ht, done := rfl }
  · exact h.pushExtra ht.invalidated

/-! ### Signals -/

theorem onInnerChar (h : r.Twin r') (c : Char) :
    Agree (Reaction.Twin Twin) (r.onInnerChar c) (r'.onInnerChar c) := by
  have hsealed := h.sealEntry
  have hsingle : r'.kind.isSingle = r.kind.isSingle := congrArg _ h.kind
  have hdictionary : r'.kind = .dictionary ↔ r.kind = .dictionary := by rw [h.kind]
  have hseparator : r'.expected = .separator ↔ r.expected = .separator := by rw [h.expected]
  have hitem : r'.expected = .item ↔ r.expected = .item := by rw [h.expected]
  have hvalue : r'.expected = .value ↔ r.expected = .value := by rw [h.expected]
  have hctx : r'.ctx.canStart c = r.ctx.canStart c := by rw [h.ctx]
  unfold GroupReader.onInnerChar
  simp only [hsingle, hdictionary, hseparator, hitem, hvalue, hctx, h.isBare_eq,
    h.canStartItem_eq]
  split
  · have hform := hsealed.form.append (Form.twin_extra (Tree.twin_ofPunct .comma))
    exact ⟨{ hsealed with form := hform, expected := rfl }, .accept, rfl⟩
  · split
    · rcases h.entry.none_or_some with ⟨hnone, hnone'⟩ | ⟨entry, entry', hsome, hsome', hentry⟩
      · simp only [hnone, hnone']
        exact ⟨h, .absorb, rfl⟩
      · simp only [hsome, hsome']
        refine (hentry.place rfl .colon (Tree.twin_ofPunct .colon)).bind fun _ _ hentry => ?_
        exact ⟨{ h with entry := .some hentry, expected := rfl }, .accept, rfl⟩
    · split
      · exact ⟨h.setGoal .item, .enter h.itemReader, rfl⟩
      · split
        · exact ⟨h.setGoal .value, .enter h.itemReader, rfl⟩
        · split
          · exact ⟨h, .complete, rfl⟩
          · exact ⟨h, .absorb, rfl⟩

theorem onChar (h : r.Twin r') (c : Char) :
    Agree (Reaction.Twin Twin) (r.onChar c) (r'.onChar c) := by
  have hsealed := h.sealEntry
  unfold GroupReader.onChar
  rw [h.brackets?_eq]
  split
  · rename_i closing _
    split
    · refine (hsealed.form.place h.nodeKind_eq .closing (Tree.twin_ofPunct closing)).bind
        fun _ _ hform => ?_
      exact ⟨{ hsealed with form := hform }, .acceptAndComplete, rfl⟩
    · exact h.onInnerChar c
  · exact h.onInnerChar c

/-- The same signal meets with the same reaction. -/
theorem onSignal (h : r.Twin r') (signal : Signal) :
    Agree (Reaction.Twin Twin) (r.onSignal signal) (r'.onSignal signal) := by
  unfold GroupReader.onSignal
  rw [h.done, h.opened, h.brackets?_eq, h.isBare_eq]
  split
  · exact ⟨h, .complete, rfl⟩
  · split
    · split
      · rename_i opening closing _
        refine (h.form.place h.nodeKind_eq .opening (Tree.twin_ofPunct opening)).bind
          fun _ _ hform => ?_
        exact ⟨{ h with form := hform, opened := rfl, done := rfl }, .accept, rfl⟩
      · exact ⟨{ h with opened := rfl, done := rfl }, .accept, rfl⟩
    · split
      · exact ⟨h.pushExtra (.refl _), .accept, rfl⟩
      · rename_i leaf hleaf
        exact ⟨{ h with opened := rfl, goal := rfl, done := rfl },
          .enter (TriviaStart.twin_of_at? hleaf), rfl⟩
      · exact h.onChar _
      · exact ⟨h, .complete, rfl⟩
      · exact ⟨h, .complete, rfl⟩

/-! ### Deliveries -/

theorem onToken (h : r.Twin r') (goal : GroupGoal) (ht : token.Twin token') :
    Agree Twin (r.onToken goal token) (r'.onToken goal token') := by
  unfold GroupReader.onToken
  rw [ht.isTrivia_eq, ht.isInvalid_eq]
  split
  · exact h.pushExtra ht
  · cases goal with
    | trivia => exact h.pushExtra ht
    | item => exact h.placeItem ht
    | value => exact (h.placeValue ht).bind fun _ _ hr => { hr with expected := rfl }

theorem onHandback (h : r.Twin r') (ht : token.Twin token') :
    Agree Twin (r.onHandback token) (r'.onHandback token') := by
  unfold GroupReader.onHandback
  rw [ht.leafKind?_eq, h.expected]
  rcases h.entry.none_or_some with ⟨hnone, hnone'⟩ | ⟨entry, entry', hsome, hsome', hentry⟩
  · simp only [hnone, hnone']
    exact h.reject ht
  · simp only [hsome, hsome']
    split
    · refine (hentry.place rfl .assign ht).bind fun _ _ hentry => ?_
      exact { h with entry := .some hentry, expected := rfl }
    · exact h.reject ht

theorem onLine (h : r.Twin r') {line line' : LineStart} (hline : line.Twin line') :
    (r.onLine line).Twin (r'.onLine line') := by
  unfold GroupReader.onLine
  rw [h.isBare_eq]
  split
  · exact { h with line := .some hline, done := rfl }
  · refine h.pushExtras (Aligned.toList ?_)
    exact hline.indent.map fun _ _ ht => ht.withLeafKind _

/-- The same delivery meets with the same receipt. -/
theorem onDelivery (h : r.Twin r') {d d' : Delivery} (hd : d.Twin d') :
    Agree Twin (r.onDelivery d) (r'.onDelivery d') := by
  have hleading := (h.setGoal .trivia).pushExtras hd.leading
  have htoken : Agree Twin
      (({ r with goal := .trivia }.pushExtras d.leading).onToken? r.goal d.token)
      (({ r' with goal := .trivia }.pushExtras d'.leading).onToken? r'.goal d'.token) := by
    rw [h.goal]
    rcases hd.token.none_or_some with ⟨hnone, hnone'⟩ | ⟨_, _, hsome, hsome', ht⟩
    · rw [hnone, hnone']
      exact hleading
    · rw [hsome, hsome']
      exact hleading.onToken r.goal ht
  refine htoken.bind fun placed placed' hplaced => ?_
  have htrailing := hplaced.pushExtras hd.trailing
  have hhandback : Agree Twin ((placed.pushExtras d.trailing).onHandback? d.handback)
      ((placed'.pushExtras d'.trailing).onHandback? d'.handback) := by
    rcases hd.handback.none_or_some with ⟨hnone, hnone'⟩ | ⟨_, _, hsome, hsome', ht⟩
    · rw [hnone, hnone']
      exact htrailing
    · rw [hsome, hsome']
      exact htrailing.onHandback ht
  refine hhandback.bind fun handed handed' hhanded => ?_
  rcases hd.line.none_or_some with ⟨hnone, hnone'⟩ | ⟨_, _, hsome, hsome', hline⟩
  · rw [hnone, hnone']
    exact hhanded
  · rw [hsome, hsome']
    exact hhanded.onLine hline

/-- The same group is delivered. -/
theorem finish (h : r.Twin r') : r.finish.Twin r'.finish := by
  obtain ⟨hkept, htrailing⟩ := h.sealedForm.splitTrailing
  have hnode : Tree.Twin (.ofForm r.kind.nodeKind (Form.splitTrailing r.sealedForm).1)
      (.ofForm r'.kind.nodeKind (Form.splitTrailing r'.sealedForm).1) := by
    rw [h.nodeKind_eq]
    exact Tree.twin_ofForm _ hkept
  exact ⟨.nil, .some hnode, htrailing, h.handback, h.line⟩

end ScriptTree.GroupReader.Twin
