import ScriptTree.Proofs.Groups
import ScriptTree.Proofs.Structure.Expressions

/-!
# Groups stay orderly

Between its brackets a group holds items, commas, trivia and text without a place. The entry of a
dictionary that is still open is a form of its own, of which the same is true.
-/

namespace ScriptTree

/-- Groups become nodes that are put together part by part. -/
theorem GroupKind.isLoose_nodeKind (kind : GroupKind) : kind.nodeKind.isLoose := by
  cases kind <;> rfl

theorem GroupKind.isPlain_nodeKind (kind : GroupKind) : kind.nodeKind.isPlain :=
  NodeKind.isPlain_of_isLoose kind.isLoose_nodeKind

namespace GroupReader

variable {r : GroupReader} {form : List Entry} {tokens : List Tree} {t : Tree}

/-! ### Places -/

theorem Orderly.setForm (h : r.Orderly) (hform : Form.Plain r.kind.nodeKind form) (expected : GroupExpectation) :
    ({ r with form, expected } : GroupReader).Orderly :=
  { h with form := hform }

theorem Orderly.setEntry (h : r.Orderly) (hholds : r.kind.nodeKind.hasItems) {entry : List Entry}
    (hentry : Form.Plain .keyValue entry) (expected : GroupExpectation) :
    ({ r with entry := some entry, expected } : GroupReader).Orderly :=
  { h with
    entry := fun _ heq => Option.mem_some_iff.1 heq ▸ hentry
    holds := fun _ => hholds }

/-- A group with an open entry holds items. -/
theorem Orderly.hasItems (h : r.Orderly) {entry : List Entry} (hentry : r.entry = some entry) :
    r.kind.nodeKind.hasItems :=
  h.holds (by rw [hentry]; rfl)

/-- The open entry is closed as an item. -/
theorem Orderly.sealedForm (h : r.Orderly) : Form.Plain r.kind.nodeKind r.sealedForm := by
  unfold GroupReader.sealedForm
  split
  · rename_i entry hentry
    have hnode : (Tree.ofForm .keyValue entry).Regular :=
      (h.entry entry hentry).regular_ofForm rfl
    have hitem : r.kind.nodeKind.checkRole .item = .ok () := by
      simp [NodeKind.checkRole, h.hasItems hentry]
    exact h.form.append (Form.plain_singleton (by simp) hitem hnode) (by simp)
  · exact h.form

theorem Orderly.sealEntry (h : r.Orderly) : r.sealEntry.Orderly :=
  { h with form := h.sealedForm, entry := nofun, holds := nofun }

/-- Extras are added where the group is being read. -/
theorem Orderly.pushExtras (h : r.Orderly) (htokens : Form.Tidy {} (Form.extras tokens)) :
    (r.pushExtras tokens).Orderly := by
  unfold GroupReader.pushExtras
  split
  · rename_i entry hentry
    exact h.setEntry (h.hasItems hentry) ((h.entry entry hentry).extras htokens) _
  · exact h.setForm (h.form.extras htokens) _

theorem Orderly.placeInner (h : r.Orderly) (ht : t.Regular) :
    Promises (r.placeInner t) Orderly :=
  (h.form.place r.kind.isPlain_nodeKind ht).bind fun _ hform =>
    promises_pure.2 (h.setForm hform _)

theorem Orderly.placeKey (h : r.Orderly) (hholds : r.kind.nodeKind.hasItems) (ht : t.Regular) :
    Promises (r.placeKey t) Orderly := by
  unfold GroupReader.placeKey
  refine (promises_true _).bind fun _ _ => ?_
  refine ((Form.plain_nil _).place rfl ht).bind fun _ hentry => ?_
  exact promises_pure.2 (h.sealEntry.setEntry hholds hentry _)

theorem Orderly.placeElement (h : r.Orderly) (ht : t.Regular) :
    Promises (r.placeElement t) Orderly :=
  (h.form.addItem ht).bind fun _ hform => promises_pure.2 (h.setForm hform _)

/-- An item has its place in every group. -/
theorem Orderly.placeItem (h : r.Orderly) (ht : t.Regular) :
    Promises (r.placeItem t) Orderly := by
  unfold GroupReader.placeItem
  split
  · exact h.placeInner ht
  · exact h.placeInner ht
  · rename_i hkind
    exact h.placeKey (by rw [hkind]; rfl) ht
  · exact h.placeElement ht

/-- A value completes the open entry. -/
theorem Orderly.placeValue (h : r.Orderly) (ht : t.Regular) :
    Promises (r.placeValue t) Orderly := by
  unfold GroupReader.placeValue
  split
  · rename_i entry hentry
    refine ((h.entry entry hentry).place rfl ht).bind fun _ hplaced => promises_pure.2 ?_
    exact (h.setEntry (h.hasItems hentry) hplaced r.expected).sealEntry
  · exact (h.form.addItem ht).bind fun _ hform => promises_pure.2 { h with form := hform }

/-- A token that has no position loses its place, unless it is handed back. -/
theorem Orderly.reject (h : r.Orderly) (ht : t.IsRead) : (r.reject t).Orderly := by
  unfold GroupReader.reject
  split
  · exact { h with handback := fun _ heq => Option.mem_some_iff.1 heq ▸ ht }
  · exact h.pushExtras (Form.tidy_invalidated ht.isLeaf)

/-! ### Signals -/

theorem Orderly.itemReader (h : r.Orderly) (goal : GroupGoal) (hgoal : goal ≠ .trivia) :
    ({ r with goal } : GroupReader).Receives r.itemReader.origin ∧ r.itemReader.Orderly := by
  refine ⟨⟨{ h with }, fun heq => absurd heq hgoal⟩, ?_⟩
  unfold GroupReader.itemReader
  split
  · exact SequenceReader.orderly_start rfl _ _
  · exact SequenceReader.orderly_start rfl _ _
  · exact ExpressionReader.orderly_start _

/-- What an orderly group answers to a signal. -/
abbrev Answers (reaction : Reaction GroupReader) : Prop :=
  (reaction.map .group).Follows .group

/-- Text without a place begins where nothing else may. -/
theorem Orderly.follows_absorb (h : r.Orderly) : Answers ⟨r, .absorb, {}⟩ :=
  ⟨rfl, h, fun _ => rfl⟩

/-- A character that does not close the group. -/
theorem Orderly.onInnerChar (h : r.Orderly) (c : Char) :
    Promises (r.onInnerChar c) Answers := by
  unfold GroupReader.onInnerChar
  split
  · have hcomma : Form.Tidy {} (Form.extras [.ofPunct .comma]) := Form.tidy_extra rfl (.leaf _ _ _)
    exact promises_pure.2 ⟨rfl, h.sealEntry.setForm (h.sealEntry.form.extras hcomma) _⟩
  · split
    · split
      · exact promises_pure.2 h.follows_absorb
      · rename_i entry hentry
        refine ((h.entry entry hentry).place rfl (.leaf _ _ _)).bind fun _ hplaced => ?_
        exact promises_pure.2 ⟨rfl, h.setEntry (h.hasItems hentry) hplaced _⟩
    · split
      · exact promises_pure.2 ⟨rfl, h.itemReader .item nofun⟩
      · split
        · exact promises_pure.2 ⟨rfl, h.itemReader .value nofun⟩
        · split
          · exact promises_pure.2 ⟨rfl, h⟩
          · exact promises_pure.2 h.follows_absorb

/-- A character that is no trivia. -/
theorem Orderly.onChar (h : r.Orderly) (c : Char) : Promises (r.onChar c) Answers := by
  unfold GroupReader.onChar
  split
  · split
    · refine (h.sealEntry.form.place r.kind.isPlain_nodeKind (.leaf _ _ _)).bind
        fun _ hform => ?_
      exact promises_pure.2 ⟨rfl, { h.sealEntry with form := hform }⟩
    · exact h.onInnerChar c
  · exact h.onInnerChar c

/-- Every signal leaves the group orderly. -/
theorem Orderly.onSignal (h : r.Orderly) (signal : Signal) :
    Promises (r.onSignal signal) Answers := by
  unfold GroupReader.onSignal
  split
  · exact promises_pure.2 ⟨rfl, h⟩
  · split
    · split
      · refine (h.form.place r.kind.isPlain_nodeKind (.leaf _ _ _)).bind fun _ hform => ?_
        exact promises_pure.2 ⟨rfl, { h with form := hform }⟩
      · exact promises_pure.2 ⟨rfl, { h with }⟩
    · split
      · rename_i t htrivia
        have ht : t.isTrivia = true := TriviaStart.orderly_of_at? htrivia
        exact promises_pure.2 ⟨rfl, h.pushExtras (Form.tidy_trivia (by simp [ht]))⟩
      · rename_i leaf htrivia
        obtain ⟨hleaf, horigin⟩ := TriviaStart.orderly_of_at? htrivia
        exact promises_pure.2 ⟨rfl, ⟨{ h with }, fun _ => horigin⟩, hleaf⟩
      · exact h.onChar _
      · exact promises_pure.2 ⟨rfl, h⟩
      · exact promises_pure.2 ⟨rfl, h⟩

/-! ### Deliveries -/

/-- The token that a state was opened for. -/
theorem Orderly.onToken (h : r.Orderly) {goal : GroupGoal} {o : Origin}
    (hgoal : goal = .trivia → o = .trivia) (ht : t.Regular) (hsuits : o.Suits t) :
    Promises (r.onToken goal t) Orderly := by
  unfold GroupReader.onToken
  split
  · rename_i htrivia
    exact promises_pure.2 (h.pushExtras (Form.tidy_trivia htrivia))
  · cases goal with
    | trivia =>
      obtain rfl := hgoal rfl
      exact promises_pure.2 (h.pushExtras (Form.tidy_trivia hsuits))
    | item => exact h.placeItem ht
    | value => exact (h.placeValue ht).bind fun _ hr => promises_pure.2 { hr with }

/-- A token that a state inside could not place. -/
theorem Orderly.onHandback (h : r.Orderly) (ht : t.IsRead) :
    Promises (r.onHandback t) Orderly := by
  unfold GroupReader.onHandback
  split
  · rename_i entry hentry
    split
    · refine ((h.entry entry hentry).place rfl ht.isLeaf.regular).bind fun _ hplaced => ?_
      exact promises_pure.2 (h.setEntry (h.hasItems hentry) hplaced _)
    · exact promises_pure.2 (h.reject ht)
  · exact promises_pure.2 (h.reject ht)

/-- The beginning of a line that ended a state inside. -/
theorem Orderly.onLine (h : r.Orderly) {line : LineStart} (hline : line.IsOrderly) :
    (r.onLine line).Orderly := by
  unfold GroupReader.onLine
  split
  · exact { h with line := fun _ heq => Option.mem_some_iff.1 heq ▸ hline }
  · refine h.pushExtras ?_
    cases hindent : line.indent with
    | none => exact Form.tidy_nil _
    | some indent =>
      have hleaf := Tree.isLeaf_of_isTrivia (hline indent hindent)
      refine Form.tidy_trivia ?_
      simp [Tree.isTrivia, hleaf.withLeafKind, LeafKind.isTrivia]

/-- Every delivery leaves the group orderly. -/
theorem Receives.onDelivery {o : Origin} {d : Delivery} (h : r.Receives o) (hd : d.FitsFrom o) :
    Promises (r.onDelivery d) Orderly := by
  have hidle : ({ r with goal := .trivia } : GroupReader).Orderly := { h.toOrderly with }
  have hleading := hidle.pushExtras hd.leading
  have htoken : Promises
      (({ r with goal := .trivia }.pushExtras d.leading).onToken? r.goal d.token) Orderly := by
    cases htoken : d.token with
    | none => exact promises_ok.2 hleading
    | some t =>
      obtain ⟨ht, hsuits⟩ := hd.token t htoken
      exact hleading.onToken h.goal ht hsuits
  refine htoken.bind fun placed hplaced => ?_
  have htrailing := hplaced.pushExtras hd.trailing
  have hhandback : Promises ((placed.pushExtras d.trailing).onHandback? d.handback) Orderly := by
    cases hhandback : d.handback with
    | none => exact promises_ok.2 htrailing
    | some t => exact htrailing.onHandback (hd.handback t hhandback)
  refine hhandback.bind fun handed hhanded => promises_pure.2 ?_
  cases hline : d.line with
  | none => exact hhanded
  | some line => exact hhanded.onLine (hd.line line hline)

/-- What the group delivers. -/
theorem Orderly.finish (h : r.Orderly) : r.finish.FitsFrom .group := by
  obtain ⟨hkept, htrailing⟩ := h.sealedForm.splitTrailing r.kind.isPlain_nodeKind
  exact {
    leading := Form.tidy_nil _
    token := fun t ht => by
      obtain rfl := Option.mem_some_iff.1 ht
      exact ⟨hkept.regular_ofForm r.kind.isPlain_nodeKind,
        Tree.isLooseOperand_ofForm r.kind.isLoose_nodeKind _⟩
    trailing := htrailing
    handback := h.handback
    line := h.line
    alone := nofun }

end GroupReader

end ScriptTree
