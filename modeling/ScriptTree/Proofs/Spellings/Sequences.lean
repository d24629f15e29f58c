import ScriptTree.Proofs.Spellings.Expressions
import ScriptTree.Proofs.Sequences

/-!
# Productions of the two spellings are read alike

Which part of a production comes next depends on the slots that are filled and on the token or the
signal at hand, and never on the line breaks before it.
-/

namespace ScriptTree

variable [ReaderSpelling]

/-- What can begin an expression is the same in the two spellings. -/
theorem Context.canStartWith_eq (ctx : Context) {word word' : Tree} (h : word.Twin word') :
    ctx.canStartWith word' = ctx.canStartWith word := by
  rw [canStartWith, h.leafKind?_eq, canStartWith]

/-- A block of which nothing was read is its own twin. -/
theorem BlockReader.twin_start (kind : BlockKind) (mode : BlockMode) (level : Option Nat)
    (phase : BlockPhase) : (start kind mode level phase).Twin (start kind mode level phase) :=
  ⟨rfl, .nil, rfl, rfl, rfl, .none, rfl, .nil, rfl, rfl, .none⟩

namespace SequenceReader

open Production (Spelled)

/-- A token fills the same parts in the two spellings. -/
theorem fills_eq {token token' : Tree} (h : token.Twin token') {shape : Shape}
    (hshape : ∀ text, shape = .contextual text → Text.IsSolid text) :
    fills token' shape = fills token shape := by
  cases shape with
  | keyword words => rw [fills, h.keyword?_eq, fills]
  | contextual text =>
    have htext : (token'.leafText? == some text) = (token.leafText? == some text) := by
      rw [Bool.eq_iff_iff, beq_iff_eq, beq_iff_eq]
      exact h.leafText?_eq_iff (hshape text rfl)
    rw [fills, h.leafKind?_eq, htext, fills]
  | name => rw [fills, h.leafKind?_eq, fills]
  | punct mark => rw [fills, h.leafKind?_eq, fills]
  | operator op => rw [fills, h.leafKind?_eq, fills]
  | expression role => rfl
  | group kind => rfl
  | block kind => rfl

namespace Twin

variable {r r' : SequenceReader} {token token' : Tree} {ts ts' : List Tree} {parts rest : List Part}

theorem context_eq (h : r.Twin r') (role : ExpressionRole) : r'.context role = r.context role := by
  unfold context
  rw [h.level, h.brackets]

theorem requirementMet_eq (h : r.Twin r') (part : Part) :
    r'.requirementMet part = r.requirementMet part := by
  simp only [requirementMet, h.form.isFilled_eq]

theorem pushExtras (h : r.Twin r') (hts : Tree.Twins ts ts') :
    (r.pushExtras ts).Twin (r'.pushExtras ts') :=
  { h with form := h.form.append (Form.twin_extras hts) }

theorem pushExtra (h : r.Twin r') (ht : token.Twin token') :
    (r.pushExtras [token]).Twin (r'.pushExtras [token']) :=
  h.pushExtras (.singleton ht)

/-- A part is filled, or passed, and other parts remain. -/
theorem setRemaining (h : r.Twin r') {form form' : List Entry} (hform : Form.Twin form form')
    (hspelled : Spelled parts) :
    ({ r with form, remaining := parts } : SequenceReader).Twin
      { r' with form := form', remaining := parts } :=
  { h with form := hform, remaining := rfl, spelled := hspelled }

/-- No state is open inside the production. -/
theorem clearActive (h : r.Twin r') :
    ({ r with active := none } : SequenceReader).Twin { r' with active := none } :=
  { h with active := rfl, activeSpelled := fun _ hactive => by cases hactive }

/-- A state is opened inside the production for a part. -/
theorem setActive (h : r.Twin r') {part : Part} (hspelled : Spelled (part :: rest)) :
    ({ r with active := some (part, rest) } : SequenceReader).Twin
      { r' with active := some (part, rest) } := by
  refine { h with active := rfl, activeSpelled := fun active hactive => ?_ }
  cases hactive
  exact hspelled

/-- The same part takes a token in the two spellings. -/
theorem offer?_twin (h : r.Twin r') (ht : token.Twin token') (hspelled : Spelled parts) :
    Agree (Option.Rel (Receipt.Twin Twin)) (r.offer? token parts) (r'.offer? token' parts) := by
  induction parts with
  | nil => exact .none
  | cons part rest ih =>
    have hrest : Spelled rest := hspelled.of_subset (List.subset_cons_self part rest)
    rw [offer?, offer?, h.requirementMet_eq,
      fills_eq ht (hspelled part List.mem_cons_self)]
    split
    · exact ih hrest
    · split
      · exact (h.form.place h.kind part.slot ht).bind fun _ _ hform =>
          .some (Receipt.twin_state (h.setRemaining hform hrest))
      · cases part.shape with
        | expression role =>
          dsimp only
          rw [h.context_eq, Context.canStartWith_eq _ ht]
          split
          · refine (ExpressionReader.seeded_twin _ ht).bind fun _ _ hseeded => .some ?_
            have hremaining := (h.setRemaining h.form hspelled).setActive hspelled
            exact ⟨hremaining, .cons (.expression hseeded.state) hseeded.opened, rfl⟩
          · exact ih hrest
        | _ => exact ih hrest

/-- The same part takes a token, or else the outcome is the same. -/
theorem offerOr (h : r.Twin r') (ht : token.Twin token') (hspelled : Spelled parts)
    {x y : Receipt SequenceReader} (hxy : Receipt.Twin Twin x y) :
    Agree (Receipt.Twin Twin) (do return (← r.offer? token parts).getD x)
      (do return (← r'.offer? token' parts).getD y) := by
  refine (h.offer?_twin ht hspelled).bind fun x? y? hxy? => ?_
  cases hxy? with
  | some hxy => exact hxy
  | none => exact hxy

/-- The same production takes a token that was read before. -/
theorem seed (h : r.Twin r') (ht : token.Twin token') :
    Agree (Receipt.Twin Twin) (r.seed token) (r'.seed token') := by
  unfold SequenceReader.seed
  rw [ht.isTrivia_eq, h.remaining]
  split
  · exact Receipt.twin_state (h.pushExtra ht)
  · exact h.offerOr ht h.spelled (Receipt.twin_state (h.pushExtra ht.invalidated))

/-! ### Signals -/

theorem canStart_eq (h : r.Twin r') (shape : Shape) (signal : Signal) :
    r'.canStart shape signal = r.canStart shape signal := by
  unfold canStart
  rw [h.level]
  simp only [h.context_eq]

theorem startable?_eq (h : r.Twin r') (signal : Signal) (parts : List Part) :
    r'.startable? signal parts = r.startable? signal parts := by
  induction parts with
  | nil => rfl
  | cons part rest ih =>
    rw [startable?, startable?, h.requirementMet_eq, h.canStart_eq, ih]

/-- The same state reads a part. -/
theorem partReader? (h : r.Twin r') (shape : Shape) (signal : Signal) :
    Option.Rel Reader.Twin (r.partReader? shape signal) (r'.partReader? shape signal) := by
  have hword : Option.Rel Reader.Twin (some (.leaf (.word ""))) (some (.leaf (.word ""))) :=
    .some (Reader.twin_leaf rfl)
  unfold SequenceReader.partReader?
  rw [h.level]
  simp only [h.context_eq]
  split
  · exact hword
  · exact hword
  · exact hword
  · exact .some (Reader.twin_leaf rfl)
  · exact .none
  · exact .some (.expression (ExpressionReader.twin_start _))
  · exact .some (.group (GroupReader.twin_start _ _))
  · exact .some (.group (GroupReader.twin_start _ _))
  · split
    · exact .some (.block (BlockReader.twin_start _ _ _ _))
    · exact .some (.block (BlockReader.twin_start _ _ _ _))

/-- The same part is begun. -/
theorem startPart (h : r.Twin r') {part : Part} (hspelled : Spelled (part :: rest))
    (signal : Signal) :
    Agree (Reaction.Twin Twin) (r.startPart part rest signal) (r'.startPart part rest signal) := by
  have hrest : Spelled rest := hspelled.of_subset (List.subset_cons_self part rest)
  unfold SequenceReader.startPart
  split
  · rename_i mark _
    refine (h.form.place h.kind part.slot (Tree.twin_ofPunct mark)).bind fun _ _ hform => ?_
    exact ⟨(h.setRemaining hform hrest).clearActive, .accept, rfl⟩
  · rcases (h.partReader? part.shape signal).none_or_some with
      ⟨hnone, hnone'⟩ | ⟨_, _, hsome, hsome', hreader⟩
    · rw [hnone, hnone']
      exact ⟨h, .complete, rfl⟩
    · rw [hsome, hsome']
      exact ⟨h.setActive hspelled, .enter hreader, rfl⟩

theorem isBodyMissing_eq (h : r.Twin r') : r'.isBodyMissing = r.isBodyMissing := by
  simp only [isBodyMissing, h.kind, h.requirementMet_eq, h.form.isFilled_eq]

/-- The same colon comes to announce accessors. -/
theorem retargetColon (h : r.Twin r') : Agree Twin r.retargetColon r'.retargetColon := by
  obtain ⟨hkept, htrailing⟩ := h.form.splitTrailing
  have hfiltered : Form.Twin _ _ := hkept.filter (p := fun entry => entry.1 != .slot .typeColon)
    (q := fun entry => entry.1 != .slot .typeColon) (fun _ _ hentry => by rw [hentry.role])
    (fun _ _ _ hbreak => by
      obtain ⟨_, rfl, rfl, rfl⟩ := hbreak
      exact ⟨rfl, rfl⟩)
  unfold SequenceReader.retargetColon
  simp only [h.form.isFilled_eq]
  rcases (h.form.occupant? .typeColon).none_or_some with
    ⟨hnone, hnone'⟩ | ⟨colon, colon', hsome, hsome', hcolon⟩
  · rw [hnone, hnone']
    exact h
  · rw [hsome, hsome']
    dsimp only
    split
    · exact h
    · refine (hfiltered.place h.kind .accessorColon hcolon).bind fun _ _ hform => ?_
      rw [h.kind]
      refine { h with form := ?_, kind := rfl, remaining := rfl, spelled := ?_ }
      · exact hform.append (Form.twin_extras htrailing)
      · exact (Production.spelled_parts r.kind).of_subset (List.dropWhile_subset _)

theorem beforePart (h : r.Twin r') (signal : Signal) :
    Agree Twin (r.beforePart signal) (r'.beforePart signal) := by
  unfold SequenceReader.beforePart
  rw [h.kind]
  split
  · exact h.retargetColon
  · exact h

/-- The same signal meets with the same reaction. -/
theorem onSignal (h : r.Twin r') (signal : Signal) :
    Agree (Reaction.Twin Twin) (r.onSignal signal) (r'.onSignal signal) := by
  unfold SequenceReader.onSignal
  rw [h.done]
  split
  · exact ⟨h, .complete, rfl⟩
  · split
    · rename_i leaf hleaf
      exact ⟨{ h.clearActive with done := rfl }, .enter (TriviaStart.twin_of_inline? hleaf), rfl⟩
    · split
      · rw [h.isBodyMissing_eq]
        exact ⟨h, .complete, rfl⟩
      · refine (h.beforePart _).bind fun s s' hs => ?_
        rw [hs.remaining, hs.startable?_eq]
        split
        · rename_i hstart
          exact hs.startPart (hs.spelled.of_subset (startable?_spec hstart).1.subset) _
        · exact ⟨hs, .complete, rfl⟩

/-! ### Deliveries -/

theorem handBack (h : r.Twin r') (ht : token.Twin token') :
    (r.handBack token).Twin (r'.handBack token') := by
  unfold SequenceReader.handBack
  rcases h.handback.none_or_some with ⟨hnone, hnone'⟩ | ⟨_, _, hsome, hsome', hearlier⟩
  · simp only [hnone, hnone']
    exact { h with handback := .some ht, done := rfl }
  · simp only [hsome, hsome']
    exact { h.pushExtra hearlier.invalidated with handback := .some ht, done := rfl }

theorem onToken (h : r.Twin r') {active : Option (Part × List Part)}
    (hspelled : ∀ a ∈ active, Spelled (a.1 :: a.2)) (ht : token.Twin token') :
    Agree (Receipt.Twin Twin) (r.onToken active token) (r'.onToken active token') := by
  unfold SequenceReader.onToken
  rw [ht.isTrivia_eq, ht.isInvalid_eq]
  split
  · exact Receipt.twin_state (h.pushExtra ht)
  · cases active with
    | none => exact Receipt.twin_state (h.pushExtra ht)
    | some active =>
      have hactive := hspelled active rfl
      dsimp only
      split
      · exact h.offerOr ht hactive (Receipt.twin_state (h.handBack ht))
      · refine (h.form.place h.kind _ ht).bind fun _ _ hform => ?_
        exact Receipt.twin_state
          (h.setRemaining hform (hactive.of_subset (List.subset_cons_self _ _)))

theorem onToken? (h : r.Twin r') {active : Option (Part × List Part)}
    (hspelled : ∀ a ∈ active, Spelled (a.1 :: a.2)) {t? t'? : Option Tree}
    (ht : Option.Rel Tree.Twin t? t'?) :
    Agree (Receipt.Twin Twin) (r.onToken? active t?) (r'.onToken? active t'?) := by
  cases ht with
  | some ht => exact h.onToken hspelled ht
  | none =>
    cases active with
    | none => exact Receipt.twin_state h
    | some active =>
      exact Receipt.twin_state (h.setRemaining h.form
        ((hspelled active rfl).of_subset (List.subset_cons_self _ _)))

theorem onHandback (h : r.Twin r') (ht : token.Twin token') :
    Agree (Receipt.Twin Twin) (r.onHandback token) (r'.onHandback token') := by
  unfold SequenceReader.onHandback
  rw [h.done, h.remaining]
  split
  · exact Receipt.twin_state (h.handBack ht)
  · exact h.offerOr ht h.spelled (Receipt.twin_state (h.handBack ht))

/-- The same delivery meets with the same receipt. -/
theorem onDelivery (h : r.Twin r') {d d' : Delivery} (hd : d.Twin d') :
    Agree (Receipt.Twin Twin) (r.onDelivery d) (r'.onDelivery d') := by
  have htoken := (h.clearActive.pushExtras hd.leading).onToken? h.activeSpelled hd.token
  unfold SequenceReader.onDelivery
  rw [h.active]
  refine htoken.bind fun first first' hfirst => ?_
  have htrailing := hfirst.state.pushExtras hd.trailing
  have hhandback : Agree (Receipt.Twin Twin)
      ((first.state.pushExtras d.trailing).onHandback? d.handback)
      ((first'.state.pushExtras d'.trailing).onHandback? d'.handback) := by
    rcases hd.handback.none_or_some with ⟨hnone, hnone'⟩ | ⟨_, _, hsome, hsome', ht⟩
    · rw [hnone, hnone']
      exact Receipt.twin_state htrailing
    · rw [hsome, hsome']
      exact htrailing.onHandback ht
  refine hhandback.bind fun second second' hsecond => ?_
  refine ⟨?_, List.rel_append hfirst.opened hsecond.opened, rfl⟩
  rcases hd.line.none_or_some with ⟨hnone, hnone'⟩ | ⟨_, _, hsome, hsome', hline⟩
  · rw [hnone, hnone']
    exact hsecond.state
  · rw [hsome, hsome']
    exact { hsecond.state with line := .some hline, done := rfl }

/-- The same production is delivered. -/
theorem finish (h : r.Twin r') : r.finish.Twin r'.finish := by
  obtain ⟨hkept, htrailing⟩ := h.form.splitTrailing
  have hnode : Tree.Twin (.ofForm r.kind (Form.splitTrailing r.form).1)
      (.ofForm r'.kind (Form.splitTrailing r'.form).1) := by
    rw [h.kind]
    exact Tree.twin_ofForm _ hkept
  exact ⟨.nil, .some hnode, htrailing, h.handback, h.line⟩

end Twin

end SequenceReader

end ScriptTree
