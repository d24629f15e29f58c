import ScriptTree.Proofs.Blocks
import ScriptTree.Proofs.Structure.Branches
import ScriptTree.Proofs.Structure.Sequences

/-!
# Blocks stay orderly

A block holds items, separators, trivia and text without a place. A `static` that is held back is
taken by the declaration after it, or loses its place.
-/

namespace ScriptTree

/-- Blocks become nodes that are put together part by part. -/
theorem BlockKind.isPlain_nodeKind (kind : BlockKind) : kind.nodeKind.isPlain := by
  cases kind <;> rfl

/-- Splitting off trailing extras takes no slot away. -/
theorem Form.slots_splitTrailing {α : Type} (form : List (Role × α)) :
    slots (splitTrailing form).1 = slots form := by
  have hall := congrArg slots (append_extras_of_splitTrailing form)
  rwa [slots_append, slots_extras, List.append_nil] at hall

namespace BlockReader

variable {r : BlockReader} {form : List Entry} {tokens : List Tree} {t word : Tree} {o : Origin}
  {config : Config} {signal : Signal}

/-! ### Places -/

/-- A block holds no slots, and items have a place in it. -/
theorem Orderly.plain (h : r.Orderly) : Form.Plain r.kind.nodeKind r.form where
  toTidy := h.form
  suits := by
    refine ⟨by simp [h.slots], by simp [h.slots], fun _ _ _ => ?_⟩
    cases r.kind <;> rfl

theorem Orderly.setForm (h : r.Orderly) (hform : Form.Tidy {} form)
    (hslots : Form.slots form = []) : ({ r with form } : BlockReader).Orderly :=
  { h with form := hform, slots := hslots }

theorem Orderly.setPhase (h : r.Orderly) (phase : BlockPhase) :
    ({ r with phase } : BlockReader).Orderly :=
  { h with }

theorem Orderly.setGoal (h : r.Orderly) (goal : BlockGoal) :
    ({ r with goal } : BlockReader).Orderly :=
  { h with }

theorem Orderly.setIndent (h : r.Orderly) (indent : Option Tree)
    (hindent : ∀ t ∈ indent, t.isTrivia) : ({ r with indent } : BlockReader).Orderly :=
  { h with indent := hindent }

theorem Orderly.setHeld (h : r.Orderly) (held : List Tree)
    (hheld : ∀ t ∈ held, IsHeld t ∧ t.IsRead) (hmembers : held ≠ [] → r.kind = .members) :
    ({ r with held } : BlockReader).Orderly :=
  { h with held := hheld, members := hmembers }

theorem Orderly.pushExtras (h : r.Orderly) (htokens : Form.Tidy {} (Form.extras tokens)) :
    (r.pushExtras tokens).Orderly :=
  h.setForm (h.form.append htokens) (by simp [h.slots])

/-- A held token that no declaration took is an extra. -/
theorem isPlainExtra_releasedToken (hread : t.IsRead) :
    (releasedToken t).isPlainExtra ∧ (releasedToken t).Regular := by
  unfold releasedToken
  split
  · rename_i htrivia
    exact ⟨Tree.isPlainExtra_of_isTrivia htrivia, hread.isLeaf.regular⟩
  · exact ⟨hread.isLeaf.isPlainExtra_invalidated, hread.isLeaf.invalidated.regular⟩

theorem Orderly.releaseHeld (h : r.Orderly) : r.releaseHeld.Orderly := by
  refine (h.setHeld [] nofun fun hne => absurd rfl hne).pushExtras
    (Form.tidy_extras fun released hreleased => ?_)
  obtain ⟨t, ht, rfl⟩ := List.mem_map.1 hreleased
  exact isPlainExtra_releasedToken (h.held t ht).2

/-- Trivia stay with a held token if there is one. -/
theorem Orderly.placeTrivia (h : r.Orderly) (htokens : Form.Tidy {} (Form.extras tokens))
    (hheld : r.held = [] ∨ ∀ t ∈ tokens, (t.isTrivia || t.isInvalid) = true) :
    (r.placeTrivia tokens).Orderly := by
  unfold BlockReader.placeTrivia
  split
  · exact h.pushExtras htokens
  · rename_i hne
    have hne : r.held ≠ [] := by simpa using hne
    refine h.setHeld _ (fun t ht => ?_) fun _ => h.members hne
    rcases List.mem_append.1 ht with ht | ht
    · exact h.held t ht
    · have hplaceless := hheld.resolve_left hne t ht
      exact ⟨(Bool.or_eq_true_iff.1 hplaceless).imp id .inl, Tree.isRead_of_or hplaceless⟩

/-- The white space of the line is placed, with its place or without. -/
theorem Orderly.placeIndent (h : r.Orderly) (isInvalid : Bool) :
    (r.placeIndent isInvalid).Orderly := by
  refine (h.setIndent none nofun).pushExtras (Form.tidy_extras fun t ht => ?_)
  obtain ⟨indent, hindent, rfl⟩ := Option.map_eq_some_iff.1 (Option.mem_toList.1 ht)
  have htrivia := h.indent indent hindent
  have hleaf := Tree.isLeaf_of_isTrivia htrivia
  split
  · exact ⟨hleaf.isPlainExtra_invalidated, hleaf.invalidated.regular⟩
  · exact ⟨Tree.isPlainExtra_of_isTrivia htrivia, hleaf.regular⟩

theorem Orderly.dedent (h : r.Orderly) {line : LineStart} (hline : line.IsOrderly) :
    (r.dedent line).Orderly :=
  { h with line := fun _ heq => Option.mem_some_iff.1 heq ▸ hline }

theorem Orderly.beginLine (h : r.Orderly) (level : IndentLevel) : (r.beginLine level).Orderly :=
  { h.placeIndent _ with }

/-! ### Signals -/

/-- What an orderly block of a kind answers to a signal. -/
abbrev Answers (kind : BlockKind) (reaction : Reaction BlockReader) : Prop :=
  (reaction.map .block).Follows (.block kind)

theorem Orderly.answers_complete (h : r.Orderly) (notices : Notices) :
    Answers r.kind ⟨r, .complete, notices⟩ :=
  ⟨rfl, h⟩

theorem Orderly.answers_takeExtra (h : r.Orderly) {kind : LeafKind} (text : String)
    (hkind : kind.isTrivia = true) : Answers r.kind (r.takeExtra kind text) := by
  have htrivia : (Tree.ofText kind text).isTrivia = true := hkind
  exact ⟨rfl, h.pushExtras (Form.tidy_trivia (by simp [htrivia]))⟩

theorem Orderly.answers_enterTrivia (h : r.Orderly) {leaf : LeafReader}
    (hleaf : leaf.Orderly ∧ leaf.origin = .trivia) : Answers r.kind (r.enterTrivia leaf) :=
  ⟨rfl, ⟨h.setGoal _, hleaf.2⟩, hleaf.1⟩

theorem Orderly.answers_absorb (h : r.Orderly) : Answers r.kind r.absorb :=
  ⟨rfl, h.setGoal _, rfl⟩

/-- A signal on the rest of the line that announces the block. -/
theorem Orderly.onHeader (h : r.Orderly) (signal : Signal) :
    Answers r.kind (r.onHeader signal) := by
  unfold BlockReader.onHeader
  split
  · exact (h.setPhase .lineStart).answers_takeExtra _ rfl
  · exact h.answers_takeExtra _ rfl
  · exact h.answers_enterTrivia ⟨trivial, rfl⟩
  · exact h.answers_complete _
  · split
    · rename_i leaf htrivia
      exact h.answers_enterTrivia (TriviaStart.orderly_of_inline? htrivia)
    · exact h.answers_absorb

/-- A signal after the last item of a line. -/
theorem Orderly.onAfterItem (h : r.Orderly) (signal : Signal) :
    Answers r.kind (r.onAfterItem signal) := by
  unfold BlockReader.onAfterItem
  split
  · rename_i leaf htrivia
    exact h.answers_enterTrivia (TriviaStart.orderly_of_inline? htrivia)
  · dsimp only
    split
    · have hseparator : (Tree.ofPunct r.kind.separator).isPlainExtra = true := by
        cases r.kind <;> rfl
      exact ⟨rfl, (h.setPhase .itemStart).pushExtras (Form.tidy_extra hseparator (.leaf _ _ _))⟩
    · split
      · exact h.answers_complete _
      · split
        · exact (h.setPhase .lineStart).answers_takeExtra _ rfl
        · exact h.answers_takeExtra _ rfl
        · exact h.answers_enterTrivia ⟨trivial, rfl⟩
        · exact h.answers_complete _
        · exact h.answers_absorb

/-- A character with which no item begins. -/
theorem Orderly.onNoItem (h : r.Orderly) : Answers r.kind r.onNoItem := by
  unfold BlockReader.onNoItem
  dsimp only
  split
  · exact h.releaseHeld.answers_complete _
  · exact h.releaseHeld.answers_absorb

/-- A character where an item may begin. -/
theorem Orderly.onItemChar (h : r.Orderly) (c : Char) : Answers r.kind (r.onItemChar c) := by
  unfold BlockReader.onItemChar
  split
  · exact ⟨rfl, ⟨h.setGoal _, rfl⟩, trivial⟩
  · split
    · rename_i kind hkind
      have hplain : kind.isLoose = true := by
        unfold itemBegunBy? at hkind
        split at hkind
        case h_4 => cases hkind
        all_goals
          split at hkind
          · cases hkind
            rfl
          · cases hkind
      exact ⟨rfl, ⟨h.releaseHeld.setGoal _, rfl, rfl⟩, SequenceReader.orderly_start hplain _ _⟩
    · exact h.onNoItem

/-- A signal where an item may begin. -/
theorem Orderly.onItemStart (h : r.Orderly) (signal : Signal) :
    Answers r.kind (r.onItemStart signal) := by
  unfold BlockReader.onItemStart
  split
  · rename_i leaf htrivia
    exact h.answers_enterTrivia (TriviaStart.orderly_of_inline? htrivia)
  · exact h.onItemChar _
  · dsimp only
    split
    · exact h.releaseHeld.answers_complete _
    · exact (h.releaseHeld.setPhase .afterItem).onAfterItem _

/-- The current line holds content. -/
theorem Orderly.onContent (h : r.Orderly) (config : Config) (signal : Signal) :
    Answers r.kind (onContent config r signal) := by
  have hending (level : IndentLevel) :
      Answers r.kind ⟨{ r with indent := none }.dedent ⟨r.indent, level⟩, .complete, {}⟩ :=
    have hline : LineStart.IsOrderly ⟨r.indent, level⟩ := h.indent
    ((h.setIndent none nofun).dedent hline).answers_complete _
  have hgoOn {s : BlockReader} (hs : s.Orderly) (level : IndentLevel) (notices : Notices) :
      Answers s.kind { (s.beginLine level).onItemStart signal with notices } :=
    have hanswers := (hs.beginLine level).onItemStart signal
    ⟨hanswers.origin, hanswers.step⟩
  have hlevel (level : Option Nat) : ({ r with level } : BlockReader).Orderly := { h with }
  unfold BlockReader.onContent
  generalize measure config r.indent = level
  dsimp only
  split
  · split
    · exact hending level
    · exact hgoOn (hlevel _) level _
  · split
    · exact hending _
    · exact hgoOn h _ _
  · exact hgoOn h _ _
  · exact hgoOn h _ _

/-- A signal after the white space of a line. -/
theorem Orderly.onAfterIndent (h : r.Orderly) (config : Config) (signal : Signal) :
    Answers r.kind (onAfterIndent config r signal) := by
  have hplaced := h.placeIndent false
  unfold BlockReader.onAfterIndent
  split
  · exact (hplaced.setPhase .lineStart).answers_takeExtra _ rfl
  · exact hplaced.answers_takeExtra _ rfl
  · exact hplaced.answers_enterTrivia ⟨trivial, rfl⟩
  · exact hplaced.answers_complete _
  · exact h.onContent config _

/-- A signal at the beginning of a line. -/
theorem Orderly.onLineStart (h : r.Orderly) (config : Config) (signal : Signal) :
    Answers r.kind (onLineStart config r signal) := by
  have hcontent := (h.setPhase .afterIndent).onAfterIndent config signal
  unfold BlockReader.onLineStart
  dsimp only
  split
  · split
    · exact ⟨rfl, ⟨h.setGoal _, rfl⟩, rfl⟩
    · exact hcontent
  · exact hcontent

/-- Every signal leaves the block orderly. -/
theorem Orderly.onSignal (h : r.Orderly) (config : Config) (signal : Signal) :
    Answers r.kind (onSignal config r signal) := by
  unfold BlockReader.onSignal
  split
  · exact h.answers_complete _
  · split
    · exact h.onHeader signal
    · exact h.onLineStart config signal
    · exact h.onAfterIndent config signal
    · exact h.onItemStart signal
    · exact h.onAfterItem signal

/-! ### New items -/

/-- What an orderly block of a kind makes of a delivery. -/
abbrev Continues (kind : BlockKind) (receipt : Receipt BlockReader) : Prop :=
  (receipt.map .block).Follows (.block kind)

/-- A block that opens no state. -/
theorem Orderly.continues (h : r.Orderly) : Continues r.kind { state := r } :=
  ⟨rfl, h⟩

/-- A word that begins nothing loses its place. -/
theorem Orderly.rejectWord (h : r.Orderly) (hword : word.IsLeaf) :
    Continues r.kind { state := r.rejectWord word } :=
  ((h.releaseHeld.pushExtras (Form.tidy_invalidated hword)).setPhase .afterItem).continues

/-- No part takes a held token as the first word of an expression. -/
theorem offer?_opened (ht : IsHeld t) (item : SequenceReader) (parts : List Part) :
    Promises (item.offer? t parts) fun receipt? => ∀ receipt ∈ receipt?, receipt.opened = [] := by
  refine SequenceReader.offer?_promises (fun part rest _ => ?_)
    (fun part rest role _ hstarts => ?_) parts
  · exact (promises_true _).mono fun _ _ => rfl
  · rw [ht.canStartWith_eq_false] at hstarts
    cases hstarts

/-- A held token opens no state. -/
theorem seed_opened (ht : IsHeld t) (item : SequenceReader) :
    Promises (item.seed t) fun receipt => receipt.opened = [] := by
  unfold SequenceReader.seed
  split
  · exact promises_pure.2 rfl
  · refine (offer?_opened ht item _).bind fun receipt? hreceipt? => promises_pure.2 ?_
    cases receipt? with
    | none => rfl
    | some receipt => exact hreceipt? receipt rfl

/-- The held tokens are placed in an item one after another, and open no state. -/
theorem seedHeld_promises {receipt : Receipt SequenceReader}
    (h : receipt.state.Orderly ∧ receipt.opened = [])
    (htokens : ∀ t ∈ tokens, IsHeld t ∧ t.IsRead) :
    Promises (tokens.foldlM seedNext receipt) fun receipt =>
      receipt.state.Orderly ∧ receipt.opened = [] := by
  induction tokens generalizing receipt with
  | nil => exact promises_pure.2 h
  | cons t rest ih =>
    obtain ⟨hheld, hread⟩ := htokens t List.mem_cons_self
    have hnext : Promises (seedNext receipt t) fun receipt =>
        receipt.state.Orderly ∧ receipt.opened = [] := by
      refine ((h.1.seed hread).and (seed_opened hheld receipt.state)).bind
        fun seeded hseeded => promises_pure.2 ?_
      have hstate : seeded.state.Orderly := hseeded.1.nests.orderly
      exact ⟨hstate, by simp [h.2, hseeded.2]⟩
    rw [List.foldlM_cons]
    exact hnext.bind fun receipt hreceipt =>
      ih hreceipt fun t ht => htokens t (List.mem_cons_of_mem _ ht)

/-- An item takes the held tokens, and the word that begins it. -/
theorem seedItem_promises {item : SequenceReader} (hitem : item.Orderly)
    (htokens : ∀ t ∈ tokens, IsHeld t ∧ t.IsRead) (hword : word.IsRead) :
    Promises (seedItem item (tokens ++ [word])) SequenceReader.Continues := by
  unfold seedItem
  rw [List.foldlM_append]
  refine (seedHeld_promises ⟨hitem, rfl⟩ htokens).bind fun receipt hreceipt => ?_
  rw [List.foldlM_cons]
  have hnext : Promises (seedNext receipt word) SequenceReader.Continues := by
    refine (hreceipt.1.seed hword).bind fun seeded hseeded => promises_pure.2 ?_
    rw [hreceipt.2, List.nil_append]
    exact hseeded
  exact hnext.bind fun _ hlast => promises_pure.2 hlast

/-- A word begins an item that is put together part by part. -/
theorem isLoose_of_itemOfWord? {kind : NodeKind} (h : r.itemOfWord? word = some kind) :
    kind.isLoose := by
  unfold itemOfWord? at h
  split at h
  · rename_i kw _ _
    cases kw <;> first | cases h; done | (cases h; rfl)
  · rcases Option.or_eq_some_iff.1 h with h | ⟨_, h⟩
    · obtain ⟨kw, _, hkw⟩ := Option.bind_eq_some_iff.1 h
      cases kw <;> first | cases hkw; done | (cases hkw; rfl)
    · split at h <;> cases h
      rfl
  · split at h <;> cases h <;> rfl
  · cases h

/-- An item is begun with a word. -/
theorem Orderly.beginItem (h : r.Orderly) {kind : NodeKind} (hkind : kind.isLoose)
    (hword : word.IsRead) : Promises (r.beginItem kind word) (Continues r.kind) := by
  have hheld : ∃ s : BlockReader,
      (if kind = .memberVariable ∨ kind = .method then r else r.releaseHeld) = s ∧
        s.Orderly ∧ s.kind = r.kind := by
    refine ⟨_, rfl, ?_⟩
    split
    · exact ⟨h, rfl⟩
    · exact ⟨h.releaseHeld, rfl⟩
  obtain ⟨s, heq, hs, hsame⟩ := hheld
  unfold BlockReader.beginItem
  rw [heq, ← hsame]
  refine (seedItem_promises (SequenceReader.orderly_start hkind _ _) hs.held hword).bind
    fun item hitem => promises_pure.2 ⟨rfl, ?_, hitem.nests⟩
  exact ⟨(hs.setHeld [] nofun fun hne => absurd rfl hne).setGoal _, rfl, rfl⟩

/-- A further branch is begun with a word, if there is a chain with a place for it. -/
theorem Orderly.beginBranch (h : r.Orderly) (hheld : r.held = []) {kind : NodeKind}
    (hkind : kind.isLoose) (hword : word.IsRead) :
    Promises (r.beginBranch kind word) (Continues r.kind) := by
  obtain ⟨hkept, htrailing⟩ := h.plain.splitTrailing r.kind.isPlain_nodeKind
  have hslots := (Form.slots_splitTrailing r.form).trans h.slots
  have hextends := Branch.extends_extras htrailing
  unfold BlockReader.beginBranch
  dsimp only
  split
  · exact promises_pure.2 (h.rejectWord hword.isLeaf)
  · rename_i form hform
    have hupdated := Branch.updateLast?_eq_some hextends.plain hkept.toTidy hform
    refine ((SequenceReader.orderly_start hkind _ _).seed hword).bind
      fun branch hbranch => promises_pure.2 ⟨rfl, ?_, hbranch.nests⟩
    exact ⟨(h.setForm hupdated.tidy (hupdated.slots.trans hslots)).setGoal _, rfl, hheld,
      Branch.endsOpen_updateLast? hextends hform⟩

/-- The first word of an item. -/
theorem Orderly.onWord (h : r.Orderly) (hword : word.IsWord) :
    Promises (r.onWord word) (Continues r.kind) := by
  have hreject : Promises (pure { state := r.rejectWord word } : Except Misfit _)
      (Continues r.kind) := promises_pure.2 (h.rejectWord hword.isLeaf)
  have hbranch (hkind : r.kind = .statements) : r.held = [] := by
    by_contra hheld
    rw [h.members hheld] at hkind
    cases hkind
  unfold BlockReader.onWord
  dsimp only
  split
  · exact hreject
  · split
    · rename_i hstatic
      refine promises_pure.2 (h.setHeld _ (fun t ht => ?_) fun _ => hstatic.1).continues
      rcases List.mem_append.1 ht with ht | ht
      · exact h.held t ht
      · obtain rfl := List.mem_singleton.1 ht
        split
        · exact ⟨.inr (.inr hstatic.2), hword.toIsRead⟩
        · have hlost := hword.isLeaf.isInvalid_invalidated
          exact ⟨.inr (.inl hlost), Tree.isRead_of_or (by simp [hlost])⟩
    · split
      · rename_i helif
        exact h.beginBranch (hbranch helif.1) rfl hword.toIsRead
      · split
        · rename_i helse
          exact h.beginBranch (hbranch helse.1) rfl hword.toIsRead
        · split
          · rename_i kind hkind
            exact h.beginItem (isLoose_of_itemOfWord? hkind) hword.toIsRead
          · exact hreject

/-! ### Deliveries -/

/-- A complete item. -/
theorem Orderly.onItem (h : r.Orderly) (ht : t.Regular) :
    Promises (r.onItem t) fun r' => r'.Orderly ∧ r'.kind = r.kind := by
  have hform : Promises (Form.addItem r.kind.nodeKind t r.form) fun form =>
      Form.Tidy {} form ∧ Form.slots form = [] :=
    (promises_true _).bind fun _ _ => promises_pure.2
      ⟨h.form.append (Form.tidy_singleton nofun ht), by simp [h.slots]⟩
  unfold BlockReader.onItem
  refine hform.bind fun form hform => ?_
  have hplaced := h.setForm hform.1 hform.2
  dsimp only
  split
  · exact promises_pure.2 ⟨hplaced.setPhase _, rfl⟩
  · exact promises_pure.2 ⟨{ hplaced with }, rfl⟩
  · exact promises_pure.2 ⟨hplaced.setPhase _, rfl⟩

/-- A complete branch goes to the chain that has a place for it. -/
theorem Orderly.onBranch (h : r.Orderly) (hopen : Branch.endsOpen r.form) (ht : t.Regular) :
    Promises (r.onBranch t) fun r' => r'.Orderly ∧ r'.kind = r.kind := by
  have hchange {form : List Entry} (hform : Form.Plain .ifStatement form) :
      Form.Plain .ifStatement (Form.setSlot .ifStatement .elseBranch t form) :=
    ⟨hform.toTidy.setSlot ht (by decide), hform.suits.setSlot (by decide) t⟩
  obtain ⟨form, hform⟩ := Option.isSome_iff_exists.1
    (Branch.isSome_updateLast? (Form.setSlot .ifStatement .elseBranch t) hopen)
  have hupdated := Branch.updateLast?_eq_some hchange h.form hform
  unfold BlockReader.onBranch
  refine (promises_true _).bind fun _ _ => promises_pure.2 ?_
  rw [hform, Option.getD_some]
  exact ⟨(h.setForm hupdated.tidy (hupdated.slots.trans h.slots)).setPhase _, rfl⟩

/-- What a block makes of the token that it opened a state for. Only a word may open another
state. -/
structure Handled (kind : BlockKind) (o : Origin) (receipt : Receipt BlockReader) : Prop where
  continues : Continues kind receipt
  inner : o.isLeaf = false → receipt.opened = []

theorem Orderly.handled (h : r.Orderly) : Handled r.kind o { state := r } :=
  ⟨h.continues, fun _ => rfl⟩

/-- The token that a state was opened for. -/
theorem Orderly.onToken (h : r.Orderly) {goal : BlockGoal}
    (hgoal : ({ r with goal } : BlockReader).GoalSuits o) (ht : t.Regular) (hsuits : o.Suits t) :
    Promises (r.onToken goal t) (Handled r.kind o) := by
  have hplace (hplaceless : (t.isTrivia || t.isInvalid) = true) :
      Handled r.kind o { state := r.placeTrivia [t] } := by
    have hplaced := h.placeTrivia (Form.tidy_trivia hplaceless) (.inr (by simpa using hplaceless))
    have hkind : (r.placeTrivia [t]).kind = r.kind := by
      unfold BlockReader.placeTrivia
      split <;> rfl
    rw [← hkind]
    exact hplaced.handled
  unfold BlockReader.onToken
  split
  · rename_i hindent
    have hheld : ∀ indent ∈ some t, indent.isTrivia :=
      fun _ heq => Option.mem_some_iff.1 heq ▸ hindent.2
    exact promises_pure.2 ((h.setIndent _ hheld).setPhase .afterIndent).handled
  · split
    · rename_i hplaceless
      exact promises_pure.2 (hplace hplaceless)
    · cases goal with
      | trivia | indent =>
        obtain rfl : o = .trivia := hgoal
        exact promises_pure.2 (hplace hsuits)
      | word =>
        obtain rfl : o = .word := hgoal
        exact (h.onWord hsuits).mono fun _ hreceipt => ⟨hreceipt, nofun⟩
      | item =>
        refine (h.onItem ht).bind fun r' hr' => promises_pure.2 ?_
        rw [← hr'.2]
        exact hr'.1.handled
      | branch =>
        obtain ⟨_, _, hopen⟩ : o = .sequence ∧ r.held = [] ∧ Branch.endsOpen r.form := hgoal
        refine (h.onBranch hopen ht).bind fun r' hr' => promises_pure.2 ?_
        rw [← hr'.2]
        exact hr'.1.handled

/-- A token that a delivery hands on loses its place. -/
theorem Orderly.onHandback? (h : r.Orderly) {handback : Option Tree}
    (hhandback : ∀ t ∈ handback, t.IsRead) :
    (r.onHandback? handback).Orderly ∧ (r.onHandback? handback).kind = r.kind := by
  cases handback with
  | none => exact ⟨h, rfl⟩
  | some t =>
    have hlost := h.pushExtras (Form.tidy_invalidated (hhandback t rfl).isLeaf)
    exact ⟨hlost.setPhase .afterItem, rfl⟩

/-- The beginning of a line that ended an item. -/
theorem Orderly.onLine (h : r.Orderly) {line : LineStart} (hline : line.IsOrderly) :
    (r.onLine line).state.Orderly ∧ (r.onLine line).state.kind = r.kind := by
  have hdedent := h.dedent hline
  have hgoOn := (h.setIndent _ hline).beginLine line.level
  unfold BlockReader.onLine
  dsimp only
  split
  · exact ⟨hdedent, rfl⟩
  · dsimp only
    split
    · exact ⟨hdedent, rfl⟩
    · exact ⟨hgoOn, rfl⟩
  · exact ⟨hgoOn, rfl⟩
  · exact ⟨hgoOn, rfl⟩

/-- Tokens are held back only before an item is opened. -/
theorem GoalSuits.held {goal : BlockGoal} (h : ({ r with goal } : BlockReader).GoalSuits o)
    (ho : o.isLeaf = false) : r.held = [] := by
  cases goal with
  | trivia | indent | word =>
    obtain rfl : o = _ := h
    cases ho
  | item => exact And.right h
  | branch => exact (And.right h).1

/-- Extras do not matter for what a state may be open for. -/
theorem GoalSuits.pushExtras {goal : BlockGoal}
    (h : ({ r with goal } : BlockReader).GoalSuits o) (tokens : List Tree) :
    ({ r.pushExtras tokens with goal } : BlockReader).GoalSuits o := by
  cases goal with
  | branch =>
    obtain ⟨ho, hheld, hopen⟩ : o = .sequence ∧ r.held = [] ∧ Branch.endsOpen r.form := h
    exact ⟨ho, hheld, (Branch.endsOpen_extras _ _).trans hopen⟩
  | _ => exact h

/-- What a delivery brings behind its token. -/
theorem Orderly.onRest (h : r.Orderly) {d : Delivery} (hd : d.FitsFrom o) :
    (((r.pushExtras d.trailing).onHandback? d.handback).onLine? d.line).state.Orderly ∧
      (((r.pushExtras d.trailing).onHandback? d.handback).onLine? d.line).state.kind = r.kind := by
  obtain ⟨hhanded, hkind⟩ := (h.pushExtras hd.trailing).onHandback? hd.handback
  cases hline : d.line with
  | none => exact ⟨hhanded, hkind⟩
  | some line =>
    obtain ⟨hstate, hsame⟩ := hhanded.onLine (hd.line line hline)
    exact ⟨hstate, hsame.trans hkind⟩

/-- Every delivery leaves the block orderly. -/
theorem Receives.onDelivery {d : Delivery} (h : r.Receives o) (hd : d.FitsFrom o) :
    Promises (r.onDelivery d) (Continues r.kind) := by
  have hidle := h.toOrderly.setGoal .trivia
  have htoken {s : BlockReader} (hs : s.Orderly)
      (hgoal : ({ s with goal := r.goal } : BlockReader).GoalSuits o) :
      Promises (s.onToken? r.goal d.token) (Handled s.kind o) := by
    cases htoken : d.token with
    | none => exact promises_ok.2 hs.handled
    | some t =>
      obtain ⟨ht, hsuits⟩ := hd.token t htoken
      exact hs.onToken hgoal ht hsuits
  unfold BlockReader.onDelivery
  cases ho : o.isLeaf with
  | true =>
    obtain ⟨hleading, htrailing, hhandback, hline⟩ := hd.alone ho
    rw [hleading, htrailing, hhandback, hline, placeTrivia_nil]
    refine (htoken hidle h.goal).bind fun placed hplaced => promises_pure.2 ?_
    simpa [BlockReader.onHandback?, BlockReader.onLine?] using
      (⟨hplaced.continues.origin, hplaced.continues.nests⟩ :
        Continues r.kind { state := placed.state, opened := placed.opened })
  | false =>
    have hheld : r.held = [] := h.goal.held (r := r) ho
    have hleading : { r with goal := .trivia }.placeTrivia d.leading =
        { r with goal := .trivia }.pushExtras d.leading := by
      rw [BlockReader.placeTrivia, if_pos (by simp [hheld])]
    rw [hleading]
    have hgoal := GoalSuits.pushExtras (r := { r with goal := .trivia }) h.goal d.leading
    refine (htoken (hidle.pushExtras hd.leading) hgoal).bind fun placed hplaced =>
      promises_pure.2 ?_
    have hopened := hplaced.inner ho
    have hstate : placed.state.Orderly := hplaced.continues.nests.orderly
    have hkind : placed.state.kind = r.kind := Origin.block.inj hplaced.continues.origin
    obtain ⟨hrest, hsame⟩ := hstate.onRest hd
    rw [hopened]
    exact ⟨congrArg Origin.block (hsame.trans hkind), hrest⟩

/-- What the block delivers. -/
theorem Orderly.finish (h : r.Orderly) : r.finish.FitsFrom (.block r.kind) := by
  have hplaced : ∃ s : BlockReader,
      (if r.releaseHeld.line.isNone then r.releaseHeld.placeIndent false else r.releaseHeld) = s ∧
        s.Orderly ∧ s.kind = r.kind := by
    refine ⟨_, rfl, ?_⟩
    split
    · exact ⟨h.releaseHeld.placeIndent _, rfl⟩
    · exact ⟨h.releaseHeld, rfl⟩
  obtain ⟨s, heq, hs, hsame⟩ := hplaced
  obtain ⟨hkept, htrailing⟩ := hs.plain.splitTrailing s.kind.isPlain_nodeKind
  have hslots := (Form.slots_splitTrailing s.form).trans hs.slots
  unfold BlockReader.finish
  dsimp only
  rw [heq, ← hsame]
  exact {
    leading := Form.tidy_nil _
    token := fun t ht => by
      obtain rfl := Option.mem_some_iff.1 ht
      exact ⟨hkept.regular_ofForm s.kind.isPlain_nodeKind, _, rfl, hslots⟩
    trailing := htrailing
    handback := nofun
    line := hs.line
    alone := nofun }

end BlockReader

end ScriptTree
