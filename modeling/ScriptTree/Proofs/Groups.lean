import ScriptTree.Proofs.Expressions
import ScriptTree.Grammar.Group

/-!
# Groups keep the text

A group places its brackets, items and separators one after another. Its last dictionary entry
stays open at the end of the form, so that whatever is added to it comes last as well.
-/

namespace ScriptTree

/-- Nothing has to stand after the closing bracket of a group. -/
theorem GroupKind.standsAfter_closing (kind : GroupKind) (role : Role) :
    Form.standsAfter kind.nodeKind .closing role = false := by
  cases role with
  | slot other =>
    refine Bool.not_eq_true _ ▸ fun h => ?_
    have hmem := (Form.standsAfter_slot h).1
    cases kind <;> simp only [nodeKind, NodeKind.slots, List.mem_cons, List.not_mem_nil,
      or_false] at hmem
    all_goals rcases hmem with rfl | rfl | rfl <;> cases h
  | item => cases kind <;> rfl
  | extra => rfl

/-- Only the closing bracket has to stand after the expression in brackets, and items. -/
theorem GroupKind.standsAfter_inner {kind : GroupKind} {role : Role}
    (h : Form.standsAfter kind.nodeKind .inner role = true) :
    role = .slot .closing ∨ role = .item := by
  cases role with
  | slot other =>
    have hmem := (Form.standsAfter_slot h).1
    cases kind <;> simp only [nodeKind, NodeKind.slots, List.mem_cons, List.not_mem_nil,
      or_false] at hmem
    all_goals rcases hmem with rfl | rfl | rfl <;> first | exact .inl rfl | cases h
  | item => exact .inr rfl
  | extra => cases h

/-- Nothing has to stand after a part of an entry but items and later parts. -/
theorem standsAfter_keyValue {slot : Slot} {role : Role}
    (h : Form.standsAfter .keyValue slot role = true) :
    role = .item ∨ role = .slot .colon ∨ role = .slot .assign ∨ role = .slot .value := by
  cases role with
  | slot other =>
    obtain ⟨hmem, place, otherPlace, _, hother, hlt⟩ := Form.standsAfter_slot h
    simp only [NodeKind.slots, List.mem_cons, List.not_mem_nil, or_false] at hmem
    rcases hmem with rfl | rfl | rfl | rfl
    · cases hother
      omega
    · simp
    · simp
    · simp
  | item => exact .inl rfl
  | extra => cases h

/-- A role is that of one of the children. -/
theorem Form.mem_roles {α : Type} {form : List (Role × α)} {entry : Role × α}
    (h : entry ∈ form) : entry.1 ∈ Form.roles form :=
  List.mem_map.2 ⟨entry, h, rfl⟩

namespace GroupReader

/-- The text between and with the brackets. -/
def body (r : GroupReader) : String :=
  Tree.textOfForm r.sealedForm

theorem text_eq (r : GroupReader) : r.text = r.body ++ textHandedOn r.handback r.line := rfl

@[simp]
theorem body_pushExtras (r : GroupReader) (tokens : List Tree) :
    (r.pushExtras tokens).body = r.body ++ Tree.textOfTokens tokens := by
  cases hentry : r.entry <;>
    simp [body, sealedForm, pushExtras, hentry, String.append_assoc]

/-- A group that goes on and hands nothing on yet. -/
structure Going (r : GroupReader) : Prop extends r.Sound where
  done : r.done = false
  handback : r.handback = none
  line : r.line = none

theorem Sound.toGoing {r : GroupReader} (h : r.Sound) (hdone : r.done = false) : r.Going :=
  ⟨h, hdone, (h.hands.of_open hdone).1, (h.hands.of_open hdone).2⟩

theorem Going.text_eq {r : GroupReader} (h : r.Going) : r.text = r.body := by
  simp [GroupReader.text_eq, h.handback, h.line]

/-- Adding extras keeps the invariant. -/
theorem Going.pushExtras {r : GroupReader} (h : r.Going) (tokens : List Tree) :
    (r.pushExtras tokens).Going := by
  have hroles (role : Role) (hrole : role ≠ .extra) (form : List Entry)
      (hform : role ∉ Form.roles form) : role ∉ Form.roles (form ++ Form.extras tokens) := by
    simp [hform, hrole]
  cases hentry : r.entry with
  | none =>
    have heq : r.pushExtras tokens = { r with form := r.form ++ Form.extras tokens } := by
      simp [GroupReader.pushExtras, hentry]
    rw [heq]
    refine ⟨{ h.toSound with unclosed := ?_, single := ?_ }, h.done, h.handback, h.line⟩
    · exact hroles _ (by simp) _ h.unclosed
    · intro hsingle
      exact ⟨hroles _ (by simp) _ (h.single hsingle).1,
        fun hitem => hroles _ (by simp) _ ((h.single hsingle).2 hitem)⟩
  | some entry =>
    have heq : r.pushExtras tokens = { r with entry := some (entry ++ Form.extras tokens) } := by
      simp [GroupReader.pushExtras, hentry]
    have hfits := h.entry entry hentry
    rw [heq]
    refine ⟨{ h.toSound with dictionary := ?_, entry := ?_, value := ?_ }, h.done, h.handback,
      h.line⟩
    · intro _
      exact h.dictionary (by simp [hentry])
    · rintro _ ⟨⟩
      exact ⟨hroles _ (by simp) _ hfits.items, hroles _ (by simp) _ hfits.value,
        fun hsep => ⟨hroles _ (by simp) _ (hfits.signs hsep).1,
          hroles _ (by simp) _ (hfits.signs hsep).2⟩⟩
    · exact fun _ => rfl

/-- Whoever adds extras still has the same expectation. -/
@[simp]
theorem expected_pushExtras (r : GroupReader) (tokens : List Tree) :
    (r.pushExtras tokens).expected = r.expected := by
  cases hentry : r.entry <;> simp [pushExtras, hentry]

@[simp]
theorem goal_pushExtras (r : GroupReader) (tokens : List Tree) :
    (r.pushExtras tokens).goal = r.goal := by
  cases hentry : r.entry <;> simp [pushExtras, hentry]

/-- Closing the open entry does not close the group. -/
theorem Sound.unclosed_sealedForm {r : GroupReader} (h : r.Sound) :
    .slot .closing ∉ Form.roles r.sealedForm := by
  cases hentry : r.entry <;> simp [sealedForm, hentry, h.unclosed]

/-- The closing bracket comes last. -/
theorem Sound.appends_closing {r : GroupReader} (h : r.Sound) :
    Form.Appends r.kind.nodeKind .closing r.sealedForm := fun _ hentry =>
  ⟨fun hrole => h.unclosed_sealedForm (hrole ▸ Form.mem_roles hentry),
    GroupKind.standsAfter_closing _ _⟩

/-- The expression in brackets comes last. -/
theorem Sound.appends_inner {r : GroupReader} (h : r.Sound) (hsingle : r.kind.isSingle)
    (hitem : r.expected = .item) : Form.Appends r.kind.nodeKind .inner r.form := by
  intro entry hentry
  have hrole := Form.mem_roles hentry
  refine ⟨fun heq => (h.single hsingle).2 hitem (heq ▸ hrole), ?_⟩
  refine Bool.not_eq_true _ ▸ fun hafter => ?_
  rcases GroupKind.standsAfter_inner hafter with heq | heq
  · exact h.unclosed (heq ▸ hrole)
  · exact (h.single hsingle).1 (heq ▸ hrole)

/-- A sign of an entry comes last. -/
theorem EntryFits.appends_sign {entry : List Entry} (h : EntryFits .separator entry) {slot : Slot}
    (hslot : slot = .colon ∨ slot = .assign) : Form.Appends .keyValue slot entry := by
  intro e he
  have hrole := Form.mem_roles he
  obtain ⟨hcolon, hassign⟩ := h.signs rfl
  constructor
  · rintro heq
    rw [heq] at hrole
    rcases hslot with rfl | rfl
    · exact hcolon hrole
    · exact hassign hrole
  · refine Bool.not_eq_true _ ▸ fun hafter => ?_
    rcases standsAfter_keyValue hafter with heq | heq | heq | heq <;> rw [heq] at hrole
    · exact h.items hrole
    · exact hcolon hrole
    · exact hassign hrole
    · exact h.value hrole

/-- The value of an entry comes last. -/
theorem EntryFits.appends_value {expected : GroupExpectation} {entry : List Entry}
    (h : EntryFits expected entry) : Form.Appends .keyValue .value entry := by
  intro e he
  have hrole := Form.mem_roles he
  refine ⟨fun heq => h.value (heq ▸ hrole), ?_⟩
  cases hkind : e.1 with
  | slot other =>
    refine Bool.not_eq_true _ ▸ fun hafter => ?_
    obtain ⟨hmem, place, otherPlace, hvalue, hother, hlt⟩ := Form.standsAfter_slot hafter
    simp only [NodeKind.slots, List.mem_cons, List.not_mem_nil, or_false] at hmem
    rcases hmem with rfl | rfl | rfl | rfl <;> cases hvalue <;> cases hother <;> omega
  | item => exact absurd (hkind ▸ hrole) h.items
  | extra => rfl

/-! ### Signals -/

section Signals

variable {config : Config} {signal : Signal}

/-- The state that reads an item or a value begins with the character. -/
theorem takes_itemReader {r : GroupReader} {c : Char}
    (h : r.canStartItem c ∨ r.kind = .dictionary ∧ r.ctx.canStart c) :
    Reader.Takes config (.char c) 2 r.itemReader := by
  unfold itemReader
  split
  · rename_i hkind
    have hword : Text.isWordStart c := by simpa [canStartItem, hkind] using h
    exact Reader.takes_named (.inl rfl) r.ctx.level true hword
  · rename_i hkind
    have hword : Text.isWordStart c := by simpa [canStartItem, hkind] using h
    exact Reader.takes_named (.inr rfl) r.ctx.level true hword
  · rename_i hparameters hvalues
    refine ExpressionReader.takes_of_canStart ?_
    rcases h with h | h
    · cases hkind : r.kind <;> simp_all [canStartItem]
    · exact h.2

@[simp]
theorem text_itemReader (r : GroupReader) : r.itemReader.text = "" := by
  unfold itemReader
  split <;> simp [ExpressionReader.text]

/-- A group at rest that goes on may host any state. -/
theorem Rests.hosts {r : GroupReader} (h : r.Rests) (hdone : r.done = false) : r.Hosts :=
  ⟨h.toSound, hdone, by simp [h.idle], by simp [h.idle]⟩

/-- Taking a separator keeps the invariant. -/
theorem onComma_taken {r : GroupReader} (h : r.Rests) (hgoing : r.Going)
    (hkind : r.kind.isSingle = false) {c : Char} (hcomma : c = ',') (takes : Reader → Prop) :
    Reader.Taken (.char c) takes (.group r)
      ⟨.group { r.sealEntry with
        form := r.sealEntry.form ++ [(.extra, .ofPunct .comma)], expected := .item },
        .accept, {}⟩ := by
  have hnext : ({ r.sealEntry with
      form := r.sealEntry.form ++ [(.extra, .ofPunct .comma)], expected := .item } :
      GroupReader).Rests := by
    refine ⟨{ h.toSound with
      unclosed := ?_, single := ?_, dictionary := nofun, entry := nofun, value := nofun }, h.idle⟩
    · simpa [sealEntry] using h.unclosed_sealedForm
    · intro hsingle
      exact absurd hsingle (by simp [sealEntry, hkind])
  refine ⟨rfl, hnext, ?_⟩
  rw [Reader.text_group, Reader.text_group, (hnext.toSound.toGoing hgoing.done).text_eq,
    hgoing.text_eq, hcomma]
  simp [body, sealedForm, sealEntry, Punct.spelling, Signal.text, Signal.toChar?]

/-- The sign between the key and the value of an entry is placed at the end. -/
theorem placeSign_yields {r : GroupReader} (h : r.Going) {entry : List Entry}
    (hentry : r.entry = some entry) (hseparator : r.expected = .separator) {slot : Slot}
    (hslot : slot = .colon ∨ slot = .assign) (token : Tree) :
    Yields (Form.place .keyValue slot token entry) fun entry' =>
      ({ r with entry := some entry', expected := .value } : GroupReader).Going ∧
        ({ r with entry := some entry', expected := .value } : GroupReader).body
          = r.body ++ token.text := by
  have hfits := h.entry entry hentry
  rw [hseparator] at hfits
  have hdeclares : NodeKind.keyValue.declares slot := by rcases hslot with rfl | rfl <;> rfl
  have hne : slot ≠ .value := by rcases hslot with rfl | rfl <;> decide
  rw [Form.place_of_appends token hdeclares (hfits.appends_sign hslot)]
  refine yields_ok.2 ⟨⟨{ h.toSound with
    single := ?_, dictionary := ?_, entry := ?_, value := fun _ => rfl },
    h.done, h.handback, h.line⟩, ?_⟩
  · exact fun hsingle => ⟨(h.single hsingle).1, nofun⟩
  · exact fun _ => h.dictionary (by simp [hentry])
  · rintro _ ⟨⟩
    exact ⟨by simp [hfits.items], by simp [hfits.value, hne.symm], nofun⟩
  · simp [body, sealedForm, hentry, String.append_assoc]

/-- What a group makes of a character that does not close it: it takes the character, or leaves
it to others if there are no brackets. -/
theorem onInnerChar_yields (config : Config) {r : GroupReader} (h : r.Rests) (hgoing : r.Going)
    (c : Char) :
    Yields (r.onInnerChar c) fun reaction =>
      Reader.Taken (.char c) (Reader.Takes config (.char c) 2) (.group r)
          (reaction.map .group) ∨
        Reader.Left (.group r) (reaction.map .group) ∧
          ¬ (r.expected = .item ∧ r.canStartItem c) := by
  have henter (goal : GroupGoal) (hitem : goal = .item → r.expected = .item)
      (hvalue : goal = .value → r.expected = .value)
      (hstart : r.canStartItem c ∨ r.kind = .dictionary ∧ r.ctx.canStart c) :
      Reader.Taken (.char c) (Reader.Takes config (.char c) 2) (.group r)
        ⟨.group { r with goal }, .enter r.itemReader, {}⟩ := by
    refine ⟨rfl, ⟨{ h.toSound with }, hgoing.done, hitem, hvalue⟩, ?_, takes_itemReader hstart⟩
    rw [text_itemReader, String.append_empty]
    rfl
  rw [onInnerChar]
  split
  · rename_i hcomma
    exact yields_pure.2 (.inl (onComma_taken h hgoing hcomma.2 hcomma.1 _))
  · split
    · rename_i hcomma hcolon
      split
      · exact yields_pure.2 (.inl ⟨rfl, h.hosts hgoing.done, rfl⟩)
      · rename_i entry hentry
        refine (placeSign_yields hgoing hentry hcolon.2.2 (.inl rfl) _).bind
          fun entry' hentry' => ?_
        refine yields_pure.2 (.inl ⟨rfl, ⟨hentry'.1.toSound, h.idle⟩, ?_⟩)
        rw [Reaction.map, Reader.text_group, Reader.text_group, hentry'.1.text_eq, hentry'.2,
          hgoing.text_eq, hcolon.1]
        simp [Punct.spelling, Signal.text, Signal.toChar?]
    · split
      · rename_i hitem
        exact yields_pure.2 (.inl (henter .item (fun _ => hitem.1) (by simp) (.inl hitem.2)))
      · split
        · rename_i hitem hvalue
          have hkind := h.dictionary (h.value hvalue.1)
          exact yields_pure.2
            (.inl (henter .value (by simp) (fun _ => hvalue.1) (.inr ⟨hkind, hvalue.2⟩)))
        · rename_i hitem hvalue
          refine yields_pure.2 ?_
          cases hbare : r.kind.isBare with
          | true => exact .inr ⟨⟨rfl, rfl, h.hands, rfl, Nat.le_refl _⟩, hitem⟩
          | false => exact .inl ⟨rfl, h.hosts hgoing.done, rfl⟩

/-- What a group makes of a character that is not trivia. -/
theorem onChar_yields (config : Config) {r : GroupReader} (h : r.Rests) (hgoing : r.Going)
    (c : Char) :
    Yields (r.onChar c) fun reaction =>
      Reader.Taken (.char c) (Reader.Takes config (.char c) 2) (.group r)
          (reaction.map .group) ∨
        Reader.Left (.group r) (reaction.map .group) ∧
          ¬ (r.expected = .item ∧ r.canStartItem c) := by
  unfold onChar
  split
  · rename_i closing hclosing
    split
    · rename_i hcloses
      obtain ⟨⟨opening, closing'⟩, hbrackets, heq⟩ := Option.map_eq_some_iff.1 hclosing
      obtain rfl : closing' = closing := heq
      obtain ⟨_, hsingle, hdeclares⟩ := GroupKind.declares_of_brackets hbrackets
      have hspelling := Punct.spelling_of_startsWith hcloses hsingle
      have hplace : Form.place r.sealEntry.kind.nodeKind .closing (.ofPunct closing')
          r.sealEntry.form = .ok (r.sealedForm ++ [(.slot .closing, .ofPunct closing')]) :=
        Form.place_of_appends _ hdeclares h.appends_closing
      dsimp only
      rw [hplace]
      refine yields_pure.2 (.inl ⟨rfl, h.hands, ?_⟩)
      simp [Reaction.map, GroupReader.text, sealedForm, sealEntry, hgoing.handback, hgoing.line,
        hspelling, Signal.text, Signal.toChar?]
    · exact onInnerChar_yields config h hgoing c
  · exact onInnerChar_yields config h hgoing c

/-- What a group makes of any signal. -/
theorem onSignal_yields (config : Config) {r : GroupReader} (h : r.Rests) (hgoing : r.Going)
    (signal : Signal) :
    Yields (r.onSignal signal) fun reaction =>
      Reader.Taken signal (Reader.Takes config signal 2) (.group r) (reaction.map .group) ∧
          signal.toChar?.isSome ∨
        Reader.Left (.group r) (reaction.map .group) ∧
          ∀ c, signal = .char c → ¬ (r.expected = .item ∧ r.canStartItem c) := by
  have hleft (notices : Notices) :
      Reader.Left (.group r) (Reaction.map .group ⟨r, .complete, notices⟩) :=
    ⟨rfl, rfl, h.hands, rfl, Nat.le_refl _⟩
  unfold onSignal
  rw [if_neg (by simp [hgoing.done]), if_neg (by simp [h.opened])]
  split
  · rename_i signal _ _ t htrivia
    obtain ⟨htext, hchar⟩ := TriviaStart.suits_of_at? htrivia
    have hnext := hgoing.pushExtras [t]
    refine yields_pure.2 (.inl ⟨⟨rfl, ⟨hnext.toSound, by simp [h.idle]⟩, ?_⟩, hchar⟩)
    have hsignal : t.text = signal.text := htext
    simp [Reaction.map, hnext.text_eq, hgoing.text_eq, hsignal]
  · rename_i signal _ _ leaf htrivia
    obtain ⟨hbegins, hchar⟩ := TriviaStart.suits_of_at? htrivia
    have htakes : Reader.Takes config signal 2 (.leaf leaf) :=
      (Reader.takes_leaf hbegins).mono (by omega)
    refine yields_pure.2 (.inl ⟨⟨rfl, ⟨{ h.toSound with }, hgoing.done, by simp, by simp⟩, ?_,
      htakes⟩, hchar⟩)
    rw [Reader.text_leaf, hbegins.text_eq, String.append_empty]
    rfl
  · rename_i c htrivia
    refine (onChar_yields config h hgoing c).mono fun reaction hreaction => ?_
    rcases hreaction with htaken | ⟨hleft, hitem⟩
    · exact .inl ⟨htaken, rfl⟩
    · exact .inr ⟨hleft, fun c' heq => by cases heq; exact hitem⟩
  · exact yields_pure.2 (.inr ⟨hleft _, by simp⟩)
  · rename_i hchar hend htrivia
    exact yields_pure.2 (.inr ⟨hleft _, fun c heq => absurd heq (hchar c)⟩)

/-- A group answers every signal. -/
theorem answers {r : GroupReader} (h : r.Rests) : Reader.Answers config signal (.group r) := by
  by_cases hdone : r.done = true
  · have hreacts : r.onSignal signal = .ok ⟨r, .complete, {}⟩ := by
      unfold onSignal
      exact if_pos hdone
    exact ⟨_, congrArg (Except.map _) hreacts, .left ⟨rfl, rfl, h.hands, rfl, Nat.le_refl _⟩⟩
  · rw [Bool.not_eq_true] at hdone
    refine Yields.map (onSignal_yields config h (h.toGoing hdone) signal)
      fun reaction hreaction => ?_
    rcases hreaction with ⟨htaken, hchar⟩ | ⟨hleft, _⟩
    · exact .taken (htaken.mono fun inner hinner => hinner.mono (by omega)) hchar
    · exact .left hleft

/-- A group without brackets that is opened on the first character of an item takes it. -/
theorem takes_patterns {ctx : Context} {c : Char} (h : ctx.canStart c) :
    Reader.Takes config (.char c) 3 (.group (.start .patterns ctx)) := by
  have hrests : (GroupReader.start .patterns ctx).Rests :=
    { hands := .nothing false
      opened := rfl
      unclosed := by simp [start]
      single := nofun
      dictionary := nofun
      entry := nofun
      value := nofun
      idle := rfl }
  obtain ⟨reaction, hreacts, htaken | hleft⟩ :=
    onSignal_yields config hrests (hrests.toGoing rfl) (.char c)
  · exact ⟨_, congrArg (Except.map _) hreacts, htaken.1⟩
  · exact absurd ⟨rfl, h⟩ (hleft.2 c rfl)

end Signals

/-! ### Deliveries -/

/-- Every group but a single expression in brackets holds items. -/
theorem hasItems_of_not_single {kind : GroupKind} (h : kind.isSingle = false) :
    kind.nodeKind.hasItems := by
  cases kind <;> first | rfl | cases h

/-- Only a dictionary has an open entry. -/
theorem Sound.entry_eq_none {r : GroupReader} (h : r.Sound) (hkind : r.kind ≠ .dictionary) :
    r.entry = none := by
  cases hentry : r.entry with
  | none => rfl
  | some entry => exact absurd (h.dictionary (by simp [hentry])) hkind

/-- A group that goes on, and that took up a text at its end. -/
structure Took (r : GroupReader) (text : String) (r' : GroupReader) : Prop extends r'.Going where
  goal_eq : r'.goal = r.goal
  body_eq : r'.body = r.body ++ text

/-- The one expression in brackets is placed at the end. -/
theorem placeInner_yields {r : GroupReader} (h : r.Going) (hitem : r.expected = .item)
    (hkind : r.kind.isSingle) (token : Tree) :
    Yields (r.placeInner token) (r.Took token.text) := by
  have hdeclares : r.kind.nodeKind.declares .inner := by
    cases hk : r.kind <;> simp [hk, GroupKind.isSingle] at hkind <;> rfl
  have hentry : r.entry = none := by
    refine h.entry_eq_none fun hdictionary => ?_
    rw [hdictionary] at hkind
    cases hkind
  rw [placeInner, Form.place_of_appends token hdeclares (h.appends_inner hkind hitem)]
  refine yields_pure.2 ⟨⟨{ h.toSound with
    unclosed := ?_, single := ?_, entry := ?_, value := nofun }, h.done, h.handback, h.line⟩,
    rfl, ?_⟩
  · simp [h.unclosed]
  · exact fun _ => ⟨by simp [(h.single hkind).1], nofun⟩
  · simp [hentry]
  · simp [body, sealedForm, hentry]

/-- An element of a list is placed at the end. -/
theorem placeElement_yields {r : GroupReader} (h : r.Going) (hkind : r.kind.isSingle = false)
    (hentry : r.entry = none) (token : Tree) :
    Yields (r.placeElement token) (r.Took token.text) := by
  rw [placeElement, Form.addItem_of_hasItems token r.form (hasItems_of_not_single hkind)]
  refine yields_pure.2 ⟨⟨{ h.toSound with
    unclosed := ?_, single := ?_, entry := ?_, value := nofun }, h.done, h.handback, h.line⟩,
    rfl, ?_⟩
  · simp [h.unclosed]
  · intro hsingle
    rw [hkind] at hsingle
    cases hsingle
  · simp [hentry]
  · simp [body, sealedForm, hentry]

/-- The key of an entry begins a new entry at the end. -/
theorem placeKey_yields {r : GroupReader} (h : r.Going) (hkind : r.kind = .dictionary)
    (token : Tree) : Yields (r.placeKey token) (r.Took token.text) := by
  have hitems : r.kind.nodeKind.checkRole .item = .ok () := by rw [hkind]; rfl
  rw [placeKey, hitems, Form.place_of_appends token rfl (Form.appends_nil _ _)]
  refine yields_pure.2 ⟨⟨{ h.toSound with
    unclosed := h.unclosed_sealedForm, single := ?_, dictionary := ?_, entry := ?_,
    value := nofun }, h.done, h.handback, h.line⟩, rfl, ?_⟩
  · intro hsingle
    have hdictionary : r.kind.isSingle := hsingle
    rw [hkind] at hdictionary
    cases hdictionary
  · exact fun _ => hkind
  · rintro _ ⟨⟩
    exact ⟨by simp, by simp, by simp⟩
  · simp [body, sealedForm, sealEntry]

/-- An item is placed at the end. -/
theorem placeItem_yields {r : GroupReader} (h : r.Going) (hitem : r.expected = .item)
    (token : Tree) : Yields (r.placeItem token) (r.Took token.text) := by
  unfold placeItem
  split
  · rename_i hkind
    exact placeInner_yields h hitem (by rw [hkind]; rfl) token
  · rename_i hkind
    exact placeInner_yields h hitem (by rw [hkind]; rfl) token
  · rename_i hkind
    exact placeKey_yields h hkind token
  · rename_i hparenthesized hsubscript hdictionary
    refine placeElement_yields h ?_ (h.entry_eq_none hdictionary) token
    cases hkind : r.kind <;> simp_all [GroupKind.isSingle]

/-- The value of an entry is placed at the end, and completes the entry. -/
theorem placeValue_yields {r : GroupReader} (h : r.Going) (hvalue : r.expected = .value)
    (token : Tree) :
    Yields (r.placeValue token) fun r' => r.Took token.text { r' with expected := .separator } := by
  obtain ⟨entry, hentry⟩ := Option.isSome_iff_exists.1 (h.value hvalue)
  have hkind := h.dictionary (by simp [hentry])
  have hfits := h.entry entry hentry
  rw [placeValue, hentry]
  dsimp only
  rw [Form.place_of_appends token rfl hfits.appends_value]
  refine yields_pure.2 ⟨⟨{ h.toSound with
    unclosed := ?_, single := ?_, dictionary := nofun, entry := nofun,
    value := nofun }, h.done, h.handback, h.line⟩, rfl, ?_⟩
  · simp [sealEntry, sealedForm, h.unclosed]
  · intro hsingle
    have hdictionary : r.kind.isSingle := hsingle
    rw [hkind] at hdictionary
    cases hdictionary
  · simp [body, sealedForm, sealEntry, hentry, String.append_assoc]

/-- Extras are placed at the end. -/
theorem Going.took_pushExtras {r : GroupReader} (h : r.Going) (tokens : List Tree) :
    r.Took (Tree.textOfTokens tokens) (r.pushExtras tokens) :=
  ⟨h.pushExtras tokens, by simp, by simp⟩

/-- The token of a delivery is placed at the end. -/
theorem onToken_yields {r : GroupReader} (h : r.Going) {goal : GroupGoal}
    (hitem : goal = .item → r.expected = .item) (hvalue : goal = .value → r.expected = .value)
    (token : Tree) : Yields (r.onToken goal token) (r.Took token.text) := by
  have hextra : Yields (pure (r.pushExtras [token]) : Except Misfit GroupReader)
      (r.Took token.text) := by
    simpa using h.took_pushExtras [token]
  unfold onToken
  split
  · exact hextra
  · cases goal with
    | trivia => exact hextra
    | item => exact placeItem_yields h (hitem rfl) token
    | value => exact (placeValue_yields h (hvalue rfl) token).bind fun r' hr' => yields_pure.2 hr'

/-- A delivery without a token adds nothing. -/
theorem onToken?_yields {r : GroupReader} (h : r.Going) (goal : GroupGoal)
    (hitem : goal = .item → r.expected = .item) (hvalue : goal = .value → r.expected = .value)
    (token : Option Tree) :
    Yields (r.onToken? goal token) (r.Took (Tree.textOfTokens token.toList)) := by
  cases token with
  | none => exact yields_ok.2 ⟨h, rfl, by simp⟩
  | some token => simpa [onToken?] using onToken_yields h hitem hvalue token

/-- The receipt of a group fits what was delivered to it. -/
abbrev Fits (text : String) (budget : Nat) (r : GroupReader) : Prop :=
  ({ state := .group r } : Receipt Reader).Fits .group text budget

/-- A group that opened nothing fits with its own text and steps. -/
theorem Rests.fits {r : GroupReader} (h : r.Rests) {text : String} {budget : Nat}
    (htext : r.text = text) (hbudget : 1 + handbackCost r.handback ≤ budget) :
    Fits text budget r :=
  ⟨rfl, h, by simp [Reader.textOfAll, htext], by
    simpa [Reader.costOfAll, Reader.cost, Reader.credit] using hbudget⟩

/-- A group that goes on has nothing to pay for. -/
theorem Going.fits {r : GroupReader} (h : r.Going) (hidle : r.goal = .trivia) {text : String}
    {budget : Nat} (htext : r.body = text) (hbudget : 1 ≤ budget) : Fits text budget r :=
  Rests.fits ⟨h.toSound, hidle⟩ (h.text_eq.trans htext)
    (by simpa [h.handback, handbackCost] using hbudget)

/-- A token without a position stays an extra, or is handed on where there are no brackets. -/
theorem reject_fits {r : GroupReader} (h : r.Going) (hidle : r.goal = .trivia) (token : Tree) :
    Fits (r.body ++ token.text) 11 (r.reject token) := by
  rw [reject]
  split
  · have hrests : ({ r with handback := some token, done := true } : GroupReader).Rests := by
      refine ⟨{ h.toSound with hands := ?_ }, hidle⟩
      simp only [h.line]
      exact .token token
    refine hrests.fits ?_ (Nat.le_refl 11)
    simp [GroupReader.text_eq, textHandedOn, h.line, body, sealedForm]
  · exact (h.pushExtras _).fits (by simp [hidle]) (by simp) (by omega)

/-- A token that was handed to a group is placed as the sign of an entry or rejected. -/
theorem onHandback_yields {r : GroupReader} (h : r.Going) (hidle : r.goal = .trivia)
    (token : Tree) : Yields (r.onHandback token) (Fits (r.body ++ token.text) 11) := by
  unfold onHandback
  split
  · rename_i entry hentry
    split
    · rename_i hassign
      refine (placeSign_yields h hentry hassign.2 (.inr rfl) token).bind fun entry' hentry' => ?_
      exact yields_pure.2 (hentry'.1.fits hidle hentry'.2 (by omega))
    · exact yields_pure.2 (reject_fits h hidle token)
  · exact yields_pure.2 (reject_fits h hidle token)

/-- The beginning of a line ends a group only where there are no brackets. -/
theorem onLine_fits {r : GroupReader} (h : r.Going) (hidle : r.goal = .trivia)
    (line : LineStart) : Fits (r.body ++ textOfLine (some line)) 1 (r.onLine line) := by
  rw [onLine]
  split
  · have hrests : ({ r with line := some line, done := true } : GroupReader).Rests := by
      refine ⟨{ h.toSound with hands := ?_ }, hidle⟩
      simp only [h.handback]
      exact .line line
    refine hrests.fits ?_ (by simp [h.handback, handbackCost])
    simp [GroupReader.text_eq, textHandedOn, h.handback, body, sealedForm]
  · refine (h.pushExtras _).fits (by simp [hidle]) ?_ (Nat.le_refl 1)
    cases hindent : line.indent <;> simp [textOfLine, hindent]

/-- What comes after the token of a delivery is placed or handed on. -/
theorem afterToken_yields {r : GroupReader} (h : r.Going) (hidle : r.goal = .trivia)
    {handback : Option Tree} {line : Option LineStart}
    (hexclusive : handback = none ∨ line = none) :
    Yields (r.onHandback? handback) fun r' =>
      Fits (r.body ++ textHandedOn handback line) (1 + handbackCost handback)
        (r'.onLine? line) := by
  cases handback with
  | none =>
    refine yields_ok.2 ?_
    cases line with
    | none => exact h.fits hidle (by simp) (Nat.le_refl 1)
    | some line =>
      simpa [textHandedOn, onLine?, handbackCost] using onLine_fits h hidle line
  | some token =>
    obtain rfl : line = none := hexclusive.resolve_left (by simp)
    simpa [textHandedOn, onHandback?, onLine?, handbackCost] using onHandback_yields h hidle token

/-- A group takes every delivery of a state that it hosts. -/
theorem onDelivery_yields {r : GroupReader} {layer : Layer} {d : Delivery} (h : r.Hosts)
    (hd : d.From layer) :
    Yields (r.onDelivery d) (Fits (r.text ++ d.text) ((Reader.group r).cost + d.credit layer)) := by
  have hfrom : r.Going := h.toSound.toGoing h.going
  have hgoing : ({ r with goal := .trivia } : GroupReader).Going :=
    ⟨{ h.toSound with }, h.going, hfrom.handback, hfrom.line⟩
  have hbody : ({ r with goal := .trivia } : GroupReader).body = r.body := rfl
  have hcost : (Reader.group r).cost = 1 := by
    simp [Reader.cost, Reader.credit, hfrom.handback, handbackCost]
  have hcredit : handbackCost d.handback ≤ d.credit layer := by
    rw [Delivery.credit]
    split
    · rename_i hleaf
      simp [(hd.leaf hleaf).2.2.1, handbackCost]
    · exact Nat.le_refl _
  rw [hfrom.text_eq, hcost, onDelivery]
  refine (onToken?_yields (hgoing.pushExtras d.leading) r.goal ?_ ?_ d.token).bind
    fun placed hplaced => ?_
  · simpa using h.goal_item
  · simpa using h.goal_value
  · have hidle : (placed.pushExtras d.trailing).goal = .trivia := by simp [hplaced.goal_eq]
    have htext : (placed.pushExtras d.trailing).body ++ textHandedOn d.handback d.line
        = r.body ++ d.text := by
      simp [hplaced.body_eq, hbody, Delivery.text, String.append_assoc]
    refine (afterToken_yields (hplaced.toGoing.pushExtras d.trailing) hidle hd.exclusive).bind
      fun handed hhanded => ?_
    rw [htext] at hhanded
    exact yields_pure.2 (hhanded.mono (by omega))

/-- A group delivers its text and what it hands on. -/
theorem finish_eq {r : GroupReader} (h : HandsOn r.done r.handback r.line) :
    r.finish.From .group ∧ r.finish.text = r.text ∧ r.finish.handback = r.handback := by
  refine ⟨⟨h.exclusive, nofun, nofun, nofun, nofun, False.elim⟩, ?_, rfl⟩
  simp [finish, Delivery.text, GroupReader.text]

end GroupReader

end ScriptTree
