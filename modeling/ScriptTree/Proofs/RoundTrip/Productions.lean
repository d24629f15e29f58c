import ScriptTree.Proofs.RoundTrip.Expressions
import ScriptTree.Proofs.RoundTrip.Lines

/-!
# Reading productions part by part

A production fills its parts in order. What a signal begins is the first part that may stand where
the production is; the parts before it are left out.
-/

namespace ScriptTree

open Automaton (Reaches Feeds Delivers ofStack)
open Text (isWordStart)
open Production (part after)

/-- The parts after the reserved word of a production. -/
def Production.partsAfterKeyword (kind : NodeKind) : List Part :=
  ((Production.parts kind).dropWhile fun part => part.slot != .keyword).tail

/-- A production that has read the given children and may still fill the given parts. -/
def seqAt (kind : NodeKind) (level : Nat) (form : List Entry) (remaining : List Part) :
    SequenceReader :=
  { kind, form, remaining, level, brackets := false }

namespace SequenceReader

variable {config : Config} {kind : NodeKind} {level : Nat} {form : List Entry} {c : Char}
  {remaining rest : List Part} {p : Part} {slot : Slot} {below : List Reader} {t : Tree}
  {signal : Signal}

/-- What a state inside read goes where the state was opened for; the extras after it and the
beginning of a line come next. -/
theorem onDelivery_ended {r r' : SequenceReader}
    (h : { r with active := none }.onToken r.active t = .ok { state := r' })
    (trailing : List Tree) (line? : Option LineStart) :
    (Reader.sequence r).onDelivery { token := some t, trailing, line := line? } =
      .ok { state := .sequence ((r'.pushExtras trailing).onLine? line?) } := by
  simp only [Reader.onDelivery, onDelivery, pushExtras_nil, onToken?, h, bind, Except.bind]
  rfl

theorem onDelivery_of_onToken {r r' : SequenceReader}
    (h : { r with active := none }.onToken r.active t = .ok { state := r' }) :
    (Reader.sequence r).onDelivery { token := some t } = .ok { state := .sequence r' } := by
  simpa [onLine?] using onDelivery_ended h [] none

/-- A part that the signal begins. -/
theorem startable?_head {r : SequenceReader} (hmet : r.requirementMet p = true)
    (hstart : r.canStart p.shape signal = true) :
    r.startable? signal (p :: rest) = some (p, rest) := by
  simp [startable?, hmet, hstart]

/-- A character that begins a part. -/
theorem onSignal_char (hblank : Text.isInlineSpace c = false)
    (hstart : (seqAt kind level form remaining).startable? (.char c) remaining = some (p, rest)) :
    (Reader.sequence (seqAt kind level form remaining)).onSignal config (.char c) =
      ((seqAt kind level form remaining).startPart p rest (.char c)).map (·.map .sequence) := by
  have hbefore : (seqAt kind level form remaining).beforePart (.char c) =
      .ok (seqAt kind level form remaining) := by simp [beforePart]
  have hdone : (seqAt kind level form remaining).done = false := rfl
  have hremaining : (seqAt kind level form remaining).remaining = remaining := rfl
  simp [Reader.onSignal, onSignal, TriviaStart.inline?_char hblank, hdone, hbefore, hremaining,
    hstart, bind, Except.bind]

/-- A blank between two parts is an extra. -/
theorem reaches_blank (hconfig : config.IsUnlimited) :
    Reaches config Signal.EndsBlank (ofStack (.sequence (seqAt kind level form remaining) :: below))
      [' '] (ofStack (.sequence (seqAt kind level (form ++ [(Role.extra, blank)]) remaining) ::
        below)) := by
  have htop : (Reader.sequence (seqAt kind level form remaining)).onSignal config (.char ' ') =
      .ok ⟨.sequence (seqAt kind level form remaining), .enter (.leaf (.blank .space "")), {}⟩ := by
    have hblank : Text.isInlineSpace ' ' = true := by decide
    simp [Reader.onSignal, onSignal, TriviaStart.inline?_blank hblank, seqAt]
    rfl
  refine Automaton.reaches_blank hconfig htop (onDelivery_of_onToken ?_)
  have htrivia : (Tree.ofText .space " ").isTrivia = true := rfl
  simp [onToken, htrivia]
  rfl

/-- A token that fills the first part that is left. -/
theorem offer?_fills (hmet : (seqAt kind level form remaining).requirementMet p = true)
    (hfills : fills t p.shape = true)
    (hplace : Form.place kind p.slot t form = .ok (form ++ [(Role.slot p.slot, t)])) :
    (seqAt kind level form remaining).offer? t (p :: rest) =
      .ok (some { state := seqAt kind level (form ++ [(Role.slot p.slot, t)]) rest }) := by
  have hkind : (seqAt kind level form remaining).kind = kind := rfl
  have hform : (seqAt kind level form remaining).form = form := rfl
  simp only [offer?, hmet, Bool.not_true, Bool.false_eq_true, if_false, hfills, if_true, hkind,
    hform, hplace]
  rfl

/-- A word that fills a part. -/
theorem reaches_word (hconfig : config.IsUnlimited) {w : String}
    (hw : Text.isWord w.toList = true)
    (hstart : ∀ c, isWordStart c = true →
      (seqAt kind level form remaining).startable? (.char c) remaining = some (p, rest))
    (hshape : p.shape = .name ∨ ∃ words, p.shape = .keyword words)
    (hmet : (seqAt kind level form remaining).requirementMet p = true)
    (hfills : fills (wordTree w) p.shape = true)
    (hplace : Form.place kind p.slot (wordTree w) form =
      .ok (form ++ [(Role.slot p.slot, wordTree w)])) :
    Reaches config Signal.EndsWord (ofStack (.sequence (seqAt kind level form remaining) :: below))
      w.toList (ofStack (.sequence (seqAt kind level (form ++ [(Role.slot p.slot, wordTree w)])
        rest) :: below)) := by
  obtain ⟨c, cs, hlist, hc⟩ := Text.exists_cons_of_isWord hw
  obtain ⟨htrivia, hinvalid, _⟩ := wordTree_leafKind? w
  have htop : (Reader.sequence (seqAt kind level form remaining)).onSignal config (.char c) =
      .ok ⟨.sequence { seqAt kind level form remaining with active := some (p, rest) },
        .enter (.leaf (.word "")), {}⟩ := by
    rw [onSignal_char (Text.isInlineSpace_of_isWordStart hc) (hstart c hc)]
    obtain ⟨_, shape, _⟩ := p
    rcases hshape with h | ⟨words, h⟩ <;> obtain rfl : shape = _ := h <;>
      simp [startPart, partReader?] <;> rfl
  have hleaf : p.shape.isLeaf = true := by
    rcases hshape with h | ⟨words, h⟩ <;> rw [h] <;> rfl
  have htoken : (seqAt kind level form remaining).onToken (some (p, rest)) (wordTree w) =
      .ok { state := seqAt kind level (form ++ [(Role.slot p.slot, wordTree w)]) rest } := by
    simp [onToken, htrivia, hinvalid, hleaf, offer?_fills hmet hfills hplace]
  exact (Automaton.spells_word hw).reaches hconfig hlist htop
    (.of_onDelivery (Reader.finish_leaf_of_token? (LeafReader.token?_word w) config)
      (onDelivery_of_onToken htoken))

/-- What a state inside read fills the part that the state was opened for. -/
theorem onToken_inner (htrivia : t.isTrivia = false) (hinvalid : t.isInvalid = false)
    (hshape : p.shape.isLeaf = false)
    (hplace : Form.place kind p.slot t form = .ok (form ++ [(Role.slot p.slot, t)])) :
    (seqAt kind level form remaining).onToken (some (p, rest)) t =
      .ok { state := seqAt kind level (form ++ [(Role.slot p.slot, t)]) rest } := by
  have hkind : (seqAt kind level form remaining).kind = kind := rfl
  have hform : (seqAt kind level form remaining).form = form := rfl
  simp only [onToken, htrivia, hinvalid, hshape, Bool.false_or, Bool.false_eq_true, if_false, hkind,
    hform, hplace]
  rfl

/-- An expression where a value stands. -/
theorem reaches_value (hconfig : config.IsUnlimited) {condition : Condition}
    (hshape : p.shape = .expression .value)
    (hmet : (seqAt kind level form (p :: rest)).requirementMet p = true)
    (hplace : Form.place kind p.slot condition.expr.tree form =
      .ok (form ++ [(Role.slot p.slot, condition.expr.tree)])) :
    Reaches config (Signal.EndsExpr (.value level))
      (ofStack (.sequence (seqAt kind level form (p :: rest)) :: below)) condition.expr.chars
      (ofStack (.sequence (seqAt kind level (form ++ [(Role.slot p.slot, condition.expr.tree)])
        rest) :: below)) := by
  obtain ⟨e, hvalid⟩ := condition
  obtain ⟨slot, shape, requires⟩ := p
  obtain rfl : shape = .expression .value := hshape
  obtain ⟨htrivia, hinvalid, _⟩ := e.tree_kind
  have hplain : (Context.value level).IsPlain := ⟨rfl, rfl⟩
  have htop : ∀ signal, Signal.BeginsExpr signal →
      (Reader.sequence (seqAt kind level form (⟨slot, .expression .value, requires⟩ ::
        rest))).onSignal config signal =
          .ok ⟨.sequence { seqAt kind level form (⟨slot, .expression .value, requires⟩ :: rest) with
            active := some (⟨slot, .expression .value, requires⟩, rest) },
              .enter (.expression { ctx := .value level }), {}⟩ := by
    intro signal hsignal
    obtain ⟨c, rfl, hblank, hcan, _⟩ := hsignal.exists_char hplain
    rw [onSignal_char hblank (startable?_head hmet hcan)]
    simp [startPart, partReader?]
    rfl
  exact (Expr.isRead hconfig e hvalid).reaches hconfig hvalid hplain (by simp) htop
    (onDelivery_of_onToken (onToken_inner htrivia hinvalid rfl hplace))

/-- A mark that fills a part. -/
theorem delivers_mark {mark : Punct} (hc : mark.startsWith c = true)
    (hstart : (seqAt kind level form remaining).startable? (.char c) remaining = some (p, rest))
    (hshape : p.shape = .punct mark)
    (hplace : Form.place kind p.slot (.ofPunct mark) form =
      .ok (form ++ [(Role.slot p.slot, Tree.ofPunct mark)])) :
    Delivers config (.ofChar c) (ofStack (.sequence (seqAt kind level form remaining) :: below))
      (ofStack (.sequence (seqAt kind level (form ++ [(Role.slot p.slot, Tree.ofPunct mark)])
        rest) :: below)) := by
  obtain ⟨hchar, hblank⟩ := GroupReader.char_of_startsWith hc
  obtain ⟨slot, shape, requires⟩ := p
  obtain rfl : shape = .punct mark := hshape
  have hkind : (seqAt kind level form remaining).kind = kind := rfl
  have hform : (seqAt kind level form remaining).form = form := rfl
  rw [hchar]
  refine Automaton.delivers_accept ((onSignal_char hblank hstart).trans ?_)
  simp only [startPart, hkind, hform, hplace]
  rfl

/-- Parameters in brackets, of which there are none. -/
theorem feeds_noParameters (hconfig : config.IsUnlimited)
    (hshape : p.shape = .group .parameters)
    (hmet : (seqAt kind level form (p :: rest)).requirementMet p = true)
    (hplace : ∀ t, Form.place kind p.slot t form = .ok (form ++ [(Role.slot p.slot, t)])) :
    Feeds config (ofStack (.sequence (seqAt kind level form (p :: rest)) :: below)) ['(', ')']
      (ofStack (.sequence (seqAt kind level (form ++ [(Role.slot p.slot,
        groupTree .parametersList .openParen .closeParen [])]) rest) :: below)) := by
  obtain ⟨slot, shape, requires⟩ := p
  obtain rfl : shape = .group .parameters := hshape
  have hbetween : GroupKind.parameters.IsBetween .openParen .closeParen '(' ')' :=
    ⟨rfl, by decide, by decide, by decide⟩
  have hcan : (seqAt kind level form (⟨slot, .group .parameters, requires⟩ :: rest)).canStart
      (.group .parameters) (.char '(') = true := by
    simp only [canStart]
    decide
  have htop : (Reader.sequence (seqAt kind level form (⟨slot, .group .parameters, requires⟩ ::
      rest))).onSignal config (.ofChar '(') =
        .ok ⟨.sequence { seqAt kind level form (⟨slot, .group .parameters, requires⟩ :: rest) with
            active := some (⟨slot, .group .parameters, requires⟩, rest) },
          .enter (.group (.start .parameters (Context.value level).bracketed)), {}⟩ :=
    onSignal_char (by decide) (startable?_head hmet hcan)
  exact GroupReader.feeds_group hconfig hbetween htop (.refl config _ _) (List.forall_mem_nil _)
    (onDelivery_of_onToken (onToken_inner rfl rfl rfl (hplace _)))

/-! ### Headings -/

/-- The rest of a line that announces a block, after its reserved word: the production is left with
the part of the block, which is the only one that it has. -/
structure Heads (config : Config) (kind : NodeKind) (level : Nat) (word : Keyword) (cs : List Char)
    (form : List Entry) (slot : Slot) (blockKind : BlockKind) : Prop where
  feeds : ∀ below, Feeds config
    (ofStack (.sequence (seqAt kind level [(.slot .keyword, keywordTree word)]
      (Production.partsAfterKeyword kind)) :: below)) cs
    (ofStack (.sequence (seqAt kind level (form ++ [(Role.slot .colon, Tree.ofPunct .colon)])
      [after .colon slot (.block blockKind)]) :: below))
  place : ∀ t, Form.place kind slot t (form ++ [(Role.slot .colon, Tree.ofPunct .colon)]) =
    .ok (form ++ [(Role.slot .colon, Tree.ofPunct .colon)] ++ [(Role.slot slot, t)])
  block : ∀ p ∈ Production.parts kind, p.isBlock = true → p.slot = slot

/-- The colon of a heading. -/
theorem feeds_colon (hstart : (seqAt kind level form remaining).startable? (.char ':') remaining =
      some (part .colon (.punct .colon), rest))
    (hplace : Form.place kind .colon (Tree.ofPunct .colon) form =
      .ok (form ++ [(Role.slot .colon, Tree.ofPunct .colon)])) :
    Feeds config (ofStack (.sequence (seqAt kind level form remaining) :: below)) [':']
      (ofStack (.sequence (seqAt kind level (form ++ [(Role.slot .colon, Tree.ofPunct .colon)])
        rest) :: below)) :=
  .cons (delivers_mark (by decide) hstart rfl hplace) (.nil _)

/-- A name after the reserved word. -/
theorem reaches_name (hconfig : config.IsUnlimited) {word : Keyword} {name : Name}
    (hparts : Production.partsAfterKeyword kind = part slot .name :: rest)
    (hdeclares : kind.declares slot = true)
    (happends : Form.Appends kind slot [(.slot .keyword, keywordTree word), (.extra, blank)]) :
    Reaches config Signal.EndsWord (ofStack (.sequence (seqAt kind level
        [(.slot .keyword, keywordTree word)] (Production.partsAfterKeyword kind)) :: below))
      (' ' :: name.text.toList)
      (ofStack (.sequence (seqAt kind level (namedForm word slot name) rest) :: below)) := by
  have hname : wordTree name.text = .ofText .identifier name.text := by
    rw [wordTree, name.notReserved]
  have hword : Reaches config Signal.EndsWord (ofStack (.sequence (seqAt kind level
      [(.slot .keyword, keywordTree word), (.extra, blank)] (part slot .name :: rest)) :: below))
        name.text.toList (ofStack (.sequence (seqAt kind level
          ([(Role.slot .keyword, keywordTree word), (Role.extra, blank)] ++
            [(Role.slot slot, wordTree name.text)]) rest) :: below)) := by
    refine reaches_word hconfig name.isWord (p := part slot .name)
      (fun c hc => startable?_head rfl hc) (.inl rfl) rfl ?_ ?_
    · rw [hname]
      rfl
    · exact Form.place_of_appends _ hdeclares happends
  rw [hname] at hword
  rw [hparts]
  exact (reaches_blank hconfig).trans hword (Automaton.begins_word name.isWord)

/-- A condition and a colon. -/
theorem heads_conditioned (hconfig : config.IsUnlimited)
    (hkind : kind = .ifStatement ∨ kind = .whileStatement) (level : Nat) (word : Keyword)
    (condition : Condition) :
    Heads config kind level word (' ' :: (condition.expr.chars ++ [':']))
      (conditionedForm word condition) .body .statements := by
  have hparts : Production.partsAfterKeyword kind = [part .condition (.expression .value),
      part .colon (.punct .colon), after .colon .body (.block .statements)] := by
    rcases hkind with rfl | rfl <;> rfl
  have hcondition : Form.place kind .condition condition.expr.tree
      [(.slot .keyword, keywordTree word), (.extra, blank)] =
        .ok (conditionedForm word condition) := by
    rcases hkind with rfl | rfl <;>
      exact Form.place_of_appends _ rfl (by simp [Form.Appends]; decide)
  have hcolon : Form.place kind .colon (Tree.ofPunct .colon) (conditionedForm word condition) =
      .ok (conditionedForm word condition ++ [(Role.slot .colon, Tree.ofPunct .colon)]) := by
    rcases hkind with rfl | rfl <;>
      exact Form.place_of_appends _ rfl (by simp [Form.Appends, conditionedForm]; decide)
  have hbody : ∀ t, Form.place kind .body t
      (conditionedForm word condition ++ [(Role.slot .colon, Tree.ofPunct .colon)]) =
        .ok (conditionedForm word condition ++ [(Role.slot .colon, Tree.ofPunct .colon)] ++
          [(Role.slot .body, t)]) := by
    rcases hkind with rfl | rfl <;> intro t <;>
      exact Form.place_of_appends _ rfl (by simp [Form.Appends, conditionedForm]; decide)
  have hblock : ∀ p ∈ Production.parts kind, p.isBlock = true → p.slot = .body := by
    rcases hkind with rfl | rfl <;> decide
  refine ⟨fun below => ?_, hbody, hblock⟩
  rw [hparts]
  have hvalue : Reaches config (Signal.EndsExpr (.value level))
      (ofStack (.sequence (seqAt kind level [(.slot .keyword, keywordTree word), (.extra, blank)]
        [part .condition (.expression .value), part .colon (.punct .colon),
          after .colon .body (.block .statements)]) :: below)) condition.expr.chars
      (ofStack (.sequence (seqAt kind level (conditionedForm word condition)
        [part .colon (.punct .colon), after .colon .body (.block .statements)]) :: below)) :=
    reaches_value hconfig rfl rfl hcondition
  refine (reaches_blank hconfig).feeds (hvalue.feeds (feeds_colon rfl hcolon) ?_) ?_
  · exact Automaton.begins_cons (Signal.endsExpr_ofChar _ (by decide))
  · exact (condition.expr.begins.mono Signal.endsBlank_of_beginsExpr).append

/-- The `in` of a `for`: no type stands before it. -/
theorem reaches_in (hconfig : config.IsUnlimited) (name : Name) :
    Reaches config Signal.EndsWord (ofStack (.sequence (seqAt .forStatement level
        (namedForm .forKw .loopVariable name)
          ((Production.partsAfterKeyword .forStatement).drop 1)) :: below)) (' ' :: Keyword.inKw.spelling.toList)
      (ofStack (.sequence (seqAt .forStatement level (namedForm .forKw .loopVariable name ++
        [(Role.extra, blank), (Role.slot .inKeyword, keywordTree .inKw)])
          ((Production.partsAfterKeyword .forStatement).drop 4)) :: below)) := by
  have hplace : Form.place .forStatement .inKeyword (wordTree Keyword.inKw.spelling)
      (namedForm .forKw .loopVariable name ++ [(Role.extra, blank)]) =
        .ok (namedForm .forKw .loopVariable name ++ [(Role.extra, blank)] ++
          [(Role.slot .inKeyword, wordTree Keyword.inKw.spelling)]) :=
    Form.place_of_appends _ rfl (by simp [Form.Appends, namedForm]; decide)
  have hstart : ∀ c, isWordStart c = true → (seqAt .forStatement level
      (namedForm .forKw .loopVariable name ++ [(Role.extra, blank)])
        ((Production.partsAfterKeyword .forStatement).drop 1)).startable? (.char c)
          ((Production.partsAfterKeyword .forStatement).drop 1) =
            some (part .inKeyword (.keyword [.inKw]),
              (Production.partsAfterKeyword .forStatement).drop 4) := by
    intro c hc
    have hcolon : Punct.colon.startsWith c = false := by
      refine beq_eq_false_iff_ne.2 fun heq => ?_
      obtain rfl := Option.some.inj heq
      exact absurd hc (by decide)
    simp [startable?, Production.partsAfterKeyword, Production.parts, part, after, requirementMet,
      canStart, seqAt, hc, hcolon, Form.isFilled, namedForm]
  have hword : Reaches config Signal.EndsWord (ofStack (.sequence (seqAt .forStatement level
      (namedForm .forKw .loopVariable name ++ [(Role.extra, blank)])
        ((Production.partsAfterKeyword .forStatement).drop 1)) :: below))
      Keyword.inKw.spelling.toList
      (ofStack (.sequence (seqAt .forStatement level (namedForm .forKw .loopVariable name ++
        [(Role.extra, blank)] ++ [(Role.slot .inKeyword, wordTree Keyword.inKw.spelling)])
          ((Production.partsAfterKeyword .forStatement).drop 4)) :: below)) :=
    reaches_word hconfig (Keyword.isWord_spelling .inKw) hstart (.inr ⟨_, rfl⟩) rfl rfl hplace
  rw [wordTree_spelling] at hword
  exact (reaches_blank hconfig).trans hword (Automaton.begins_word (Keyword.isWord_spelling .inKw))

/-- The name, the collection and the colon of a `for`. -/
theorem heads_for (hconfig : config.IsUnlimited) (level : Nat) (name : Name)
    (collection : Condition) :
    Heads config .forStatement level .forKw (' ' :: (name.text.toList ++
        ' ' :: (Keyword.inKw.spelling.toList ++ ' ' :: (collection.expr.chars ++ [':']))))
      (forForm name collection) .body .statements := by
  constructor
  case place =>
    exact fun _ => Form.place_of_appends _ rfl (by simp [Form.Appends, forForm, namedForm]; decide)
  case block => decide
  case feeds =>
    intro below
    have hcollection : Form.place .forStatement .collection collection.expr.tree
        (namedForm .forKw .loopVariable name ++
          [(Role.extra, blank), (Role.slot .inKeyword, keywordTree .inKw), (Role.extra, blank)]) =
            .ok (forForm name collection) :=
      Form.place_of_appends _ rfl (by simp [Form.Appends, namedForm]; decide)
    have hcolon : Form.place .forStatement .colon (Tree.ofPunct .colon) (forForm name collection) =
        .ok (forForm name collection ++ [(Role.slot .colon, Tree.ofPunct .colon)]) :=
      Form.place_of_appends _ rfl (by simp [Form.Appends, namedForm, forForm]; decide)
    have hname : Reaches config Signal.EndsWord (ofStack (.sequence (seqAt .forStatement level
        [(.slot .keyword, keywordTree .forKw)] (Production.partsAfterKeyword .forStatement)) ::
          below)) (' ' :: name.text.toList) (ofStack (.sequence (seqAt .forStatement level
            (namedForm .forKw .loopVariable name)
              ((Production.partsAfterKeyword .forStatement).drop 1)) :: below)) :=
      reaches_name hconfig rfl rfl (by simp [Form.Appends]; decide)
    have hvalue : Reaches config (Signal.EndsExpr (.value level)) (ofStack (.sequence (seqAt
        .forStatement level (namedForm .forKw .loopVariable name ++
          [(Role.extra, blank), (Role.slot .inKeyword, keywordTree .inKw), (Role.extra, blank)])
            ((Production.partsAfterKeyword .forStatement).drop 4)) :: below)) collection.expr.chars
        (ofStack (.sequence (seqAt .forStatement level (forForm name collection)
          ((Production.partsAfterKeyword .forStatement).drop 5)) :: below)) :=
      reaches_value hconfig rfl rfl hcollection
    have hrest : Feeds config (ofStack (.sequence (seqAt .forStatement level
        (namedForm .forKw .loopVariable name ++
          [(Role.extra, blank), (Role.slot .inKeyword, keywordTree .inKw)])
            ((Production.partsAfterKeyword .forStatement).drop 4)) :: below))
        (' ' :: (collection.expr.chars ++ [':']))
        (ofStack (.sequence (seqAt .forStatement level
          (forForm name collection ++ [(Role.slot .colon, Tree.ofPunct .colon)])
            [after .colon .body (.block .statements)]) :: below)) :=
      (reaches_blank hconfig).feeds (hvalue.feeds (feeds_colon rfl hcolon)
        (Automaton.begins_cons (Signal.endsExpr_ofChar _ (by decide))))
          (collection.expr.begins.mono Signal.endsBlank_of_beginsExpr).append
    have hblank (cs : List Char) : Automaton.Begins Signal.EndsWord (' ' :: cs) :=
      (Automaton.begins_blank cs).mono Signal.endsWord_of_isBlank
    exact hname.feeds ((reaches_in hconfig name).feeds hrest (hblank _)) (hblank _)

/-- The name, the brackets and the colon of a method. -/
theorem heads_method (hconfig : config.IsUnlimited) (level : Nat) (name : Name) :
    Heads config .method level .funcKw (' ' :: (name.text.toList ++ ['(', ')', ':']))
      (namedForm .funcKw .name name ++
        [(Role.slot .parameters, groupTree .parametersList .openParen .closeParen [])])
      .body .statements := by
  constructor
  case place =>
    exact fun _ => Form.place_of_appends _ rfl (by simp [Form.Appends, namedForm]; decide)
  case block => decide
  case feeds =>
    intro below
    have hname : Reaches config Signal.EndsWord (ofStack (.sequence (seqAt .method level
        [(.slot .keyword, keywordTree .funcKw)] (Production.partsAfterKeyword .method)) :: below))
        (' ' :: name.text.toList) (ofStack (.sequence (seqAt .method level
          (namedForm .funcKw .name name) ((Production.partsAfterKeyword .method).drop 1)) ::
            below)) :=
      reaches_name hconfig rfl rfl (by simp [Form.Appends]; decide)
    have hparameters : Feeds config (ofStack (.sequence (seqAt .method level
        (namedForm .funcKw .name name) ((Production.partsAfterKeyword .method).drop 1)) :: below))
        ['(', ')'] (ofStack (.sequence (seqAt .method level (namedForm .funcKw .name name ++
          [(Role.slot .parameters, groupTree .parametersList .openParen .closeParen [])])
            ((Production.partsAfterKeyword .method).drop 2)) :: below)) :=
      feeds_noParameters hconfig rfl rfl fun _ =>
        Form.place_of_appends _ rfl (by simp [Form.Appends, namedForm]; decide)
    have hcolon : Feeds config (ofStack (.sequence (seqAt .method level
        (namedForm .funcKw .name name ++
          [(Role.slot .parameters, groupTree .parametersList .openParen .closeParen [])])
            ((Production.partsAfterKeyword .method).drop 2)) :: below)) [':'] (ofStack
        (.sequence (seqAt .method level (namedForm .funcKw .name name ++
          [(Role.slot .parameters, groupTree .parametersList .openParen .closeParen [])] ++
            [(Role.slot .colon, Tree.ofPunct .colon)]) [after .colon .body (.block .statements)]) ::
              below)) :=
      feeds_colon rfl (Form.place_of_appends _ rfl (by simp [Form.Appends, namedForm]; decide))
    exact hname.feeds (hparameters.append hcolon)
      (Automaton.begins_cons (Signal.endsWord_ofChar (by decide)))

/-- The name and the colon of a class. -/
theorem heads_innerClass (hconfig : config.IsUnlimited) (level : Nat) (name : Name) :
    Heads config .innerClass level .classKw (' ' :: (name.text.toList ++ [':']))
      (namedForm .classKw .name name) .members .members := by
  constructor
  case place =>
    exact fun _ => Form.place_of_appends _ rfl (by simp [Form.Appends, namedForm]; decide)
  case block => decide
  case feeds =>
    intro below
    have hname : Reaches config Signal.EndsWord (ofStack (.sequence (seqAt .innerClass level
        [(.slot .keyword, keywordTree .classKw)] (Production.partsAfterKeyword .innerClass)) ::
          below)) (' ' :: name.text.toList) (ofStack (.sequence (seqAt .innerClass level
            (namedForm .classKw .name name) ((Production.partsAfterKeyword .innerClass).drop 1)) ::
              below)) :=
      reaches_name hconfig rfl rfl (by simp [Form.Appends]; decide)
    exact hname.feeds (feeds_colon rfl
        (Form.place_of_appends _ rfl (by simp [Form.Appends, namedForm]; decide)))
      (Automaton.begins_cons (Signal.endsWord_ofChar (by decide)))

/-- The colon of an `else`. -/
theorem heads_else :
    Heads config .elseBranch level .elseKw [':'] [(.slot .keyword, keywordTree .elseKw)] .body
      .statements := by
  constructor
  case place => exact fun _ => Form.place_of_appends _ rfl (by simp [Form.Appends]; decide)
  case block => decide
  case feeds =>
    intro below
    have hcolon : Form.place .elseBranch .colon (Tree.ofPunct .colon)
        [(.slot .keyword, keywordTree .elseKw)] =
          .ok ([(Role.slot .keyword, keywordTree .elseKw)] ++
            [(Role.slot .colon, Tree.ofPunct .colon)]) :=
      Form.place_of_appends _ rfl (by simp [Form.Appends]; decide)
    exact feeds_colon rfl hcolon

end SequenceReader

end ScriptTree
