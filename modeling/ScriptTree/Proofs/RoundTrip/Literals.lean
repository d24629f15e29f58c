import ScriptTree.Arena.Alloc
import ScriptTree.Proofs.Literals.NumberValues
import ScriptTree.Proofs.Literals.Quotes
import ScriptTree.Proofs.RoundTrip.EarlyEnds
import ScriptTree.Proofs.RoundTrip.ExprParsing

/-!
# Leaves that were checked are read as themselves

A leaf may be put into a tree by itself, if its text is one of its kind. Read as an expression, the
text of an identifier, a number or a string is that leaf again, and so is a scene path, unless it is
plain and has a point in it or it is quoted and has a line break in it.
-/

namespace ScriptTree

open Text (isWordStart isWordContinue isInlineSpace isDigit)

/-! ### Texts that grow by a character -/

namespace Text

variable (text : String) (c : Char) (cs : List Char)

theorem append_ofList_cons : text ++ String.ofList (c :: cs) = text.push c ++ String.ofList cs := by
  apply String.toList_injective
  simp

theorem append_ofList_concat :
    text ++ String.ofList (cs ++ [c]) = (text ++ String.ofList cs).push c := by
  apply String.toList_injective
  simp

theorem singleton_append_ofList : String.singleton c ++ String.ofList cs = String.ofList (c :: cs) := by
  apply String.toList_injective
  simp

theorem singleton_ne_empty : String.singleton c ≠ "" := by
  intro hempty
  have hlength := congrArg String.length hempty
  simp at hlength

end Text

/-! ### How a leaf takes its text -/

namespace LeafReader

variable {r r' next : LeafReader} {cs : List Char} {c : Char} {text : String}

/-- A leaf takes characters one after another, and goes on. -/
inductive Takes : LeafReader → List Char → LeafReader → Prop where
  | nil (r : LeafReader) : Takes r [] r
  | cons {r next r' : LeafReader} {c : Char} {cs : List Char}
      (h : r.feed (.ofChar c) = (next, .accept)) (hrest : Takes next cs r') : Takes r (c :: cs) r'

theorem Takes.concat (h : Takes r cs next) (hlast : next.feed (.ofChar c) = (r', .accept)) :
    Takes r (cs ++ [c]) r' := by
  induction h with
  | nil r => exact .cons hlast (.nil r')
  | cons h _ ih => exact .cons h (ih hlast)

/-- A leaf takes a text and is read as a token: either it goes on until the text ends, or it ends
with the last character. -/
inductive Spans (r : LeafReader) : List Char → Tree → Prop where
  | going {cs : List Char} {r' : LeafReader} {t : Tree} (h : Takes r cs r')
      (hwhole : r'.isCutShort = false) (htoken : r'.token? = some t) : Spans r cs t
  | closed {cs : List Char} {c : Char} {r₁ r' : LeafReader} {t : Tree} (h : Takes r cs r₁)
      (hlast : r₁.feed (.ofChar c) = (r', .done)) (htoken : r'.token? = some t) :
    Spans r (cs ++ [c]) t

theorem Spans.cons {t : Tree} (hfirst : r.feed (.ofChar c) = (next, .accept))
    (h : Spans next cs t) : Spans r (c :: cs) t := by
  cases h with
  | going h hwhole htoken => exact .going (.cons hfirst h) hwhole htoken
  | closed h hlast htoken => exact .closed (.cons hfirst h) hlast htoken

end LeafReader

namespace Automaton

variable {config : Config} {below : List Reader}

/-- The characters of a leaf are taken by the innermost state. -/
theorem feeds_takes {r r' : LeafReader} {cs : List Char} (h : r.Takes cs r') :
    Feeds config (ofStack (.leaf r :: below)) cs (ofStack (.leaf r' :: below)) := by
  induction h with
  | nil r => exact .nil _
  | cons h _ ih =>
    refine .cons (delivers_accept ?_) ih
    simp [Reader.onSignal, h, Reader.stepOfVerdict]

/-- What a leaf spans is read as its token, if nothing comes after it. -/
theorem reaches_spans (hconfig : config.IsUnlimited) {r : LeafReader} {cs : List Char} {t : Tree}
    {around after : Reader} (h : r.Spans cs t)
    (hdelivery : around.onDelivery { token := some t } = .ok { state := after }) :
    Reaches config (· = .endOfText) (ofStack (.leaf r :: around :: below)) cs
      (ofStack (after :: below)) := by
  cases h with
  | @going cs r' t h hwhole htoken =>
    refine ⟨_, feeds_takes h, ?_⟩
    rintro signal d rfl hd
    have hstop : r'.feed .endOfText = (r', .stop) := by cases r' <;> rfl
    exact delivers_leaveLeaf hconfig hstop hwhole
      (.of_onDelivery (Reader.finish_leaf_of_token? htoken config) hdelivery) hd
  | @closed cs c r₁ r' t h hlast htoken =>
    refine .of_feeds ((feeds_takes h).append (.cons (delivers_acceptAndComplete ?_
      (.of_onDelivery (Reader.finish_leaf_of_token? htoken config) hdelivery)) (.nil _)))
    simp [Reader.onSignal, hlast, Reader.stepOfVerdict]

end Automaton

/-! ### A leaf as an expression -/

/-- The tree of a text that is nothing but a leaf. -/
def leafStatement (kind : LeafKind) (text : String) : Tree :=
  .ofForm .expressionStatement [(.slot .expression, .ofText kind text)]

/-- The characters with which numbers, strings and scene paths begin. -/
def leafBeginnings : List Char :=
  "0123456789.\"'&^$%".toList

/-- The leaf that an operand consists of is the whole expression. -/
theorem fold_operand (t : Tree) : Climbed.fold none [.operand t] = .ok { token := some t } := by
  simp [Climbed.fold, Climbed.climb, Climbed.primary, Climbed.skipTrivia, Climbed.extend, checkDepth,
    ParseError.ofDepth, bind, Except.bind, pure, Except.pure, Except.mapError]

section Beginning

variable {config : Config} {c : Char}

theorem of_mem_leafBeginnings (h : c ∈ leafBeginnings) : Signal.ofChar c = .char c ∧
    isInlineSpace c = false ∧ isWordStart c = false ∧ Context.standalone.canStart c = true := by
  have hall : ∀ c ∈ leafBeginnings, (c ≠ '\n' ∧ c ≠ '\r' ∧ c ≠ '#' ∧ c ≠ '\\') ∧
      isInlineSpace c = false ∧ isWordStart c = false ∧ Context.standalone.canStart c = true := by
    unfold leafBeginnings
    decide
  obtain ⟨hordinary, hclasses⟩ := hall c h
  exact ⟨Signal.ofChar_eq_char hordinary, hclasses⟩

/-- A leaf begins an expression. -/
theorem onSignal_root (h : c ∈ leafBeginnings) : ∀ signal, signal = .char c →
    (Reader.root {}).onSignal config signal =
      .ok ⟨.root { begun := true }, .enter (.expression { ctx := .standalone }), {}⟩ := by
  rintro signal rfl
  obtain ⟨-, hblank, -, hstart⟩ := of_mem_leafBeginnings h
  have htrivia : TriviaStart.bracketed? (.char c) = none := TriviaStart.at?_char true hblank
  simp [Reader.onSignal, RootReader.onSignal, htrivia, hstart, Reaction.map]

/-- An expression begins with a leaf. -/
theorem onSignal_first (h : c ∈ leafBeginnings) {r : LeafReader}
    (hbegins : ExpressionReader.leafBegunBy? .standalone c = some r) : ∀ signal, signal = .char c →
    (Reader.expression { ctx := .standalone }).onSignal config signal =
      .ok ⟨.expression { ctx := .standalone, goal := .operand }, .enter (.leaf r), {}⟩ := by
  rintro signal rfl
  obtain ⟨-, hblank, hword, -⟩ := of_mem_leafBeginnings h
  have hoperators : Context.standalone.operators = true := rfl
  change (exprReader .standalone 0 []).onSignal config (.char c) = _
  rw [ExpressionReader.onSignal_char ExpressionReader.isSettled_nil hblank]
  simp [ExpressionReader.expectsOperand, ExpressionReader.onOperandChar, hword, hoperators,
    hbegins, ExpressionReader.enter, Reaction.map]

end Beginning

/-- A text is read as a leaf if it begins one and the leaf spans it. -/
theorem parse_leaf {config : Config} (hconfig : config.IsUnlimited) {kind : LeafKind} {text : String}
    {c : Char} {cs : List Char} {r : LeafReader} (htext : text.toList = c :: cs)
    (hfirst : c ∈ leafBeginnings)
    (hbegins : ExpressionReader.leafBegunBy? .standalone c = some r)
    (hkind : kind = .number ∨ kind = .string ∨ kind = .nodePath)
    (hspans : r.Spans (c :: cs) (.ofText kind text)) :
    parse .expression config text = .ok (leafStatement kind text).placed := by
  let t : Tree := .ofText kind text
  have hdelivery : (Reader.expression { ctx := .standalone, goal := .operand }).onDelivery
      { token := some t } = .ok { state := exprReader .standalone 0 [.operand t] } := by
    rcases hkind with rfl | rfl | rfl <;> rfl
  have hplaced : (Reader.root { begun := true }).onDelivery { token := some t } =
      .ok { state := .root { form := [(.slot .expression, t)], begun := true } } := by
    rcases hkind with rfl | rfl | rfl <;> rfl
  have hhands : (exprReader .standalone 0 [.operand t]).HandsTo config (.root { begun := true })
      [.root { form := [(.slot .expression, t)], begun := true }] := by
    refine .of_onDelivery ?_ hplaced
    simp [exprReader, Reader.finish, ExpressionReader.finish, hconfig.frames,
      ExpressionReader.settle, ExpressionReader.settlePiece, fold_operand]
  have hbegin : Automaton.Begins (· = .char c) (c :: cs) :=
    Automaton.begins_cons (of_mem_leafBeginnings hfirst).1
  have hleaf : Automaton.Reaches config (· = .endOfText)
      (.ofStack [.root {}]) (c :: cs) (.ofStack [exprReader .standalone 0 [.operand t],
        .root { begun := true }]) := by
    refine Automaton.reaches_enter hconfig hbegin (onSignal_root hfirst) ?_
    exact Automaton.reaches_enter hconfig hbegin (onSignal_first hfirst hbegins)
      (Automaton.reaches_spans hconfig hspans hdelivery)
  have hexpression := hleaf.trans_nil (Automaton.reaches_complete hconfig (by
    rintro signal rfl
    rfl) hhands)
  rw [← htext] at hexpression
  refine Automaton.Reaches.parse_eq hconfig .expression hexpression rfl
    (Automaton.delivers_endOfText rfl rfl) ?_
  rfl

/-- Read as an expression, a text is a leaf of the kind with exactly that text, and every leaf has a
place. -/
def ReadsBack (config : Config) (kind : LeafKind) (text : String) : Prop :=
  ∃ t extent, parse .expression config text = .ok t ∧ t.isWellFormed = true ∧
    Form.occupant? .expression t.form = some (.leaf kind text extent)

/-- A text that is read as nothing but a leaf is read back. -/
theorem readsBack_of_parse {config : Config} {kind : LeafKind} {text : String}
    (hkind : kind ≠ .invalid)
    (h : parse .expression config text = .ok (leafStatement kind text).placed) :
    ReadsBack config kind text := by
  refine ⟨_, ⟨.start, Position.start.advance text⟩, h, ?_, rfl⟩
  simp [leafStatement, hkind]

/-- A text is not read back if the leaf that it begins ends before the text does. -/
theorem not_readsBack_of_stop {config : Config} (hconfig : config.IsUnlimited) {kind : LeafKind}
    {text : String} {c d : Char} {cs rest : List Char} {r r' : LeafReader} {t : Tree}
    (htext : text.toList = c :: cs ++ d :: rest) (hfirst : c ∈ leafBeginnings)
    (hbegins : ExpressionReader.leafBegunBy? .standalone c = some r)
    (htakes : r.Takes (c :: cs) r') (hstop : r'.feed (.ofChar d) = (r', .stop))
    (htoken : r'.token? = some t) (ht : t.leafText? = some (String.ofList (c :: cs))) :
    ¬ ReadsBack config kind text := by
  rintro ⟨tree, extent, hparse, -, hoccupant⟩
  have hbegin : Automaton.Begins (· = .char c) (c :: cs) :=
    Automaton.begins_cons (of_mem_leafBeginnings hfirst).1
  have hfeeds : Automaton.Feeds config (.ofStack [.root {}]) (c :: cs) (.ofStack [.leaf r',
      .expression { ctx := .standalone, goal := .operand }, .root { begun := true }]) :=
    Automaton.feeds_enter hconfig hbegin (onSignal_root hfirst)
      (Automaton.feeds_enter hconfig hbegin (onSignal_first hfirst hbegins)
        (Automaton.feeds_takes htakes))
  have hother : t.IsOther text := by
    cases t with
    | node kind form extent => cases ht
    | leaf kind s extent =>
      obtain rfl : s = String.ofList (c :: cs) := Option.some.inj ht
      refine ⟨fun hempty => ?_, fun hwhole => ?_⟩
      · have hlength := congrArg String.length hempty
        simp [Tree.text] at hlength
      · have hlength := congrArg List.length htext
        rw [← Option.some.inj hwhole] at hlength
        simp at hlength
  exact Automaton.leafText?_occupant?_parse_ne htext hfeeds hstop htoken hother hparse hoccupant rfl

/-! ### Numbers -/

/-- The ten decimal digits. -/
theorem Text.mem_digits_of_isDigit {c : Char} (h : isDigit c = true) : c ∈ "0123456789".toList := by
  rw [isDigit, Bool.and_eq_true, decide_eq_true_eq, decide_eq_true_eq] at h
  have hfirst : '0'.toNat ≤ c.toNat := h.1
  have hlast : c.toNat ≤ '9'.toNat := h.2
  simp only [Char.reduceToNat] at hfirst hlast
  rw [← Char.ofNat_toNat c]
  generalize c.toNat = n at hfirst hlast
  interval_cases n <;> decide

namespace NumberScan

variable {scan scan' : NumberScan} {c : Char} {cs : List Char} {text : String}

/-- What belongs to a number has no signal of its own. -/
theorem ofChar_of_feed (h : scan.feed c = some scan') : Signal.ofChar c = .char c := by
  have hnone : ∀ c ∈ ['\n', '\r', '#', '\\'], scan.feed c = none := by
    cases scan with
    | mark radix | radixDigits radix => cases radix <;> decide
    | _ => decide
  apply Signal.ofChar_eq_char
  refine ⟨?_, ?_, ?_, ?_⟩ <;>
  · rintro rfl
    rw [hnone _ (by decide)] at h
    cases h

/-- A number takes the characters that its scanner takes. -/
theorem takes_of_feedAll (h : scan.feedAll cs = some scan') (text : String) :
    (LeafReader.number scan text).Takes cs (.number scan' (text ++ String.ofList cs)) := by
  induction cs generalizing scan text with
  | nil =>
    obtain rfl := Option.some.inj h
    simpa using LeafReader.Takes.nil (.number scan text)
  | cons c cs ih =>
    rw [feedAll_cons] at h
    obtain ⟨next, hnext, hrest⟩ := Option.bind_eq_some_iff.1 h
    have hfeed : (LeafReader.number scan text).feed (.ofChar c) =
        (.number next (text.push c), .accept) := by
      rw [ofChar_of_feed hnext]
      simp [LeafReader.feed, LeafReader.feedChar, hnext]
    rw [Text.append_ofList_cons]
    exact .cons hfeed (ih hrest (text.push c))

/-- A number begins with a digit or a point. -/
theorem first_of_feed (h : start.feed c = some scan) : isDigit c = true ∨ c = '.' := by
  simp only [feed] at h
  split_ifs at h with hzero hdigit hpoint
  · rw [beq_iff_eq] at hzero
    subst hzero
    exact .inl rfl
  · exact .inl hdigit
  · exact .inr (beq_iff_eq.1 hpoint)

end NumberScan

/-- A number is read as itself. -/
theorem parse_number {config : Config} (hconfig : config.IsUnlimited) {text : String}
    {value : NumberValue} (h : NumberValue.ofText text = .ok value) :
    parse .expression config text = .ok (leafStatement .number text).placed := by
  have hkind : (NumberScan.start.feedAll text.toList).bind NumberScan.kind? ≠ none := by
    intro hnone
    rw [NumberValue.ofText_eq_malformed_iff.2 hnone] at h
    cases h
  obtain ⟨kind, hkind⟩ := Option.ne_none_iff_exists'.1 hkind
  obtain ⟨scan, hscan, hkind⟩ := Option.bind_eq_some_iff.1 hkind
  cases htext : text.toList with
  | nil =>
    rw [htext] at hscan
    obtain rfl := Option.some.inj hscan
    cases hkind
  | cons c cs =>
    have hspans : (LeafReader.number .start "").Spans (c :: cs) (.ofText .number text) := by
      rw [← htext]
      refine .going (NumberScan.takes_of_feedAll hscan "") rfl ?_
      simp [LeafReader.token?, hkind]
    rw [htext, NumberScan.feedAll_cons] at hscan
    obtain ⟨next, hnext, -⟩ := Option.bind_eq_some_iff.1 hscan
    have hfirst := NumberScan.first_of_feed hnext
    refine parse_leaf hconfig htext ?_ ?_ (.inl rfl) hspans
    · rcases hfirst with hdigit | rfl
      · have hsubset : ∀ c ∈ "0123456789".toList, c ∈ leafBeginnings := by decide
        exact hsubset c (Text.mem_digits_of_isDigit hdigit)
      · decide
    · rcases hfirst with hdigit | rfl
      · simp [ExpressionReader.leafBegunBy?, hdigit]
      · rfl

/-! ### Strings and scene paths -/

namespace StringScan

variable {scan next final : StringScan} {c : Char} {cs : List Char} {text : String}

/-- A literal that ended is behind its last quote. -/
theorem phase_of_feed_done (h : scan.feed c = (next, .done)) : next.phase = .done := by
  have hstep : ((scan.feed c).2 = .done) → (scan.feed c).1.phase = .done := by
    unfold feed feedBody feedOpening
    split
    all_goals
      simp only [apply_ite Prod.fst, apply_ite Prod.snd]
      grind
  rw [h] at hstep
  exact hstep rfl

/-- Nothing is read behind the last quote. -/
theorem eq_nil_of_done (hdone : scan.phase = .done) (h : scan.feedAll cs = (final, [])) :
    cs = [] ∧ final = scan := by
  cases cs with
  | nil => exact ⟨rfl, (congrArg Prod.fst h).symm⟩
  | cons c cs =>
    have hstop : scan.feed c = (scan, .stop) := by
      unfold feed
      rw [hdone]
    rw [feedAll, hstop] at h
    cases (Prod.mk.inj h).2

/-- A literal that is read begins with its mark or its first quote. -/
theorem first_of_feedAll (h : start.feedAll (c :: cs) = (final, [])) :
    c ∈ ['&', '^', '"', '\''] := by
  simp only [feedAll, start, feed, feedOpening, isQuote, Bool.or_eq_true, beq_iff_eq] at h
  split_ifs at h with hname hpath hquote
  · simp [hname]
  · simp [hpath]
  · rcases hquote with rfl | rfl <;> decide
  · cases (Prod.mk.inj h).2

/-- A leaf that leaves its characters to a scanner takes all of a literal but the last one. -/
theorem takes_of_feedAll {f : StringScan → String → LeafReader} {rest : List Char}
    (hfeed : ∀ c ∈ cs, ∀ scan more, (f scan (text ++ more)).feed (.ofChar c) =
      LeafReader.scanString scan (text ++ more) c f)
    (hall : scan.feedAll (cs ++ c :: rest) = (final, [])) :
    ∃ next, (f scan text).Takes cs (f next (text ++ String.ofList cs)) ∧
      next.feedAll (c :: rest) = (final, []) := by
  induction cs generalizing scan text with
  | nil => exact ⟨scan, by simpa using LeafReader.Takes.nil (f scan text), hall⟩
  | cons d cs ih =>
    have hfirst := hfeed d List.mem_cons_self scan ""
    rw [String.append_empty] at hfirst
    rw [List.cons_append, feedAll] at hall
    rcases hscan : scan.feed d with ⟨next, verdict⟩
    rw [hscan] at hall
    rw [LeafReader.scanString, hscan] at hfirst
    cases verdict with
    | stop => cases (Prod.mk.inj hall).2
    | done =>
      obtain ⟨hnil, -⟩ := eq_nil_of_done (phase_of_feed_done hscan) hall
      simp at hnil
    | accept =>
      have hmore : ∀ c ∈ cs, ∀ scan more, (f scan (text.push d ++ more)).feed (.ofChar c) =
          LeafReader.scanString scan (text.push d ++ more) c f := by
        intro c hc scan more
        have hpush : text ++ (String.singleton d ++ more) = text.push d ++ more := by
          apply String.toList_injective
          simp
        have hnext := hfeed c (List.mem_cons_of_mem d hc) scan (String.singleton d ++ more)
        rwa [hpush] at hnext
      obtain ⟨last, htakes, hlast⟩ := ih hmore hall
      rw [Text.append_ofList_cons]
      exact ⟨last, .cons hfirst htakes, hlast⟩

/-- A leaf that leaves its characters to a scanner spans a literal that is read to its end. -/
theorem spans_of_feedAll {f : StringScan → String → LeafReader} {kind : LeafKind}
    (hfeed : ∀ c ∈ cs, ∀ scan more, (f scan (text ++ more)).feed (.ofChar c) =
      LeafReader.scanString scan (text ++ more) c f)
    (hwhole : ∀ scan text, scan.isTerminated → (f scan text).isCutShort = false)
    (htoken : ∀ scan text, scan.isTerminated → (f scan text).token? = some (.ofText kind text))
    (hall : scan.feedAll cs = (final, [])) (hterminated : final.isTerminated) :
    (f scan text).Spans cs (.ofText kind (text ++ String.ofList cs)) := by
  rcases List.eq_nil_or_concat cs with rfl | ⟨init, last, rfl⟩
  · obtain rfl := congrArg Prod.fst hall
    have hspans := LeafReader.Spans.going (.nil (f scan text)) (hwhole scan text hterminated)
      (htoken scan text hterminated)
    simpa using hspans
  · rw [List.concat_eq_append] at hfeed hall ⊢
    obtain ⟨next, htakes, hlast⟩ := takes_of_feedAll
      (fun c hc => hfeed c (List.mem_append_left _ hc)) hall
    have hfeedLast := hfeed last (by simp) next (String.ofList init)
    rcases hscan : next.feed last with ⟨scan', verdict⟩
    rw [feedAll, hscan] at hlast
    rw [LeafReader.scanString, hscan] at hfeedLast
    cases verdict with
    | stop => cases (Prod.mk.inj hlast).2
    | accept =>
      obtain rfl : scan' = final := congrArg Prod.fst hlast
      rw [← Text.append_ofList_concat] at hfeedLast
      exact .going (htakes.concat hfeedLast) (hwhole _ _ hterminated) (htoken _ _ hterminated)
    | done =>
      obtain rfl : scan' = final := congrArg Prod.fst hlast
      rw [← Text.append_ofList_concat] at hfeedLast
      exact .closed htakes hfeedLast (htoken _ _ hterminated)

end StringScan

namespace StringLiteral

variable {text value : String}

/-- The scanner reads a literal up to its last character. -/
theorem feedAll_of_value (h : StringLiteral.value text = .ok value) :
    ∃ scan, StringScan.start.feedAll text.toList = (scan, []) ∧ scan.isTerminated := by
  rcases hscan : StringScan.start.feedAll text.toList with ⟨scan, rest⟩
  simp only [StringLiteral.value, hscan] at h
  split_ifs at h with hopen hrest
  rw [Bool.not_eq_true, Bool.not_eq_false'] at hopen hrest
  rw [List.isEmpty_iff] at hrest
  exact ⟨scan, by rw [hrest], hopen⟩

end StringLiteral

/-- A string is read as itself. -/
theorem parse_string {config : Config} (hconfig : config.IsUnlimited) {text value : String}
    (h : StringLiteral.value text = .ok value) :
    parse .expression config text = .ok (leafStatement .string text).placed := by
  obtain ⟨scan, hscan, hterminated⟩ := StringLiteral.feedAll_of_value h
  cases htext : text.toList with
  | nil =>
    rw [htext] at hscan
    obtain rfl := congrArg Prod.fst hscan
    cases hterminated
  | cons c cs =>
    have hspans : (LeafReader.string .start "").Spans text.toList
        (.ofText .string ("" ++ String.ofList text.toList)) := by
      refine StringScan.spans_of_feedAll (fun d _ scan more => ?_) (fun scan text hscan => ?_)
        (fun scan text hscan => ?_) hscan hterminated
      · rw [LeafReader.feed_string, Signal.toChar?_ofChar]
      · simp [LeafReader.isCutShort, hscan]
      · simp [LeafReader.token?, hscan]
    rw [String.ofList_toList, String.empty_append, htext] at hspans
    rw [htext] at hscan
    have hfirst := StringScan.first_of_feedAll hscan
    have hbegins : ∀ c ∈ ['&', '^', '"', '\''], c ∈ leafBeginnings ∧
        ExpressionReader.leafBegunBy? .standalone c = some (.string .start "") := by decide
    exact parse_leaf hconfig htext (hbegins c hfirst).1 (hbegins c hfirst).2 (.inr (.inl rfl)) hspans

namespace LeafReader

variable {cs : List Char} {c : Char} {text : String}

/-- What a plain path goes on with. -/
def extendsPath (c : Char) : Bool :=
  isWordContinue c || c == '/' || c == '%'

/-- What a plain path goes on with has no signal of its own. -/
theorem ofChar_of_extendsPath (h : extendsPath c = true) : Signal.ofChar c = .char c := by
  apply Signal.ofChar_eq_char
  refine ⟨?_, ?_, ?_, ?_⟩ <;>
  · rintro rfl
    exact absurd h (by decide)

/-- Behind its mark a plain path takes all that it goes on with. -/
theorem takes_path (hcs : ∀ c ∈ cs, extendsPath c = true) (text : String) (htext : text ≠ "") :
    (LeafReader.nodePath none text).Takes cs (.nodePath none (text ++ String.ofList cs)) := by
  induction cs generalizing text with
  | nil => simpa using LeafReader.Takes.nil (.nodePath none text)
  | cons c cs ih =>
    obtain ⟨hc, hcs⟩ := List.forall_mem_cons.1 hcs
    have hquote : StringScan.isQuote c = false := by
      rw [Bool.eq_false_iff]
      intro hquote
      simp only [StringScan.isQuote, Bool.or_eq_true, beq_iff_eq] at hquote
      rcases hquote with rfl | rfl <;> exact absurd hc (by decide)
    have hfeed : (LeafReader.nodePath none text).feed (.ofChar c) =
        (.nodePath none (text.push c), .accept) := by
      rw [extendsPath, Bool.or_eq_true, Bool.or_eq_true] at hc
      rw [ofChar_of_extendsPath (by simpa [extendsPath] using hc)]
      simp [LeafReader.feed, LeafReader.feedChar, LeafReader.feedPath, hquote, LeafReader.takeIf]
      grind
    rw [Text.append_ofList_cons]
    refine .cons hfeed (ih hcs (text.push c) fun hempty => ?_)
    have hlength := congrArg String.length hempty
    simp at hlength

/-- A plain path ends before a point. -/
theorem feed_point (htext : text ≠ "") :
    (LeafReader.nodePath none text).feed (.ofChar '.') = (.nodePath none text, .stop) := by
  have hpoint : isWordContinue '.' = false := by decide
  change feedPath none text '.' = _
  simp [feedPath, StringScan.isQuote, takeIf, hpoint, htext]

/-- Inside its quotes a path leaves every character to a scanner, unless it breaks the line. -/
theorem feed_quotedPath {scan : StringScan} (htext : text.length ≠ 1)
    (hc : c ≠ '\n' ∧ c ≠ '\r') :
    (LeafReader.nodePath (some scan) text).feed (.ofChar c) =
      scanString scan text c fun scan text => .nodePath (some scan) text := by
  have hpath : feedPath (some scan) text c =
      scanString scan text c fun scan text => .nodePath (some scan) text := by
    simp [feedPath, htext]
  by_cases hcomment : c = '#'
  · subst hcomment
    exact hpath
  by_cases hescape : c = '\\'
  · subst hescape
    exact hpath
  rw [Signal.ofChar_eq_char ⟨hc.1, hc.2, hcomment, hescape⟩]
  exact hpath

/-- The quote behind the mark of a path begins a literal. -/
theorem feed_firstQuote (mark : Char) (hquote : StringScan.isQuote c = true) :
    (LeafReader.nodePath none (String.singleton mark)).feed (.ofChar c) =
      (.nodePath (some ⟨.openedOnce, .none, c, false⟩) ((String.singleton mark).push c),
        .accept) := by
  have hopening : StringScan.start.feed c = (⟨.openedOnce, .none, c, false⟩, .accept) := by
    simp only [StringScan.isQuote, Bool.or_eq_true, beq_iff_eq] at hquote
    rcases hquote with rfl | rfl <;> rfl
  have hchar : Signal.ofChar c = .char c := by
    simp only [StringScan.isQuote, Bool.or_eq_true, beq_iff_eq] at hquote
    rcases hquote with rfl | rfl <;> rfl
  rw [hchar]
  simp [feed, feedChar, feedPath, hquote, scanString, hopening]

/-- Behind the first quote a literal goes on. -/
theorem feedAll_firstQuote {final : StringScan} {rest : List Char}
    (hquote : StringScan.isQuote c = true)
    (h : StringScan.start.feedAll (c :: cs) = (final, rest)) :
    StringScan.feedAll ⟨.openedOnce, .none, c, false⟩ cs = (final, rest) := by
  simp only [StringScan.isQuote, Bool.or_eq_true, beq_iff_eq] at hquote
  rcases hquote with rfl | rfl <;> exact h

/-- Behind its mark a quoted path is spanned by its reader, if it does not break the line. -/
theorem spans_quotedPath (mark : Char) {final : StringScan} (hquote : StringScan.isQuote c = true)
    (hlines : ∀ d ∈ cs, d ≠ '\n' ∧ d ≠ '\r')
    (hliteral : StringScan.start.feedAll (c :: cs) = (final, [])) (hterminated : final.isTerminated) :
    (LeafReader.nodePath none (String.singleton mark)).Spans (c :: cs)
      (.ofText .nodePath (String.ofList (mark :: c :: cs))) := by
  have hrest : (LeafReader.nodePath (some ⟨.openedOnce, .none, c, false⟩)
      ((String.singleton mark).push c)).Spans cs
      (.ofText .nodePath ((String.singleton mark).push c ++ String.ofList cs)) := by
    refine StringScan.spans_of_feedAll (f := fun scan text => .nodePath (some scan) text)
      (fun d hd scan more => feed_quotedPath ?_ (hlines d hd)) (fun _ _ _ => rfl)
      (fun scan text hscan => by simp [token?, hscan]) (feedAll_firstQuote hquote hliteral)
      hterminated
    simp
    omega
  rw [← Text.append_ofList_cons, Text.singleton_append_ofList] at hrest
  exact .cons (feed_firstQuote mark hquote) hrest

/-- Behind its mark a quoted path is read up to its first line break. -/
theorem takes_quotedPath (mark : Char) {final : StringScan} {d : Char} {rest : List Char}
    (hquote : StringScan.isQuote c = true) (hlines : ∀ d ∈ cs, d ≠ '\n' ∧ d ≠ '\r')
    (hliteral : StringScan.start.feedAll (c :: (cs ++ d :: rest)) = (final, [])) :
    ∃ scan, (LeafReader.nodePath none (String.singleton mark)).Takes (c :: cs)
      (.nodePath (some scan) (String.ofList (mark :: c :: cs))) := by
  have hlength (more : String) : ((String.singleton mark).push c ++ more).length ≠ 1 := by
    simp
    omega
  obtain ⟨scan, htakes, -⟩ := StringScan.takes_of_feedAll
    (f := fun scan text => .nodePath (some scan) text)
    (fun d hd scan more => feed_quotedPath (hlength more) (hlines d hd))
    (feedAll_firstQuote hquote hliteral)
  rw [← Text.append_ofList_cons, Text.singleton_append_ofList] at htakes
  exact ⟨scan, .cons (feed_firstQuote mark hquote) htakes⟩

end LeafReader

namespace LeafKind

variable {mark c : Char} {cs more : List Char} {text : String}

/-- Whether a scene path is read up to its end. A plain path ends before a point, and a quoted one
before a line break. -/
def isReadPath : List Char → Bool
  | _ :: c :: more =>
    if StringScan.isQuote c then !more.contains '\n' && !more.contains '\r'
    else !(c :: more).contains '.'
  | _ => false

/-- A scene path begins with a mark that is read as such. -/
theorem mark_of_isPathText (hpath : isPathText (mark :: cs) = true) : mark ∈ leafBeginnings ∧
    ExpressionReader.leafBegunBy? .standalone mark = some (.nodePath none "") ∧
    (LeafReader.nodePath none "").feed (.ofChar mark) =
      (.nodePath none (String.singleton mark), .accept) := by
  simp only [isPathText, Bool.and_eq_true, Bool.or_eq_true, beq_iff_eq] at hpath
  rcases hpath.1 with rfl | rfl
  · exact ⟨by decide, rfl, rfl⟩
  · exact ⟨by decide, rfl, rfl⟩

/-- Behind its mark a scene path is a literal, or it is plain. -/
theorem isPathText_cons (hpath : isPathText (mark :: c :: more) = true) :
    (StringScan.isQuote c = true ∧ ∃ scan, StringScan.start.feedAll (c :: more) = (scan, []) ∧
      scan.isTerminated) ∨
    StringScan.isQuote c = false ∧ ∀ d ∈ c :: more, isPathChar d = true := by
  simp only [isPathText, Bool.and_eq_true] at hpath
  have hrest := hpath.2
  split_ifs at hrest with hquote
  · refine .inl ⟨hquote, ?_⟩
    cases hvalue : StringLiteral.value (String.ofList (c :: more)) with
    | ok value => simpa using StringLiteral.feedAll_of_value hvalue
    | error e =>
      rw [hvalue] at hrest
      cases hrest
  · exact .inr ⟨Bool.eq_false_iff.2 hquote, List.all_eq_true.1 hrest⟩

/-- A character of a plain path belongs to what is read of it, unless it is a point. -/
theorem extendsPath_of_isPathChar (h : isPathChar c = true) (hpoint : c ≠ '.') :
    LeafReader.extendsPath c = true := by
  simpa [isPathChar, LeafReader.extendsPath, hpoint] using h

/-- A scene path is spanned by its reader, unless it is not read up to its end. -/
theorem spans_path (hpath : isPathText (mark :: cs) = true)
    (hread : isReadPath (mark :: cs) = true) :
    (LeafReader.nodePath none "").Spans (mark :: cs)
      (.ofText .nodePath (String.ofList (mark :: cs))) := by
  refine .cons (mark_of_isPathText hpath).2.2 ?_
  cases cs with
  | nil => cases hread
  | cons c more =>
    rw [isReadPath] at hread
    rcases isPathText_cons hpath with ⟨hquote, scan, hscan, hterminated⟩ | ⟨hquote, hplain⟩
    · rw [if_pos hquote, Bool.and_eq_true, Bool.not_eq_true', Bool.not_eq_true',
        List.contains_eq_mem, List.contains_eq_mem, decide_eq_false_iff_not,
        decide_eq_false_iff_not] at hread
      refine LeafReader.spans_quotedPath mark hquote (fun d hd => ?_) hscan hterminated
      exact ⟨fun hbreak => hread.1 (hbreak ▸ hd), fun hbreak => hread.2 (hbreak ▸ hd)⟩
    · rw [if_neg (by simp [hquote]), Bool.not_eq_true', List.contains_eq_mem,
        decide_eq_false_iff_not] at hread
      have hextends : ∀ d ∈ c :: more, LeafReader.extendsPath d = true := fun d hd =>
        extendsPath_of_isPathChar (hplain d hd) fun hpoint => hread (hpoint ▸ hd)
      have htakes := LeafReader.takes_path hextends (String.singleton mark)
        (Text.singleton_ne_empty mark)
      rw [Text.singleton_append_ofList] at htakes
      refine .going htakes rfl ?_
      simp [LeafReader.token?]

/-- A scene path that is not read up to its end is not read back. -/
theorem not_readsBack_path {config : Config} (hconfig : config.IsUnlimited)
    (htext : text.toList = mark :: cs) (hpath : isPathText (mark :: cs) = true)
    (hread : isReadPath (mark :: cs) = false) : ¬ ReadsBack config .nodePath text := by
  obtain ⟨hbeginning, hbegins, hmark⟩ := mark_of_isPathText hpath
  cases cs with
  | nil => simp [isPathText] at hpath
  | cons c more =>
    rw [isReadPath] at hread
    rcases isPathText_cons hpath with ⟨hquote, scan, hscan, -⟩ | ⟨hquote, hplain⟩
    · obtain ⟨d, hfind⟩ : ∃ d, more.find? (fun d => d == '\n' || d == '\r') = some d := by
        rw [← Option.isSome_iff_exists, List.find?_isSome]
        rw [if_pos hquote, ← Bool.not_or, Bool.not_eq_false', Bool.or_eq_true] at hread
        rcases hread with hread | hread
        · exact ⟨'\n', by simpa using hread, rfl⟩
        · exact ⟨'\r', by simpa using hread, rfl⟩
      obtain ⟨hd, before, rest, rfl, hbefore⟩ := List.find?_eq_some_iff_append.1 hfind
      have hlines : ∀ d ∈ before, d ≠ '\n' ∧ d ≠ '\r' := by simpa using hbefore
      obtain ⟨scan', htakes⟩ := LeafReader.takes_quotedPath mark hquote hlines hscan
      refine not_readsBack_of_stop hconfig (c := mark) (d := d) (by simpa using htext) hbeginning
        hbegins (.cons hmark htakes) ?_ rfl rfl
      rw [Bool.or_eq_true, beq_iff_eq, beq_iff_eq] at hd
      rcases hd with rfl | rfl <;> rfl
    · rw [if_neg (by simp [hquote]), Bool.not_eq_false', List.contains_eq_mem,
        decide_eq_true_eq] at hread
      obtain ⟨before, rest, happend, hbefore⟩ := List.eq_append_cons_of_mem hread
      rw [happend] at htext hplain
      have hextends : ∀ d ∈ before, LeafReader.extendsPath d = true := fun d hd =>
        extendsPath_of_isPathChar (hplain d (List.mem_append_left _ hd))
          fun hpoint => hbefore (hpoint ▸ hd)
      have htakes := LeafReader.takes_path hextends (String.singleton mark)
        (Text.singleton_ne_empty mark)
      rw [Text.singleton_append_ofList] at htakes
      refine not_readsBack_of_stop hconfig (c := mark) (d := '.') htext hbeginning hbegins
        (.cons hmark htakes) (LeafReader.feed_point fun hempty => ?_) rfl rfl
      have hlength := congrArg String.length hempty
      simp at hlength

end LeafKind

/-- An identifier is read as itself. -/
theorem readsBack_identifier {config : Config} (hconfig : config.IsUnlimited) {text : String}
    (hword : Text.isWord text.toList = true) (hfree : Keyword.ofSpelling? text = none) :
    ReadsBack config .identifier text := by
  let e : Expr := .primary (.name ⟨text, hword, hfree⟩)
  have hprint : e.print = text := by
    simp [e, Expr.print, Expr.chars, Primary.chars]
  obtain ⟨hparse, -⟩ := parse_print hconfig e rfl
  rw [hprint] at hparse
  exact readsBack_of_parse (by decide) hparse

/-- A leaf whose text was checked is read as itself: every identifier, number and string, and every
scene path that is read up to its end. A plain path with a point in it and a quoted one with a line
break in it are accepted all the same, and are not. -/
theorem Arena.leaf_readsBack_iff {config : Config} (hconfig : config.IsUnlimited) {kind : LeafKind}
    (hkind : kind ∈ [.identifier, .number, .string, .nodePath]) {a a' : Arena} {text : String}
    {id : Nat} (h : a.leaf kind text = .ok (a', id)) :
    ReadsBack config kind text ↔
      (kind = .nodePath → LeafKind.isReadPath text.toList = true) := by
  have haccepts : kind.accepts text = .ok () := by
    rw [Arena.leaf] at h
    split at h
    · assumption
    · cases h
  simp only [List.mem_cons, List.not_mem_nil, or_false] at hkind
  rcases hkind with rfl | rfl | rfl | rfl
  · refine iff_of_true ?_ (fun hpath => by cases hpath)
    simp only [LeafKind.accepts] at haccepts
    split_ifs at haccepts with hword
    rw [Bool.and_eq_true, Option.isNone_iff_eq_none] at hword
    exact readsBack_identifier hconfig hword.1 hword.2
  · refine iff_of_true ?_ (fun hpath => by cases hpath)
    simp only [LeafKind.accepts] at haccepts
    cases hvalue : NumberValue.ofText text with
    | error e =>
      rw [hvalue] at haccepts
      cases haccepts
    | ok value => exact readsBack_of_parse (by decide) (parse_number hconfig hvalue)
  · refine iff_of_true ?_ (fun hpath => by cases hpath)
    simp only [LeafKind.accepts] at haccepts
    cases hvalue : StringLiteral.value text with
    | error e =>
      rw [hvalue] at haccepts
      cases haccepts
    | ok value => exact readsBack_of_parse (by decide) (parse_string hconfig hvalue)
  · simp only [LeafKind.accepts] at haccepts
    split_ifs at haccepts with hpath
    cases htext : text.toList with
    | nil =>
      rw [htext] at hpath
      cases hpath
    | cons mark cs =>
      rw [htext] at hpath
      constructor
      · intro hreads _
        by_contra hread
        exact LeafKind.not_readsBack_path hconfig htext hpath (Bool.not_eq_true _ ▸ hread) hreads
      · intro hread
        obtain ⟨hbeginning, hbegins, -⟩ := LeafKind.mark_of_isPathText hpath
        have hspans := LeafKind.spans_path hpath (hread rfl)
        rw [← htext, String.ofList_toList, htext] at hspans
        exact readsBack_of_parse (by decide)
          (parse_leaf hconfig htext hbeginning hbegins (.inr (.inr rfl)) hspans)

/-- A quoted path with a point, a `#` and an escape in it is read as itself. -/
theorem Arena.leaf_readsBack_quoted_path :
    Arena.leaf {} .nodePath "$\"a.#\\t\"" = .ok (Arena.allocLeaf {} .nodePath "$\"a.#\\t\"") ∧
      ReadsBack .unlimited .nodePath "$\"a.#\\t\"" := by
  have haccepts : Arena.leaf {} .nodePath "$\"a.#\\t\"" =
      .ok (Arena.allocLeaf {} .nodePath "$\"a.#\\t\"") := by cbv
  refine ⟨haccepts, ?_⟩
  exact (Arena.leaf_readsBack_iff ⟨rfl, rfl⟩ (by decide) haccepts).2 fun _ => by decide

/-- A path between three quotes may have a line break in it, as a string may, but it is not read as
itself then. -/
theorem Arena.leaf_not_readsBack_of_line_break :
    Arena.leaf {} .nodePath "$\"\"\"a\nb\"\"\"" =
        .ok (Arena.allocLeaf {} .nodePath "$\"\"\"a\nb\"\"\"") ∧
      ¬ ReadsBack .unlimited .nodePath "$\"\"\"a\nb\"\"\"" := by
  have hpath : LeafKind.isPathText ('$' :: "\"\"\"a\nb\"\"\"".toList) = true := by cbv
  constructor
  · cbv
  · exact LeafKind.not_readsBack_path ⟨rfl, rfl⟩ rfl hpath (by decide)

end ScriptTree
