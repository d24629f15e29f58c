import ScriptTree.Proofs.RoundTrip.Reaching

/-!
# Words, operators and white space

A leaf takes the characters of its text one after another, and ends at what cannot go on with it.
-/

namespace ScriptTree

open Text (isWordStart isWordContinue isInlineSpace)

/-- A word begins with no white space. -/
theorem Text.isInlineSpace_of_isWordStart {c : Char} (hc : isWordStart c = true) :
    isInlineSpace c = false := by
  cases hspace : isInlineSpace c with
  | false => rfl
  | true =>
    simp only [isInlineSpace, Bool.or_eq_true, beq_iff_eq] at hspace
    rcases hspace with ((rfl | rfl) | rfl) | rfl <;> exact absurd hc (by decide)

/-- A word has a first character. -/
theorem Text.exists_cons_of_isWord {cs : List Char} (hw : Text.isWord cs = true) :
    ∃ c rest, cs = c :: rest ∧ isWordStart c = true := by
  cases cs with
  | nil => cases hw
  | cons c rest =>
    rw [Text.isWord, Bool.and_eq_true] at hw
    exact ⟨c, rest, rfl, hw.1⟩

namespace Signal

/-- Whether a word ends here. -/
def EndsWord : Signal → Prop
  | .char c => isWordContinue c = false
  | _ => True

/-- A character that goes on with no word ends one. -/
theorem endsWord_ofChar {c : Char} (hc : isWordContinue c = false) : (ofChar c).EndsWord := by
  unfold ofChar
  repeat' split
  all_goals trivial

/-- Whether white space ends here. -/
def EndsBlank : Signal → Prop
  | .char c => isInlineSpace c = false
  | _ => True

/-- A character that is a signal of its own kind stands for no more than itself. -/
theorem ofChar_eq_char {c : Char} (hc : c ≠ '\n' ∧ c ≠ '\r' ∧ c ≠ '#' ∧ c ≠ '\\') :
    ofChar c = .char c := by
  simp [ofChar, hc]

theorem ofChar_of_isWordContinue {c : Char} (hc : isWordContinue c = true) :
    ofChar c = .char c := by
  refine ofChar_eq_char ⟨?_, ?_, ?_, ?_⟩ <;> rintro rfl <;> exact absurd hc (by decide)

theorem ofChar_of_isInlineSpace {c : Char} (hc : isInlineSpace c = true) :
    ofChar c = .char c := by
  refine ofChar_eq_char ⟨?_, ?_, ?_, ?_⟩ <;> rintro rfl <;> exact absurd hc (by decide)

/-- An operator of symbols that is spelled with a blank after it ends there. -/
def IsBlank (signal : Signal) : Prop :=
  signal = .char ' '

/-- A blank ends a word. -/
theorem endsWord_of_isBlank (signal : Signal) (h : signal.IsBlank) : signal.EndsWord := by
  have hblank : isWordContinue ' ' = false := by decide
  rw [show signal = .char ' ' from h]
  exact hblank

end Signal

/-- One character more. -/
theorem Text.push_ofList (cs : List Char) (c : Char) :
    (String.ofList cs).push c = String.ofList (cs ++ [c]) := by
  apply String.toList_injective
  simp

/-- The leaf that a word is read as. -/
def wordTree (s : String) : Tree :=
  match Keyword.ofSpelling? s with
  | some reserved => .ofText (.keyword reserved) reserved.spelling
  | none => .ofText .identifier s

/-- A word is delivered as its leaf. -/
theorem LeafReader.token?_word (w : String) : (word w).token? = some (wordTree w) := by
  rw [token?, wordTree]
  cases Keyword.ofSpelling? w <;> rfl

/-- A leaf that is whole is delivered. -/
theorem Reader.finish_leaf_of_token? {r : LeafReader} {t : Tree} (h : r.token? = some t)
    (config : Config) :
    (Reader.leaf r).finish config = .ok { token := some t } := by
  rw [finish, h]

/-- The spelling of a reserved word is a word. -/
theorem Keyword.isWord_spelling (word : Keyword) : Text.isWord word.spelling.toList = true := by
  cases word <;> decide

/-- A reserved word is read as such. -/
theorem wordTree_spelling (word : Keyword) :
    wordTree word.spelling = .ofText (.keyword word) word.spelling := by
  rw [wordTree, Keyword.ofSpelling?_spelling]

/-- A word is no trivia, no text without a place and no punctuation mark. -/
theorem wordTree_leafKind? (w : String) :
    (wordTree w).isTrivia = false ∧ (wordTree w).isInvalid = false ∧
      ((wordTree w).leafKind? == some (.punct .point)) = false := by
  unfold wordTree
  split <;> exact ⟨rfl, rfl, rfl⟩

namespace Automaton

variable {config : Config} {top top' : Reader} {below stack : List Reader}

/-- A leaf takes a character. -/
theorem delivers_leaf {r r' : LeafReader} {c : Char} (hchar : Signal.ofChar c = .char c)
    (h : r.feed (.char c) = (r', .accept)) :
    Delivers config (.ofChar c) (ofStack (.leaf r :: below)) (ofStack (.leaf r' :: below)) := by
  rw [hchar]
  refine delivers_accept ?_
  simp only [Reader.onSignal, h]
  rfl

/-- A state opens a leaf that takes a character. -/
theorem delivers_enterLeaf (hconfig : config.IsUnlimited) {r r' : LeafReader} {c : Char}
    (hchar : Signal.ofChar c = .char c)
    (htop : top.onSignal config (.char c) = .ok ⟨top', .enter (.leaf r), {}⟩)
    (h : r.feed (.char c) = (r', .accept)) :
    Delivers config (.ofChar c) (ofStack (top :: below)) (ofStack (.leaf r' :: top' :: below)) := by
  have hleaf : Delivers config (.ofChar c) (ofStack (.leaf r :: top' :: below))
      (ofStack (.leaf r' :: top' :: below)) := delivers_leaf hchar h
  rw [hchar] at hleaf ⊢
  exact delivers_enter hconfig htop hleaf

/-- A leaf ends at a signal that it does not take. -/
theorem delivers_leaveLeaf (hconfig : config.IsUnlimited) {r : LeafReader} {signal : Signal}
    {around : Reader} {b : Automaton} (h : r.feed signal = (r, .stop))
    (hwhole : r.isCutShort = false) (hhands : (Reader.leaf r).HandsTo config around stack)
    (hrest : Delivers config signal (ofStack (stack ++ below)) b) :
    Delivers config signal (ofStack (.leaf r :: around :: below)) b := by
  refine delivers_complete hconfig ?_ hhands hrest
  simp only [Reader.onSignal, h, hwhole, Bool.and_false]
  rfl

/-- A leaf that takes every character of a text, and ends at what comes next. -/
structure Spells (reader : String → LeafReader) (Ends : Signal → Prop) (s : String) : Prop where
  chars : ∀ c ∈ s.toList, Signal.ofChar c = .char c
  feed : ∀ pre c post, s.toList = pre ++ c :: post →
    (reader (String.ofList pre)).feed (.char c) = (reader (String.ofList (pre ++ [c])), .accept)
  ends : ∀ signal, Ends signal → (reader s).feed signal = (reader s, .stop)
  whole : (reader s).isCutShort = false

/-- A leaf takes the rest of its text one character after another. -/
theorem Spells.feeds {reader : String → LeafReader} {Ends : Signal → Prop} {s : String}
    (h : Spells reader Ends s) (pre post : List Char) (hs : s.toList = pre ++ post) :
    Feeds config (ofStack (.leaf (reader (String.ofList pre)) :: below)) post
      (ofStack (.leaf (reader s) :: below)) := by
  induction post generalizing pre with
  | nil =>
    rw [List.append_nil] at hs
    rw [← hs, String.ofList_toList]
    exact .nil _
  | cons c post ih =>
    have hmem : c ∈ s.toList := by simp [hs]
    refine .cons (delivers_leaf (h.chars c hmem) (h.feed pre c post hs)) (ih (pre ++ [c]) ?_)
    simpa using hs

/-- What a leaf spells is read as that leaf. -/
theorem Spells.reaches (hconfig : config.IsUnlimited) {reader : String → LeafReader}
    {Ends : Signal → Prop} {s : String} (h : Spells reader Ends s) {c : Char} {cs : List Char}
    (hs : s.toList = c :: cs)
    (htop : top.onSignal config (.char c) = .ok ⟨top', .enter (.leaf (reader "")), {}⟩)
    (hhands : (Reader.leaf (reader s)).HandsTo config top' stack) :
    Reaches config Ends (ofStack (top :: below)) s.toList (ofStack (stack ++ below)) := by
  have hmem : c ∈ s.toList := by simp [hs]
  have hfirst : Delivers config (.ofChar c) (ofStack (top :: below))
      (ofStack (.leaf (reader (String.ofList [c])) :: top' :: below)) :=
    delivers_enterLeaf hconfig (h.chars c hmem) htop (h.feed [] c cs hs)
  refine ⟨ofStack (.leaf (reader s) :: top' :: below), ?_, fun signal b hends hb =>
    delivers_leaveLeaf hconfig (h.ends signal hends) h.whole hhands hb⟩
  rw [hs]
  exact .cons hfirst (h.feeds [c] cs hs)

/-- A word is read as one leaf. -/
theorem spells_word {w : String} (hw : Text.isWord w.toList = true) :
    Spells .word Signal.EndsWord w := by
  obtain ⟨c, cs, hlist, hstart⟩ := Text.exists_cons_of_isWord hw
  rw [hlist, Text.isWord, Bool.and_eq_true, List.all_eq_true] at hw
  have hrest := hw.2
  have hcontinue : ∀ c ∈ w.toList, isWordContinue c = true := by
    rw [hlist]
    exact List.forall_mem_cons.2 ⟨Text.isWordContinue_of_isWordStart hstart, hrest⟩
  have hne : w ≠ "" := by
    rintro rfl
    cases hlist
  refine ⟨fun c hc => Signal.ofChar_of_isWordContinue (hcontinue c hc), fun pre c' post hs => ?_,
    fun signal hends => ?_, rfl⟩
  · cases pre with
    | nil =>
      rw [hlist] at hs
      obtain rfl := (List.cons.inj hs).1
      simp [LeafReader.feed, LeafReader.feedChar, LeafReader.takeIf, hstart]
    | cons first pre =>
      have hc : isWordContinue c' = true := hcontinue c' (by simp [hs])
      rw [← Text.push_ofList]
      simp [LeafReader.feed, LeafReader.feedChar, LeafReader.takeIf, hc]
  · cases signal with
    | char c =>
      have hc : isWordContinue c = false := hends
      simp [LeafReader.feed, LeafReader.feedChar, LeafReader.takeIf, hne, hc]
    | escape =>
      have hc : isWordContinue '\\' = false := by decide
      simp [LeafReader.feed, LeafReader.feedChar, LeafReader.takeIf, hne, hc]
    | _ => rfl

/-- A blank ends a word or a symbol before it. -/
theorem begins_blank (cs : List Char) : Begins Signal.IsBlank (' ' :: cs) :=
  begins_cons (Signal.ofChar_of_isInlineSpace (by decide))

/-- A word ends white space before it. -/
theorem begins_word {cs : List Char} (hw : Text.isWord cs = true) : Begins Signal.EndsBlank cs := by
  obtain ⟨c, rest, rfl, hc⟩ := Text.exists_cons_of_isWord hw
  refine begins_cons ?_
  rw [Signal.ofChar_of_isWordContinue (Text.isWordContinue_of_isWordStart hc)]
  exact Text.isInlineSpace_of_isWordStart hc

/-- White space is read as one leaf. -/
theorem spells_blank (kind : LeafKind) {s : String}
    (hblank : ∀ c ∈ s.toList, isInlineSpace c = true) : Spells (.blank kind) Signal.EndsBlank s := by
  refine ⟨fun c hc => Signal.ofChar_of_isInlineSpace (hblank c hc), fun pre c post hs => ?_,
    fun signal hends => ?_, rfl⟩
  · have hc : isInlineSpace c = true := hblank c (by simp [hs])
    rw [← Text.push_ofList]
    simp [LeafReader.feed, LeafReader.feedChar, LeafReader.takeIf, hc]
  · cases signal with
    | char c =>
      have hc : isInlineSpace c = false := hends
      simp [LeafReader.feed, LeafReader.feedChar, LeafReader.takeIf, hc]
    | _ => rfl

/-- A single blank, read where it opens a leaf of its own. -/
theorem reaches_blank (hconfig : config.IsUnlimited) {after : Reader}
    (htop : top.onSignal config (.char ' ') = .ok ⟨top', .enter (.leaf (.blank .space "")), {}⟩)
    (hdelivery : top'.onDelivery { token := some (.ofText .space " ") } = .ok { state := after }) :
    Reaches config Signal.EndsBlank (ofStack (top :: below)) [' '] (ofStack (after :: below)) := by
  have hspells : Spells (.blank .space) Signal.EndsBlank " " := spells_blank .space (by decide)
  have hlist : " ".toList = ' ' :: [] := rfl
  exact hspells.reaches hconfig hlist htop (.of_onDelivery rfl hdelivery)

/-- An operator of symbols is read as one leaf, up to a blank. -/
theorem spells_operator {s : String} (hs : s ∈ OperatorKind.symbols) :
    Spells .operator Signal.IsBlank s := by
  have hchars : ∀ symbol ∈ OperatorKind.symbols, ∀ c ∈ symbol.toList,
      c ≠ '\n' ∧ c ≠ '\r' ∧ c ≠ '#' ∧ c ≠ '\\' := by decide
  have hblank : ∀ symbol ∈ OperatorKind.symbols, symbol ≠ "" ∧
      OperatorKind.canExtend symbol.toList ' ' = false := by decide
  refine ⟨fun c hc => Signal.ofChar_eq_char (hchars s hs c hc), fun pre c post hlist => ?_,
    fun signal hends => ?_, rfl⟩
  · have hextend : OperatorKind.canExtend pre c = true := by
      refine List.any_eq_true.2 ⟨s, hs, ?_⟩
      rw [List.isPrefixOf_iff_prefix, hlist]
      exact ⟨post, by simp⟩
    rw [← Text.push_ofList]
    simp [LeafReader.feed, LeafReader.feedChar, LeafReader.takeIf, hextend]
  · obtain rfl : signal = .char ' ' := hends
    simp [LeafReader.feed, LeafReader.feedChar, LeafReader.takeIf, hblank s hs]

end Automaton

end ScriptTree
