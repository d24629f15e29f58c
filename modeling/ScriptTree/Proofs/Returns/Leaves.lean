import ScriptTree.Proofs.Returns.Spelling
import ScriptTree.Proofs.Spellings.Reactions

/-!
# Leaves with carriage returns

Only strings go on over the end of a line, so that only their texts are spelled in two ways. Any
character but a line break, and the end of the text, meet with the same reaction in the two
spellings.
-/

namespace ScriptTree

/-- Whether a signal is neither a line feed nor a carriage return. -/
def Signal.IsPlain (signal : Signal) : Prop :=
  ∀ c ∈ signal.toChar?, c ≠ '\n' ∧ c ≠ '\r'

namespace LeafReader

/-- The leaf with carriage returns before the line feeds in it; only a string goes on over the end
of a line. -/
def withReturns : LeafReader → LeafReader
  | .string scan text => .string scan (Text.withReturns text)
  | r => r

/-- A leaf between two characters: no line break was taken yet by what ends at line breaks. -/
def IsSettled : LeafReader → Prop
  | .continuation text => text = "" ∨ text = "\\"
  | .invalid text => text ≠ ""
  | .string scan _ => StringScan.isQuote scan.quote
  | _ => True

variable {r : LeafReader} {signal : Signal}

/-- A reader that has read nothing is the same in the two spellings. -/
theorem settled_of_isFresh (h : r.IsFresh) : r.IsSettled ∧ r = r.withReturns := by
  cases r with
  | continuation text => exact ⟨.inl h, rfl⟩
  | invalid text =>
    obtain ⟨c, rfl⟩ := h
    exact ⟨by simp [IsSettled], rfl⟩
  | string scan text =>
    obtain ⟨rfl, rfl⟩ := h
    exact ⟨rfl, by simp [withReturns]⟩
  | _ => exact ⟨trivial, rfl⟩

/-- A leaf that is spelled in one way only. -/
def IsInline : LeafReader → Prop
  | .string _ _ => False
  | r => r.IsSettled

theorem IsInline.withReturns_eq (h : r.IsInline) : r.withReturns = r := by
  cases r with
  | string scan text => exact False.elim h
  | _ => rfl

theorem IsInline.isSettled (h : r.IsInline) : r.IsSettled := by
  cases r with
  | string scan text => exact False.elim h
  | _ => exact h

/-- Only strings are spelled in two ways. -/
theorem isInline_or (h : r.IsSettled) :
    r.IsInline ∨ ∃ scan text, r = .string scan text ∧ StringScan.isQuote scan.quote := by
  cases r with
  | string scan text => exact .inr ⟨scan, text, rfl, h⟩
  | _ => exact .inl h

theorem isInline_takeIf {taken kept : LeafReader} (fits : Bool) (htaken : taken.IsInline)
    (hkept : kept.IsInline) : (takeIf fits taken kept).1.IsInline := by
  cases fits with
  | true => exact htaken
  | false => exact hkept

theorem isInline_feedPath (quoted : Option StringScan) (text : String) (c : Char) :
    (feedPath quoted text c).1.IsInline := by
  have hstring (scan : StringScan) :
      (scanString scan text c fun scan text => .nodePath (some scan) text).1.IsInline := by
    unfold scanString
    split <;> trivial
  rw [feedPath]
  split
  · exact hstring _
  · exact isInline_takeIf _ trivial trivial

theorem isInline_feedChar (h : r.IsInline) (c : Char) : (r.feedChar c).1.IsInline := by
  cases r with
  | blank kind text => exact isInline_takeIf _ trivial trivial
  | comment text => trivial
  | continuation text => exact h
  | word text => exact isInline_takeIf _ trivial trivial
  | number scan text =>
    rw [feedChar]
    split <;> trivial
  | string scan text => exact False.elim h
  | nodePath quoted text => exact isInline_feedPath quoted text c
  | operator text => exact isInline_takeIf _ trivial trivial
  | dots count =>
    rw [feedChar]
    split <;> trivial
  | invalid text => exact isInline_takeIf _ (by simp [IsInline, IsSettled]) h

/-- Other characters than line breaks leave a leaf spelled in one way. -/
theorem isInline_feed (h : r.IsInline) (hsignal : signal.IsPlain) :
    (r.feed signal).1.IsInline := by
  cases signal with
  | endOfText =>
    have heq : r.feed .endOfText = (r, .stop) := by cases r <;> rfl
    rw [heq]
    exact h
  | char c =>
    have heq : r.feed (.char c) = r.feedChar c := by cases r <;> rfl
    rw [heq]
    exact isInline_feedChar h c
  | newLine => exact absurd rfl (hsignal '\n' rfl).1
  | carriageReturn => exact absurd rfl (hsignal '\r' rfl).2
  | commentStart =>
    cases r with
    | nodePath quoted text =>
      cases quoted with
      | none => trivial
      | some scan => exact isInline_feedPath (some scan) text '#'
    | invalid text => exact isInline_feedChar h '#'
    | string scan text => exact False.elim h
    | _ => exact h
  | escape =>
    cases r with
    | continuation text =>
      simp only [feed]
      cases hempty : text.isEmpty with
      | true => exact .inr (by rw [String.isEmpty_iff.1 hempty]; rfl)
      | false => exact h
    | nodePath quoted text =>
      cases quoted with
      | none => trivial
      | some scan => exact isInline_feedPath (some scan) text '\\'
    | comment text => trivial
    | string scan text => exact False.elim h
    | _ => exact isInline_feedChar h '\\'

/-- A string takes a character in the same way, whatever it holds. -/
theorem scanString_withReturns (scan : StringScan) (text : String) {c : Char} (hc : c ≠ '\n') :
    scanString scan (Text.withReturns text) c .string =
      ((scanString scan text c .string).1.withReturns, (scanString scan text c .string).2) := by
  unfold scanString
  split
  · rfl
  · rw [← Text.withReturns_push hc]
    rfl

theorem isSettled_scanString {scan : StringScan} (h : StringScan.isQuote scan.quote)
    (text : String) (c : Char) : (scanString scan text c .string).1.IsSettled := by
  have hquote := StringScan.isQuote_feed h c
  unfold scanString
  split
  · rename_i heq
    rwa [heq] at hquote
  · rename_i heq
    rwa [heq] at hquote

/-- The same leaf takes or leaves any other character than a line break. -/
theorem feed_withReturns (h : r.IsSettled) (hsignal : signal.IsPlain) :
    r.withReturns.feed signal = ((r.feed signal).1.withReturns, (r.feed signal).2) ∧
      (r.feed signal).1.IsSettled := by
  rcases isInline_or h with hinline | ⟨scan, text, rfl, hquote⟩
  · have hfed := isInline_feed hinline hsignal
    rw [hinline.withReturns_eq, hfed.withReturns_eq]
    exact ⟨rfl, hfed.isSettled⟩
  · rw [withReturns, feed_string, feed_string]
    cases hchar : signal.toChar? with
    | none => exact ⟨rfl, hquote⟩
    | some c => exact ⟨scanString_withReturns scan text (hsignal c hchar).1,
        isSettled_scanString hquote text c⟩

theorem isCutShort_withReturns (r : LeafReader) : r.withReturns.isCutShort = r.isCutShort := by
  cases r <;> rfl

attribute [local instance] Spelling.returns

/-- The same leaf is delivered. -/
theorem token?_twin (r : LeafReader) :
    Option.Rel Tree.Twin r.token? r.withReturns.token? := by
  have hrefl (kind : LeafKind) (s : String) : Option.Rel Tree.Twin (some (.ofText kind s))
      (some (.ofText kind s)) := .some (Tree.twin_ofText_self kind s)
  cases r with
  | string scan text => exact .some (Tree.twin_ofText _ (.inr rfl))
  | continuation text => exact hrefl _ _
  | word text =>
    simp only [withReturns, token?]
    split <;> exact hrefl _ _
  | nodePath quoted text => cases quoted <;> exact hrefl _ _
  | invalid text =>
    simp only [withReturns, token?]
    split
    · exact .none
    · exact hrefl _ _
  | _ => exact hrefl _ _

end LeafReader

attribute [local instance] Spelling.returns

/-- Reading in the two spellings of line breaks. -/
@[reducible]
def ReaderSpelling.returns : ReaderSpelling where
  toSpelling := Spelling.returns
  Suits _ := True
  IsPlain := Signal.IsPlain
  LeafTwin r r' := r.IsSettled ∧ r' = r.withReturns
  Leftover s s' := s' = Text.withReturns s
  isPlain_endOfText := nofun
  leafTwin_fresh h := LeafReader.settled_of_isFresh h
  leafTwin_feed := by
    rintro r _ signal ⟨hsettled, rfl⟩ hsignal
    obtain ⟨hfeed, hfed⟩ := LeafReader.feed_withReturns hsettled hsignal
    rw [hfeed]
    exact ⟨⟨hfed, rfl⟩, rfl⟩
  isCutShort_eq := by
    rintro r _ ⟨_, rfl⟩
    exact r.isCutShort_withReturns
  token?_twin := by
    rintro r _ ⟨_, rfl⟩
    exact r.token?_twin
  token?_sameLevel := by
    rintro kind text _ ⟨_, rfl⟩
    exact .some ⟨Tree.twin_ofText kind (.inl rfl), fun _ => rfl⟩
  leftover_empty := by simp
  leftover_append := by
    rintro s _ signal rfl hsignal
    rw [Text.withReturns_append]
    refine congrArg _ (Text.withReturns_eq_self fun hmem => ?_).symm
    simp only [String.toList_ofList, Option.mem_toList] at hmem
    exact (hsignal '\n' hmem).1 rfl
  leftover_respelled := .inr

end ScriptTree
