import ScriptTree.Proofs.Spellings.Reactions
import ScriptTree.Proofs.Tabs.Spelling

/-!
# Leaves with tabs

White space, comments, strings and quoted paths take tabs and blanks alike. A leaf that takes a
tab takes a whole group of blanks, and a leaf that ends at a tab ends at a blank.
-/

namespace ScriptTree

open Text (Retabbed)

namespace StringScan

/-- How a string goes on after white space in it. -/
inductive TakesBlank (scan : StringScan) : Prop where
  /-- White space ends what was an empty string, or no string at all. -/
  | left (next : StringScan) (hquote : isQuote next.quote) (htab : scan.feed '\t' = (next, .stop))
      (hblank : scan.feed ' ' = (next, .stop))
  /-- White space is taken, and so is more of it. -/
  | taken (next : StringScan) (hquote : isQuote next.quote)
      (htab : scan.feed '\t' = (next, .accept)) (hblank : scan.feed ' ' = (next, .accept))
      (hnext : next.feed ' ' = (next, .accept))

/-- White space is no quote. -/
theorem ne_quote_of_blank {scan : StringScan} (hquote : isQuote scan.quote) :
    '\t' ≠ scan.quote ∧ ' ' ≠ scan.quote := by
  constructor <;> intro heq <;> rw [← heq] at hquote <;> exact absurd hquote (by decide)

/-- White space in the body of a string is taken. -/
theorem takesBlank_body {scan : StringScan} (hquote : isQuote scan.quote)
    (htab : scan.feed '\t' = scan.feedBody '\t') (hblank : scan.feed ' ' = scan.feedBody ' ') :
    scan.TakesBlank := by
  obtain ⟨htab', hblank'⟩ := ne_quote_of_blank hquote
  have hbody (s : StringScan) (hs : s.quote = scan.quote) :
      s.feedBody '\t' = ({ s with phase := .body }, .accept) ∧
        s.feedBody ' ' = ({ s with phase := .body }, .accept) := by
    simp [feedBody, hs, htab', hblank']
  refine .taken { scan with phase := .body } hquote ?_ ?_ ?_
  · rw [htab, (hbody scan rfl).1]
  · rw [hblank, (hbody scan rfl).2]
  · rw [feed]
    exact (hbody { scan with phase := .body } rfl).2

/-- A string makes the same of a tab and of a blank. -/
theorem takesBlank {scan : StringScan} (hquote : isQuote scan.quote) : scan.TakesBlank := by
  obtain ⟨htab, hblank⟩ := ne_quote_of_blank hquote
  obtain ⟨phase, mark, quote, triple⟩ := scan
  cases phase with
  | start => exact .left _ hquote rfl rfl
  | afterMark => exact .left _ hquote rfl rfl
  | openedOnce => exact takesBlank_body hquote (by simp [feed, htab]) (by simp [feed, hblank])
  | openedTwice =>
    refine .left ⟨.done, mark, quote, triple⟩ hquote ?_ ?_ <;> simp [feed, htab, hblank]
  | body => exact takesBlank_body hquote rfl rfl
  | escape =>
    refine .taken ⟨.body, mark, quote, triple⟩ hquote rfl rfl ?_
    simp [feed, feedBody, hblank]
  | closedOnce => exact takesBlank_body hquote (by simp [feed, htab]) (by simp [feed, hblank])
  | closedTwice => exact takesBlank_body hquote (by simp [feed, htab]) (by simp [feed, hblank])
  | done => exact .left _ hquote rfl rfl

end StringScan

namespace LeafReader

/-- A leaf in which no tab stands. -/
def IsTabless : LeafReader → Prop
  | .blank _ _ | .comment _ | .string _ _ | .nodePath (some _) _ => False
  | _ => True

/-- The same leaf, with some of its tabs spelled as groups of `n` blanks. A quoted path holds more
than its mark. -/
inductive Retabbed (n : Nat) : LeafReader → LeafReader → Prop where
  | tabless {r : LeafReader} (h : r.IsTabless) : Retabbed n r r
  | blank (kind : LeafKind) {s s' : String} (h : Text.Retabbed n s s') :
      Retabbed n (.blank kind s) (.blank kind s')
  | comment {s s' : String} (h : Text.Retabbed n s s') : Retabbed n (.comment s) (.comment s')
  | string {scan : StringScan} (hquote : StringScan.isQuote scan.quote) {s s' : String}
      (h : Text.Retabbed n s s') : Retabbed n (.string scan s) (.string scan s')
  | nodePath {scan : StringScan} (hquote : StringScan.isQuote scan.quote) {s s' : String}
      (hlength : 2 ≤ s.length) (h : Text.Retabbed n s s') :
      Retabbed n (.nodePath (some scan) s) (.nodePath (some scan) s')

variable {n : Nat} {r r' : LeafReader} {signal : Signal}

/-- A leaf of which nothing was read. -/
theorem retabbed_of_isFresh (h : r.IsFresh) : Retabbed n r r := by
  cases r with
  | blank kind text => exact .blank kind (.refl text)
  | comment text => exact .comment (.refl text)
  | string scan text =>
    obtain ⟨rfl, rfl⟩ := h
    exact .string rfl (.refl "")
  | nodePath quoted text =>
    obtain ⟨rfl, rfl⟩ := h
    exact .tabless trivial
  | _ => exact .tabless trivial

/-- The same leaf takes or leaves the same signal. -/
abbrev FeedsAlike (n : Nat) (x y : LeafReader × Verdict) : Prop :=
  Retabbed n x.1 y.1 ∧ y.2 = x.2

theorem feedsAlike_takeIf (fits : Bool) {taken taken' : LeafReader} (htaken : Retabbed n taken taken')
    (hkept : Retabbed n r r') : FeedsAlike n (takeIf fits taken r) (takeIf fits taken' r') := by
  cases fits with
  | true => exact ⟨htaken, rfl⟩
  | false => exact ⟨hkept, rfl⟩

/-- A leaf without tabs in it that takes a character on a condition. -/
theorem retabbed_takeIf {taken : LeafReader} (fits : Bool) (htaken : taken.IsTabless)
    (hkept : r.IsTabless) : Retabbed n (takeIf fits taken r).1 (takeIf fits taken r).1 :=
  (feedsAlike_takeIf fits (.tabless htaken) (.tabless hkept)).1

/-- A string or a quoted path takes or leaves a character, whatever it holds. -/
theorem feedsAlike_scanString {scan : StringScan} (hquote : StringScan.isQuote scan.quote)
    {s s' : String} (c : Char) {reader : StringScan → String → LeafReader}
    (hreader : ∀ next : StringScan, StringScan.isQuote next.quote →
      Retabbed n (reader next s) (reader next s') ∧
        Retabbed n (reader next (s.push c)) (reader next (s'.push c))) :
    FeedsAlike n (scanString scan s c reader) (scanString scan s' c reader) := by
  have hnext := hreader _ (StringScan.isQuote_feed hquote c)
  unfold scanString
  split
  · rename_i heq
    rw [heq] at hnext
    exact ⟨hnext.1, rfl⟩
  · rename_i heq
    rw [heq] at hnext
    exact ⟨hnext.2, rfl⟩

/-- A quoted path reads a string after its mark. -/
theorem feedPath_some (scan : StringScan) {s : String} (h : 2 ≤ s.length) (c : Char) :
    feedPath (some scan) s c = scanString scan s c fun scan s => .nodePath (some scan) s := by
  have hne : ¬(s.length = 1 ∧ StringScan.isQuote c) := fun h => by omega
  simp only [feedPath, if_neg hne]

/-- A quoted path goes on whatever it holds. -/
theorem feedsAlike_feedPath {scan : StringScan} (hquote : StringScan.isQuote scan.quote)
    {s s' : String} (hlength : 2 ≤ s.length) (h : Text.Retabbed n s s') (hn : 0 < n) (c : Char) :
    FeedsAlike n (feedPath (some scan) s c) (feedPath (some scan) s' c) := by
  have hlength' := h.length_le hn
  rw [feedPath_some scan hlength, feedPath_some scan (by omega)]
  refine feedsAlike_scanString hquote c fun next hnext => ⟨.nodePath hnext hlength h, ?_⟩
  exact .nodePath hnext (by rw [String.length_push]; omega) (h.push c)

/-- A path that holds no tab goes on as one, or as a quoted path. -/
theorem retabbed_feedPath_none (s : String) (c : Char) :
    Retabbed n (feedPath none s c).1 (feedPath none s c).1 := by
  unfold feedPath
  by_cases h : s.length = 1 ∧ StringScan.isQuote c
  · have hfeed : StringScan.start.feed c = (⟨.openedOnce, .none, c, false⟩, .accept) := by
      have hquote := h.2
      have hamp : c ≠ '&' := by rintro rfl; exact absurd hquote (by decide)
      have hcaret : c ≠ '^' := by rintro rfl; exact absurd hquote (by decide)
      simp [StringScan.feed, StringScan.start, StringScan.feedOpening, hamp, hcaret, hquote]
    simp only [if_pos h, scanString, hfeed]
    exact .nodePath h.2 (by simp [h.1]) (.refl _)
  · simp only [if_neg h]
    exact retabbed_takeIf _ trivial trivial

/-- A leaf that holds no tab goes on as one, or as a quoted path. -/
theorem retabbed_feed_of_isTabless (h : r.IsTabless) (signal : Signal) :
    Retabbed n (r.feed signal).1 (r.feed signal).1 := by
  have hchar (c : Char) : Retabbed n (r.feedChar c).1 (r.feedChar c).1 := by
    cases r with
    | blank kind s | comment s | string scan s => exact False.elim h
    | continuation s => exact .tabless trivial
    | word s => exact retabbed_takeIf _ trivial trivial
    | number scan s =>
      rw [feedChar]
      split <;> exact .tabless trivial
    | nodePath quoted s =>
      cases quoted with
      | none => exact retabbed_feedPath_none s c
      | some scan => exact False.elim h
    | operator s => exact retabbed_takeIf _ trivial trivial
    | dots count =>
      rw [feedChar]
      split <;> exact .tabless trivial
    | invalid s => exact retabbed_takeIf _ trivial trivial
  have hkept : Retabbed n r r := .tabless h
  cases r with
  | blank kind s | comment s | string scan s => exact False.elim h
  | nodePath quoted s =>
    cases quoted with
    | some scan => exact False.elim h
    | none => cases signal <;> first | exact hkept | exact hchar _
  | continuation s =>
    cases signal with
    | escape => exact retabbed_takeIf _ trivial trivial
    | carriageReturn => exact retabbed_takeIf _ trivial trivial
    | newLine =>
      rw [feed]
      split <;> exact .tabless trivial
    | _ => exact hkept
  | _ => cases signal <;> first | exact hkept | exact hchar _

/-- The same leaf takes or leaves the same signal. -/
theorem Retabbed.feed (h : Retabbed n r r') (hn : 0 < n) (signal : Signal) :
    FeedsAlike n (r.feed signal) (r'.feed signal) := by
  cases h with
  | tabless h => exact ⟨retabbed_feed_of_isTabless h signal, rfl⟩
  | blank kind h =>
    cases signal with
    | char c => exact feedsAlike_takeIf _ (.blank kind (h.push c)) (.blank kind h)
    | escape => exact feedsAlike_takeIf _ (.blank kind (h.push '\\')) (.blank kind h)
    | _ => exact ⟨.blank kind h, rfl⟩
  | comment h =>
    cases signal with
    | char c => exact ⟨.comment (h.push c), rfl⟩
    | commentStart => exact ⟨.comment (h.push '#'), rfl⟩
    | escape => exact ⟨.comment (h.push '\\'), rfl⟩
    | _ => exact ⟨.comment h, rfl⟩
  | string hquote h =>
    rw [feed_string, feed_string]
    cases signal.toChar? with
    | none => exact ⟨.string hquote h, rfl⟩
    | some c =>
      exact feedsAlike_scanString hquote c fun next hnext =>
        ⟨.string hnext h, .string hnext (h.push c)⟩
  | nodePath hquote hlength h =>
    have hchar := feedsAlike_feedPath hquote hlength h hn
    cases signal with
    | char c => exact hchar c
    | commentStart => exact hchar '#'
    | escape => exact hchar '\\'
    | _ => exact ⟨.nodePath hquote hlength h, rfl⟩

theorem Retabbed.isCutShort_eq (h : Retabbed n r r') : r'.isCutShort = r.isCutShort := by
  cases h <;> rfl

/-- What takes as many blanks as given, one after another. -/
inductive TakesBlanks : Nat → LeafReader → LeafReader → Prop where
  | zero (r : LeafReader) : TakesBlanks 0 r r
  | succ {k : Nat} {r between r' : LeafReader} (h : r.feed (.char ' ') = (between, .accept))
      (hrest : TakesBlanks k between r') : TakesBlanks (k + 1) r r'

/-- A group of blanks begins with one. -/
theorem push_blanks (s : String) (k : Nat) :
    s.push ' ' ++ String.ofList (List.replicate k ' ') =
      s ++ String.ofList (List.replicate (k + 1) ' ') := by
  apply String.toList_injective
  simp [List.replicate_succ]

/-- A leaf that takes a blank whatever it holds, from some length on, takes any number of them. -/
theorem takesBlanks_of_feed (reader : String → LeafReader) {m : Nat}
    (h : ∀ s, m ≤ s.length → (reader s).feed (.char ' ') = (reader (s.push ' '), .accept)) (k : Nat)
    {s : String} (hm : m ≤ s.length) :
    TakesBlanks k (reader s) (reader (s ++ String.ofList (List.replicate k ' '))) := by
  induction k generalizing s with
  | zero =>
    rw [List.replicate_zero, String.ofList_nil, String.append_empty]
    exact .zero _
  | succ k ih =>
    rw [← push_blanks]
    exact .succ (h s hm) (ih (by rw [String.length_push]; omega))

/-- A tab and a group of blanks lead to the same leaf, which takes both or leaves both. -/
inductive TabTurn (n : Nat) (r r' : LeafReader) : Prop where
  | left (next next' : LeafReader) (h : Retabbed n next next')
      (htab : r.feed (.char '\t') = (next, .stop)) (hblank : r'.feed (.char ' ') = (next', .stop))
  | taken (next next' : LeafReader) (h : Retabbed n next next')
      (htab : r.feed (.char '\t') = (next, .accept)) (hblanks : TakesBlanks n r' next')

/-- A string or a quoted path that takes a blank takes a group of them. -/
theorem tabTurn_scan (reader : StringScan → String → LeafReader) {scan : StringScan}
    (hquote : StringScan.isQuote scan.quote) (hn : 0 < n) {s s' : String} (h : Text.Retabbed n s s')
    (hreader : ∀ (next : StringScan) (t t' : String), StringScan.isQuote next.quote →
      s.length ≤ t.length → Text.Retabbed n t t' → Retabbed n (reader next t) (reader next t'))
    (htab : (reader scan s).feed (.char '\t') = scanString scan s '\t' reader)
    (hblank : ∀ (next : StringScan) (t : String), s'.length ≤ t.length →
      (reader next t).feed (.char ' ') = scanString next t ' ' reader) :
    TabTurn n (reader scan s) (reader scan s') := by
  cases StringScan.takesBlank hquote with
  | left next hnext htab' hblank' =>
    refine .left _ _ (hreader next s s' hnext (Nat.le_refl _) h) ?_ ?_
    · rw [htab, scanString, htab']
    · rw [hblank scan s' (Nat.le_refl _), scanString, hblank']
  | taken next hnext htab' hblank' hagain =>
    obtain ⟨k, rfl⟩ : ∃ k, n = k + 1 := ⟨n - 1, by omega⟩
    refine .taken _ (reader next (s' ++ String.ofList (List.replicate (k + 1) ' ')))
      (hreader next (s.push '\t') _ hnext (by rw [String.length_push]; omega) h.push_tab) ?_ ?_
    · rw [htab, scanString, htab']
    · rw [← push_blanks]
      have hfirst : (reader scan s').feed (.char ' ') = (reader next (s'.push ' '), .accept) := by
        rw [hblank scan s' (Nat.le_refl _), scanString, hblank']
      refine .succ hfirst (takesBlanks_of_feed (reader next) (m := s'.length) (fun t ht => ?_) k ?_)
      · rw [hblank next t ht, scanString, hagain]
      · rw [String.length_push]
        omega

/-- No operator goes on with white space. -/
theorem canExtend_blank (text : List Char) {c : Char} (hc : c = '\t' ∨ c = ' ') :
    OperatorKind.canExtend text c = false := by
  have hsymbols : ∀ symbol ∈ OperatorKind.symbols, Text.IsSolid symbol := by decide
  rw [OperatorKind.canExtend, List.any_eq_false]
  intro symbol hsymbol hprefix
  rw [List.isPrefixOf_iff_prefix] at hprefix
  have hmem : c ∈ symbol.toList := hprefix.subset (by simp)
  obtain ⟨_, htab, hblank⟩ := hsymbols symbol hsymbol c hmem
  exact hc.elim htab hblank

/-- What no tab stands in ends at white space, once it has begun. -/
theorem feed_blank_of_isTabless (h : r.IsTabless) (htext : r.text ≠ "") {c : Char}
    (hc : c = '\t' ∨ c = ' ') : r.feed (.char c) = (r, .stop) := by
  cases r with
  | blank kind s | comment s | string scan s => exact False.elim h
  | continuation s => rfl
  | word s =>
    have hword : Text.isWordContinue c = false := by rcases hc with rfl | rfl <;> decide
    have hs : s ≠ "" := htext
    simp [feed, feedChar, takeIf, hs, hword]
  | number scan s =>
    have hscan : scan.feed c = none := by
      rcases hc with rfl | rfl <;> rcases scan with _ | _ | _ | radix | radix | _ | _ | _ | _ | _
      all_goals first | decide | (cases radix <;> decide)
    simp [feed, feedChar, hscan]
  | nodePath quoted s =>
    cases quoted with
    | some scan => exact False.elim h
    | none =>
      have hquote : StringScan.isQuote c = false := by rcases hc with rfl | rfl <;> decide
      have hpath : Text.isWordContinue c = false ∧ c ≠ '/' ∧ c ≠ '%' := by
        rcases hc with rfl | rfl <;> decide
      have hs : s ≠ "" := htext
      simp [feed, feedChar, feedPath, takeIf, hs, hquote, hpath]
  | operator s =>
    have hs : s ≠ "" := htext
    simp [feed, feedChar, takeIf, hs, canExtend_blank _ hc]
  | dots count =>
    have hdot : c ≠ '.' := by rcases hc with rfl | rfl <;> decide
    simp [feed, feedChar, hdot]
  | invalid s =>
    have hends : endsInvalid c = true := by rcases hc with rfl | rfl <;> decide
    have hs : s ≠ "" := htext
    simp [feed, feedChar, takeIf, hs, hends]

/-- A leaf that took a character already, or white space. -/
def HasBegun : LeafReader → Prop
  | .blank _ _ => True
  | r => r.text ≠ ""

theorem hasBegun_of_text (h : r.text ≠ "") : r.HasBegun := by
  cases r <;> first | exact h | trivial

/-- A leaf that has begun takes a tab or leaves it, and a group of blanks in the same way. -/
theorem Retabbed.tabTurn (h : Retabbed n r r') (hn : 0 < n) (hbegun : r.HasBegun) :
    TabTurn n r r' := by
  cases h with
  | tabless h =>
    have htext : r.text ≠ "" := by
      cases r <;> first | exact False.elim h | exact hbegun
    exact .left r r (.tabless h) (feed_blank_of_isTabless h htext (.inl rfl))
      (feed_blank_of_isTabless h htext (.inr rfl))
  | blank kind h =>
    exact .taken _ _ (.blank kind h.push_tab) rfl
      (takesBlanks_of_feed (.blank kind) (m := 0) (fun _ _ => rfl) n (Nat.zero_le _))
  | comment h =>
    exact .taken _ _ (.comment h.push_tab) rfl
      (takesBlanks_of_feed .comment (m := 0) (fun _ _ => rfl) n (Nat.zero_le _))
  | string hquote h =>
    exact tabTurn_scan .string hquote hn h
      (fun next t t' hnext _ ht => .string hnext ht) rfl fun _ _ _ => rfl
  | @nodePath scan hquote s s' hlength h =>
    have hlength' := h.length_le hn
    refine tabTurn_scan (fun scan s => .nodePath (some scan) s) hquote hn h
      (fun next t t' hnext ht hs => .nodePath hnext (by omega) hs)
      (feedPath_some scan hlength '\t') fun next t ht => feedPath_some next (by omega) ' '

end LeafReader

section

variable [TabWidth]

attribute [local instance] Spelling.tabs

namespace LeafReader

variable {r r' : LeafReader}

/-- The same leaf is delivered. -/
theorem Retabbed.token?_twin (h : Retabbed TabWidth.blanks r r') :
    Option.Rel Tree.Twin r.token? r'.token? := by
  cases h with
  | tabless h =>
    cases r.token? with
    | none => exact .none
    | some t => exact .some (.refl t)
  | blank kind h => exact .some (Tree.twin_ofText kind h)
  | comment h => exact .some (Tree.twin_ofText .comment h)
  | string hquote h => exact .some (Tree.twin_ofText _ h)
  | nodePath hquote hlength h => exact .some (Tree.twin_ofText _ h)

end LeafReader

/-- Reading in the two spellings of tabs. -/
@[reducible]
def ReaderSpelling.tabs : ReaderSpelling where
  toSpelling := Spelling.tabs
  Suits config := config.spacesAsIndentation = true ∧ config.indentationSize = TabWidth.blanks
  IsPlain _ := True
  LeafTwin := LeafReader.Retabbed TabWidth.blanks
  Leftover := Text.Retabbed TabWidth.blanks
  isPlain_endOfText := trivial
  leafTwin_fresh h := LeafReader.retabbed_of_isFresh h
  leafTwin_feed h _ := h.feed TabWidth.pos _
  isCutShort_eq h := h.isCutShort_eq
  token?_twin h := h.token?_twin
  token?_sameLevel := by
    intro kind text r' h
    obtain ⟨text', rfl, htext⟩ : ∃ text', r' = .blank kind text' ∧
        Text.Retabbed TabWidth.blanks text text' := by
      cases h with
      | tabless h => exact False.elim h
      | blank _ h => exact ⟨_, rfl, h⟩
    refine .some ⟨Tree.twin_ofText kind htext, fun hconfig => ?_⟩
    obtain ⟨hspaces, hsize⟩ := hconfig
    rw [BlockReader.measure, BlockReader.measure, hspaces, hsize]
    exact Text.Retabs.ofChars_eq htext TabWidth.pos
  leftover_empty := .refl ""
  leftover_append h _ := h.append (.refl _)
  leftover_respelled := id

end

end ScriptTree
