import ScriptTree.Grammar.LeafReader
import ScriptTree.Proofs.Forms

/-!
# Leaves take what they spell

A leaf reader adds every character that it takes to its text, and the leaf that it becomes spells
that text.
-/

namespace ScriptTree

/-- The text that a signal stands for. -/
def Signal.text (signal : Signal) : String :=
  String.ofList signal.toChar?.toList

/-- A signal with a character adds that character. -/
theorem Signal.append_text (signal : Signal) {c : Char} (h : signal.toChar? = some c)
    (s : String) : s ++ signal.text = s.push c := by
  rw [text, h, String.push_eq_append]
  rfl

/-- The quote of a string stays a quote. -/
theorem StringScan.isQuote_feed {scan : StringScan} (h : isQuote scan.quote) (c : Char) :
    isQuote (scan.feed c).1.quote := by
  unfold feed feedOpening feedBody
  repeat' split
  all_goals first | exact h | assumption

namespace LeafReader

/-- The text that was read. -/
def text : LeafReader → String
  | .blank _ text | .comment text | .continuation text | .word text | .number _ text
  | .string _ text | .nodePath _ text | .operator text | .invalid text => text
  | .dots count => String.ofList (List.replicate count '.')

/-- A leaf that may have been begun only now. -/
def IsOpen : LeafReader → Prop
  | .dots count => count ≤ 1
  | _ => True

/-- A leaf that may end here and may go on. -/
def IsBegun : LeafReader → Prop
  | .dots count => count = 1
  | _ => True

/-- A leaf that may end here. -/
def IsWhole : LeafReader → Prop
  | .dots count => count = 1 ∨ count = 2
  | _ => True

theorem IsBegun.isOpen {r : LeafReader} (h : r.IsBegun) : r.IsOpen := by
  cases r with
  | dots count => exact Nat.le_of_eq h
  | _ => trivial

theorem IsBegun.isWhole {r : LeafReader} (h : r.IsBegun) : r.IsWhole := by
  cases r with
  | dots count => exact .inl h
  | _ => trivial

/-- What a leaf reader makes of a signal: a verdict that takes the signal adds its text. -/
def Keeps (r : LeafReader) (signal : Signal) (result : LeafReader × Verdict) : Prop :=
  match result.2 with
  | .accept => result.1.IsBegun ∧ result.1.text = r.text ++ signal.text
  | .done => result.1.IsWhole ∧ result.1.text = r.text ++ signal.text
  | .stop => (r.IsBegun → result.1.IsBegun) ∧ result.1.text = r.text

/-- Leaving the signal to others changes nothing. -/
theorem keeps_stop (r : LeafReader) (signal : Signal) : r.Keeps signal (r, .stop) :=
  ⟨id, rfl⟩

/-- A character that is taken on a condition is added to the text. -/
theorem keeps_takeIf {r taken : LeafReader} {signal : Signal} {c : Char} (fits : Bool)
    (hsignal : signal.toChar? = some c) (hbegun : taken.IsBegun)
    (htext : taken.text = r.text.push c) : r.Keeps signal (takeIf fits taken r) := by
  cases fits with
  | true => exact ⟨hbegun, htext.trans (Signal.append_text _ hsignal r.text).symm⟩
  | false => exact keeps_stop r signal

/-- Offering a character to the scanner of a string. -/
theorem keeps_scanString {r : LeafReader} {signal : Signal} {c : Char} (scan : StringScan)
    {s : String} {reader : StringScan → String → LeafReader} (hsignal : signal.toChar? = some c)
    (hbegun : ∀ scan s, (reader scan s).IsBegun) (htext : ∀ scan s, (reader scan s).text = s)
    (hr : r.text = s) : r.Keeps signal (scanString scan s c reader) := by
  have hpush : s.push c = r.text ++ signal.text := by
    rw [hr, Signal.append_text _ hsignal]
  unfold scanString
  obtain ⟨scan, verdict⟩ := scan.feed c
  cases verdict with
  | accept => exact ⟨hbegun _ _, (htext _ _).trans hpush⟩
  | done =>
    refine ⟨?_, (htext _ _).trans hpush⟩
    exact (hbegun scan (s.push c)).isWhole
  | stop => exact ⟨fun _ => hbegun _ _, (htext _ _).trans hr.symm⟩

/-- Offering a character to a scene path. -/
theorem keeps_feedPath {signal : Signal} {c : Char} (quoted : Option StringScan) (s : String)
    (hsignal : signal.toChar? = some c) :
    (LeafReader.nodePath quoted s).Keeps signal (feedPath quoted s c) := by
  have hstring (scan : StringScan) : (LeafReader.nodePath quoted s).Keeps signal
      (scanString scan s c fun scan s => .nodePath (some scan) s) :=
    keeps_scanString scan hsignal (fun _ _ => trivial) (fun _ _ => rfl) rfl
  rw [feedPath]
  split
  · exact hstring _
  · rename_i hquoted
    have hnone : quoted = none := by
      split at hquoted
      · cases hquoted
      · exact hquoted
    subst hnone
    exact keeps_takeIf _ hsignal trivial rfl

/-- Offering a character to any leaf. -/
theorem keeps_feedChar {r : LeafReader} {c : Char} (h : r.IsOpen) (signal : Signal)
    (hsignal : signal.toChar? = some c) : r.Keeps signal (r.feedChar c) := by
  cases r with
  | blank kind s => exact keeps_takeIf _ hsignal trivial rfl
  | comment s => exact ⟨trivial, (Signal.append_text _ hsignal s).symm⟩
  | continuation s => exact keeps_stop _ signal
  | word s => exact keeps_takeIf _ hsignal trivial rfl
  | number scan s =>
    rw [feedChar]
    split
    · exact ⟨trivial, (Signal.append_text _ hsignal s).symm⟩
    · exact keeps_stop _ signal
  | string scan s =>
    exact keeps_scanString scan hsignal (fun _ _ => trivial) (fun _ _ => rfl) rfl
  | nodePath quoted s => exact keeps_feedPath quoted s hsignal
  | operator s => exact keeps_takeIf _ hsignal trivial rfl
  | dots count =>
    rw [feedChar]
    split
    · rename_i hpoint
      subst hpoint
      have htext : (LeafReader.dots (count + 1)).text
          = (LeafReader.dots count).text ++ signal.text := by
        rw [Signal.append_text _ hsignal]
        simp [text, List.replicate_succ', String.push_eq_append]
      have hcount : count ≤ 1 := h
      by_cases htwo : count + 1 = 2
      · simp only [htwo, if_true]
        exact ⟨.inr rfl, htwo ▸ htext⟩
      · simp only [htwo, if_false]
        exact ⟨show count + 1 = 1 by omega, htext⟩
    · exact keeps_stop _ signal
  | invalid s => exact keeps_takeIf _ hsignal trivial rfl

/-- Whatever signal a leaf is offered, it adds what it takes to its text. -/
theorem keeps_feed {r : LeafReader} (h : r.IsOpen) (signal : Signal) :
    r.Keeps signal (r.feed signal) := by
  cases signal with
  | endOfText => cases r <;> exact keeps_stop _ _
  | char c =>
    have heq : r.feed (.char c) = r.feedChar c := by cases r <;> rfl
    rw [heq]
    exact keeps_feedChar h _ rfl
  | newLine =>
    cases r with
    | string scan s =>
      exact keeps_scanString scan rfl (fun _ _ => trivial) (fun _ _ => rfl) rfl
    | invalid s => exact keeps_feedChar (r := .invalid s) trivial _ rfl
    | continuation s =>
      simp only [feed]
      split
      · exact keeps_stop _ _
      · exact ⟨trivial, (Signal.append_text .newLine rfl s).symm⟩
    | _ => exact keeps_stop _ _
  | carriageReturn =>
    cases r with
    | string scan s =>
      exact keeps_scanString scan rfl (fun _ _ => trivial) (fun _ _ => rfl) rfl
    | invalid s => exact keeps_feedChar (r := .invalid s) trivial _ rfl
    | continuation s => exact keeps_takeIf _ (c := '\r') rfl trivial rfl
    | _ => exact keeps_stop _ _
  | commentStart =>
    cases r with
    | string scan s =>
      exact keeps_scanString scan rfl (fun _ _ => trivial) (fun _ _ => rfl) rfl
    | invalid s => exact keeps_feedChar (r := .invalid s) trivial _ rfl
    | comment s => exact ⟨trivial, (Signal.append_text .commentStart rfl s).symm⟩
    | nodePath quoted s =>
      cases quoted with
      | none => exact keeps_stop _ _
      | some scan => exact keeps_feedPath (some scan) s rfl
    | _ => exact keeps_stop _ _
  | escape =>
    cases r with
    | string scan s =>
      exact keeps_scanString scan rfl (fun _ _ => trivial) (fun _ _ => rfl) rfl
    | comment s => exact ⟨trivial, (Signal.append_text .escape rfl s).symm⟩
    | continuation s => exact keeps_takeIf _ (c := '\\') rfl trivial rfl
    | nodePath quoted s =>
      cases quoted with
      | none => exact keeps_stop _ _
      | some scan => exact keeps_feedPath (some scan) s rfl
    | _ => exact keeps_feedChar (c := '\\') h .escape rfl

/-- A leaf spells what its reader took. -/
theorem text_token? {r : LeafReader} (h : r.IsWhole) :
    Tree.textOfTokens r.token?.toList = r.text := by
  cases r with
  | word s =>
    rw [token?]
    split
    · rename_i reserved hreserved
      have hspelling := List.find?_some hreserved
      simpa [text] using hspelling
    · simp [text]
  | nodePath quoted s => cases quoted <;> simp [token?, text]
  | dots count => obtain rfl | rfl := h <;> simp [token?, text, Punct.spelling]
  | invalid s =>
    rw [token?]
    split
    · rename_i hempty
      simp [text, String.isEmpty_iff.1 hempty]
    · simp [text]
  | _ => simp [token?, text]

/-- A string takes or leaves any signal but the end of the text as a character. -/
theorem feed_string (scan : StringScan) (text : String) (signal : Signal) :
    (string scan text).feed signal =
      match signal.toChar? with
      | some c => scanString scan text c .string
      | none => (string scan text, .stop) := by
  cases signal <;> rfl

end LeafReader

end ScriptTree
