import ScriptTree.Parse.Automaton
import ScriptTree.Proofs.Structure.Blocks

/-!
# Every reading state stays orderly

An orderly state answers every signal in order, a state inside which another one is open takes in
order what that one delivers, and what a state delivers when it ends is what it was opened to read.
Nothing else is needed of the states in what follows.
-/

namespace ScriptTree

namespace RootReader

variable {r : RootReader} {tokens : List Tree} {t : Tree} {o : Origin}

/-- Extras do not matter for whether the expression has begun. -/
theorem Orderly.pushExtras (h : r.Orderly) (htokens : Form.Tidy {} (Form.extras tokens)) :
    (r.pushExtras tokens).Orderly :=
  ⟨h.form.extras htokens, fun hfilled => h.begun (by simpa [RootReader.pushExtras] using hfilled)⟩

/-- The expression has no place before it begins. -/
theorem Orderly.begin (h : r.Orderly) (hbegun : r.begun = false) :
    ({ r with begun := true } : RootReader).Receives .expression := by
  refine ⟨⟨h.form, fun _ => rfl⟩, .inr ⟨rfl, rfl, fun hfilled => ?_⟩⟩
  rw [h.begun hfilled] at hbegun
  cases hbegun

/-- Every signal leaves the standalone expression orderly. -/
theorem Orderly.onSignal (h : r.Orderly) (signal : Signal) :
    ((r.onSignal signal).map .root).Follows .root := by
  have habsorb : Reaction.Follows ((⟨r, .absorb, {}⟩ : Reaction RootReader).map .root) .root :=
    ⟨rfl, h, .inl rfl⟩
  unfold RootReader.onSignal
  split
  · rename_i t htrivia
    have ht : t.isTrivia = true :=
      TriviaStart.orderly_of_at? (show TriviaStart.at? true _ = some (.token t) from htrivia)
    exact ⟨rfl, h.pushExtras (Form.tidy_trivia (by simp [ht]))⟩
  · rename_i leaf htrivia
    obtain ⟨hleaf, horigin⟩ :=
      TriviaStart.orderly_of_at? (show TriviaStart.at? true _ = some (.reader leaf) from htrivia)
    exact ⟨rfl, ⟨h, .inl horigin⟩, hleaf⟩
  · exact ⟨rfl, h⟩
  · split
    · rename_i hstart
      rw [Bool.and_eq_true, Bool.not_eq_true'] at hstart
      exact ⟨rfl, h.begin hstart.1, ExpressionReader.orderly_start _⟩
    · exact habsorb
  · exact habsorb

/-- The expression has its place, and all else is an extra. -/
theorem Orderly.onToken (h : r.Orderly)
    (ho : o = .trivia ∨ o = .expression ∧ r.begun = true ∧ .expression ∉ Form.slots r.form)
    (ht : t.Regular) (hsuits : o.Suits t) : Promises (r.onToken t) Orderly := by
  unfold RootReader.onToken
  split
  · rename_i hextra
    rw [Bool.or_eq_true] at hextra
    rcases ho with rfl | ⟨rfl, _, hempty⟩
    · exact promises_pure.2 (h.pushExtras (Form.tidy_trivia hsuits))
    · have htrivia := hextra.resolve_right fun hfilled => hempty (Form.isFilled_iff.1 hfilled)
      exact promises_pure.2 (h.pushExtras (Form.tidy_trivia htrivia))
  · rename_i hextra
    rcases ho with rfl | ⟨rfl, hbegun, _⟩
    · have htrivia : (t.isTrivia || t.isInvalid) = true := hsuits
      exact absurd (by simp [htrivia]) hextra
    · exact (h.form.place rfl ht).bind fun _ hform => promises_pure.2 ⟨hform, fun _ => hbegun⟩

/-- Every delivery leaves the standalone expression orderly. -/
theorem Receives.onDelivery {d : Delivery} (h : r.Receives o) (hd : d.FitsFrom o) :
    Promises (r.onDelivery d) Orderly := by
  have hleading := h.toOrderly.pushExtras hd.leading
  have htoken : Promises ((r.pushExtras d.leading).onToken? d.token) Orderly := by
    cases htoken : d.token with
    | none => exact promises_ok.2 hleading
    | some t =>
      obtain ⟨ht, hsuits⟩ := hd.token t htoken
      refine hleading.onToken ?_ ht hsuits
      simpa [RootReader.pushExtras] using h.goal
  have hhandback : Form.Tidy {} (Form.extras (d.handback.map Tree.invalidated).toList) := by
    cases hhandback : d.handback with
    | none => exact Form.tidy_nil _
    | some t => exact Form.tidy_invalidated (hd.handback t hhandback).isLeaf
  have hline : Form.Tidy {} (Form.extras (d.line.bind LineStart.indent).toList) := by
    cases hindent : d.line.bind LineStart.indent with
    | none => exact Form.tidy_nil _
    | some indent =>
      obtain ⟨line, hline, hindent⟩ := Option.bind_eq_some_iff.1 hindent
      exact Form.tidy_trivia (by simp [hd.line line hline indent hindent])
  refine htoken.bind fun placed hplaced => promises_pure.2 ?_
  exact ((hplaced.pushExtras hd.trailing).pushExtras hhandback).pushExtras hline

/-- What the standalone expression delivers. -/
theorem Orderly.finish (h : r.Orderly) : r.finish.FitsFrom .root where
  leading := Form.tidy_nil _
  token t ht := by
    obtain rfl := Option.mem_some_iff.1 ht
    exact ⟨h.form.regular_ofForm rfl, _, rfl⟩
  trailing := Form.tidy_nil _
  handback := nofun
  line := nofun
  alone := nofun

end RootReader

namespace Reader

variable {r : Reader} {o : Origin}

/-- A leaf stays one of what it was opened to read. -/
theorem follows_stepOfVerdict {r : LeafReader} (h : r.Orderly) (verdict : Verdict)
    (notices : Notices) :
    Reaction.Follows ⟨.leaf r, stepOfVerdict verdict, notices⟩ r.origin := by
  cases verdict <;> exact ⟨rfl, h⟩

/-- An orderly state answers every signal in order. -/
theorem Orderly.onSignal (h : r.Orderly) (config : Config) (signal : Signal) :
    Promises (r.onSignal config signal) (·.Follows r.origin) := by
  cases r with
  | leaf r =>
    obtain ⟨hnext, horigin⟩ := LeafReader.Orderly.feed h signal
    refine promises_ok.2 ?_
    rw [← show (r.feed signal).1.origin = (Reader.leaf r).origin from horigin]
    exact follows_stepOfVerdict hnext _ _
  | expression r => exact promises_ok.2 (ExpressionReader.Orderly.onSignal h signal)
  | group r => exact (GroupReader.Orderly.onSignal h signal).map fun _ h => h
  | sequence r => exact (SequenceReader.Orderly.onSignal h signal).map fun _ h => h
  | block r => exact promises_ok.2 (BlockReader.Orderly.onSignal h config signal)
  | root r => exact promises_ok.2 (RootReader.Orderly.onSignal h signal)

/-- A state takes in order what a state inside it delivers. -/
theorem Receives.onDelivery {d : Delivery} (h : r.Receives o) (hd : d.FitsFrom o) :
    Promises (r.onDelivery d) (·.Follows r.origin) := by
  cases r with
  | leaf r => exact False.elim h
  | expression r => exact (ExpressionReader.Receives.onDelivery h hd).map fun _ h => h
  | group r => exact (GroupReader.Receives.onDelivery h hd).map fun _ h => ⟨rfl, h⟩
  | sequence r => exact (SequenceReader.Receives.onDelivery h hd).map fun _ h => h
  | block r => exact (BlockReader.Receives.onDelivery h hd).map fun _ h => h
  | root r => exact (RootReader.Receives.onDelivery h hd).map fun _ h => ⟨rfl, h⟩

/-- A state delivers what it was opened to read. -/
theorem Orderly.finish (h : r.Orderly) (config : Config) :
    Promises (r.finish config) (·.FitsFrom r.origin) := by
  cases r with
  | leaf r => exact promises_ok.2 (LeafReader.Orderly.fitsFrom h)
  | expression r => exact ExpressionReader.Orderly.finish h _
  | group r => exact promises_ok.2 (GroupReader.Orderly.finish h)
  | sequence r => exact promises_ok.2 (SequenceReader.Orderly.finish h)
  | block r => exact promises_ok.2 (BlockReader.Orderly.finish h)
  | root r => exact promises_ok.2 (RootReader.Orderly.finish h)

end Reader

end ScriptTree
