import ScriptTree.Proofs.EditRuns
import ScriptTree.Tree.Outline

/-!
# Reading again

Without limits on depth every tree can be brought up to date, and a text that is read again as a
whole is read from the entry point that its tree came from. An item that is read again by itself
meets the end of the text where the whole text goes on, so that the tree may differ from that of
the whole text.
-/

namespace ScriptTree

namespace Reparse

variable {config : Config} {limited : Prop} {t : Tree} {text : String}

/-- Reading an item again fails only where there are limits. -/
theorem reread?_meets (hstack : config.maxReadingStack.isSome → limited)
    (hfolding : config.maxTraceFrames.isSome → limited) (t : Tree) (c : Candidate)
    (edits : List Edit) : Meets limited (reread? config t c edits) fun _ => True := by
  unfold reread?
  dsimp only
  split
  · trivial
  split
  · trivial
  split
  · trivial
  refine (readRun?_meets hstack hfolding c _).bind fun newRun? _ => ?_
  cases newRun? <;> trivial

/-- A tree in which an item was put into the place of another has the root it had. -/
theorem spliceItem_meets (hstack : config.maxReadingStack.isSome → limited)
    (hfolding : config.maxTraceFrames.isSome → limited) (t : Tree) (c : Candidate)
    (edits : List Edit) :
    Meets limited (spliceItem config t c edits) fun result =>
      ∀ next, result = some next → next.1.nodeKind? = t.nodeKind? := by
  refine (reread?_meets hstack hfolding t c edits).bind fun raw? _ => ?_
  cases raw? with
  | none => exact nofun
  | some raw =>
    refine meets_pure.2 fun next hnext => ?_
    unfold replaceItem? at hnext
    split at hnext
    · rw [← Option.some.inj hnext]
      exact nodeKind?_replaceRun ..
    · cases hnext

/-- The tree that takes up the edits of a group has the root it had. -/
theorem spliceFirst_meets (hstack : config.maxReadingStack.isSome → limited)
    (hfolding : config.maxTraceFrames.isSome → limited) (t : Tree) (own foreign : List Edit)
    (candidates : List Candidate) :
    Meets limited (spliceFirst config t own foreign candidates) fun result =>
      ∀ next, result = some next → next.1.nodeKind? = t.nodeKind? := by
  induction candidates with
  | nil => exact nofun
  | cons c outer ih =>
    rw [spliceFirst]
    split
    · exact nofun
    refine (spliceItem_meets hstack hfolding t c own).bind fun result hresult => ?_
    cases result with
    | none => exact ih
    | some next => exact hresult

/-- An attempt to bring a tree up to date ends with the tree of the text if the whole text was read
again, and fails only where there are limits. -/
def Renews (config : Config) (limited : Prop) (entrance : Entrance) (text : String)
    (r : Reparsed) : Prop :=
  match r.outcome with
  | .ok stats => stats.full = true → parse entrance config text = .ok r.tree
  | .error _ => limited

/-- Reading the whole text again gives its tree. -/
theorem renews_full (hstack : config.maxReadingStack.isSome → limited)
    (hfolding : config.maxTraceFrames.isSome → limited) (t : Tree) (text : String) :
    Renews config limited (.ofTree t) text (full config t text) := by
  have hmeets := parse_meets hstack hfolding (.ofTree t) text
  unfold full
  cases hparse : parse (.ofTree t) config text with
  | ok new => exact fun _ => hparse
  | error e =>
    rw [hparse] at hmeets
    cases e with
    | depth e => exact hmeets
    | tree e => exact False.elim hmeets

/-- So does taking up the edits of groups, however many were taken up before. -/
theorem renews_spliceGroups (hstack : config.maxReadingStack.isSome → limited)
    (hfolding : config.maxTraceFrames.isSome → limited) (text : String) (t : Tree)
    (done : List Edit) (count : Nat) (groups : List Group) :
    Renews config limited (.ofTree t) text (spliceGroups config text t done count groups) := by
  induction groups generalizing t done count with
  | nil => exact nofun
  | cons group earlier ih =>
    have hmeets := spliceFirst_meets hstack hfolding t group.edits
      (earlier.flatMap Group.edits ++ done) group.candidates
    rw [spliceGroups]
    split
    · rename_i e hfirst
      rw [hfirst] at hmeets
      cases e with
      | depth e => exact hmeets
      | tree e => exact False.elim hmeets
    · exact renews_full hstack hfolding t text
    · rename_i next more hfirst
      rw [hfirst] at hmeets
      have hkind : next.nodeKind? = t.nodeKind? := hmeets _ rfl
      have hentrance : Entrance.ofTree next = Entrance.ofTree t := by
        rw [Entrance.ofTree, Entrance.ofTree, hkind]
      rw [← hentrance]
      exact ih next _ _

/-- So does bringing a tree up to date. -/
theorem renews_reparse (hstack : config.maxReadingStack.isSome → limited)
    (hfolding : config.maxTraceFrames.isSome → limited) (t : Tree) (text : String)
    (edits : List Edit) :
    Renews config limited (.ofTree t) text (reparse config t text edits) := by
  have hfull := renews_full hstack hfolding t text
  unfold reparse
  split
  · exact nofun
  split
  · exact hfull
  split
  · split
    · exact renews_spliceGroups hstack hfolding text t [] 0 _
    · exact hfull
  · exact hfull

end Reparse

/-- Without limits on depth bringing a tree up to date never fails, and where the whole text is read
again the tree is that of the text. -/
theorem reparse_succeeds {config : Config} (hstack : config.maxReadingStack = none)
    (hfolding : config.maxTraceFrames = none) (t : Tree) (text : String) (edits : List Edit) :
    ∃ t' stats, reparse config t text edits = ⟨t', .ok stats⟩ ∧
      (stats.full = true → parse (.ofTree t) config text = .ok t') := by
  have hrenews : Reparse.Renews config False (.ofTree t) text (reparse config t text edits) :=
    Reparse.renews_reparse (by simp [hstack]) (by simp [hfolding]) t text edits
  cases hreparse : reparse config t text edits with
  | mk t' outcome =>
    rw [hreparse] at hrenews
    cases outcome with
    | ok stats => exact ⟨t', stats, rfl, hrenews⟩
    | error e => exact False.elim hrenews

/-- A colon that ends its line announces accessors, but an item that is read again by itself has no
line after it: the colon stays that of a type. -/
theorem reparse_not_fresh_at_colon : ∃ t stats t' fresh,
    parse .file {} "var s := 3\n" = .ok t ∧
      reparse {} t "var s :\n" [⟨7, 3, ""⟩] = ⟨t', .ok stats⟩ ∧
      parse .file {} "var s :\n" = .ok fresh ∧
      t'.walk (fun _ => false) ≠ fresh.walk (fun _ => false) := by
  have hcheck : (parse .file {} "var s := 3\n").toOption.any (fun t =>
      let r := reparse {} t "var s :\n" [⟨7, 3, ""⟩]
      r.outcome.isOk && (parse .file {} "var s :\n").toOption.any fun fresh =>
        r.tree.walk (fun _ => false) != fresh.walk fun _ => false) := by
    decide +kernel
  obtain ⟨t, ht, hcheck⟩ := exists_of_any_toOption hcheck
  rw [Bool.and_eq_true] at hcheck
  obtain ⟨stats, hstep⟩ := reparse_eq_of_isOk hcheck.1
  obtain ⟨fresh, hfresh, hwalk⟩ := exists_of_any_toOption hcheck.2
  exact ⟨t, stats, _, fresh, ht, hstep, hfresh, bne_iff_ne.1 hwalk⟩

end ScriptTree
