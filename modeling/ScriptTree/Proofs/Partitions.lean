import ScriptTree.Proofs.Reparsing

/-!
# Plans split edits into separated items

Planning goes on until every edit has a group, and takes no more rounds than there are edits. The
groups of a plan divide the edits among them, in order; their innermost items stand one behind
another without meeting, so that the edits of a group leave the items of the others alone.
-/

namespace ScriptTree

/-- Edits within the range of offsets, each of which ends before the next one begins, ascend. -/
theorem ascending_of_pairwise {edits : List Edit} (hbounds : ∀ e ∈ edits, e.offset ≤ maxOffset)
    (happart : edits.Pairwise fun a b => a.stop ≤ b.offset) : Ascending edits where
  forward e he := Nat.le_min.2 ⟨Nat.le_add_right .., hbounds e he⟩
  apart := happart

namespace Reparse

open ScriptTree.Tree

variable {config : Config} {t : Tree} {c : Candidate}

/-! ### Rounds -/

/-- Planning from the groups so far on, the latest first, with as many rounds as it takes. -/
inductive Plans (config : Config) (t : Tree) :
    List Group → List Edit → Option (List Group) → Prop
  | done (groups : List Group) : Plans config t groups [] (some groups)
  | stuck {groups : List Group} {e : Edit} {later : List Edit}
    (hjoin : join? config t [e] later groups = none) : Plans config t groups (e :: later) none
  | round {groups joined : List Group} {e : Edit} {later left : List Edit}
    {result : Option (List Group)} (hjoin : join? config t [e] later groups = some (joined, left))
    (hmore : Plans config t joined left result) : Plans config t groups (e :: later) result

/-- Forming a group leaves no more edits than come later. -/
theorem length_le_of_grow? {own later left : List Edit} {g : Group}
    (h : grow? config t own later = some (g, left)) : left.length ≤ later.length := by
  simp only [grow?, bind, Option.bind_eq_some_iff] at h
  obtain ⟨_, _, _, _, h⟩ := h
  split at h
  · cases h
  · obtain ⟨-, rfl⟩ := Prod.mk.inj (Option.some.inj h)
    exact (List.dropWhile_sublist _).length_le

/-- Joining groups leaves no more edits than come later. -/
theorem length_le_of_join? {own later left : List Edit} {groups result : List Group}
    (h : join? config t own later groups = some (result, left)) :
    left.length ≤ later.length := by
  induction groups generalizing own later with
  | nil =>
    obtain ⟨⟨g, left'⟩, hgrow, heq⟩ := Option.map_eq_some_iff.1 h
    obtain ⟨-, rfl⟩ := Prod.mk.inj heq
    exact length_le_of_grow? hgrow
  | cons nearest earlier ih =>
    simp only [join?, bind, Option.bind_eq_some_iff] at h
    obtain ⟨⟨g, later'⟩, hgrow, h⟩ := h
    have hle := length_le_of_grow? hgrow
    dsimp only at h
    split at h
    · exact (ih h).trans hle
    · obtain ⟨-, rfl⟩ := Prod.mk.inj (Option.some.inj h)
      exact hle

/-- Every round takes up at least one edit, so that no more rounds are needed than there are
edits. -/
theorem plans_of_length_le {fuel : Nat} {groups : List Group} {later : List Edit}
    (h : later.length ≤ fuel) :
    Plans config t groups later (planFrom? config t fuel groups later) := by
  induction fuel generalizing groups later with
  | zero =>
    obtain rfl := List.length_eq_zero_iff.1 (Nat.le_zero.1 h)
    exact .done groups
  | succ fuel ih =>
    cases later with
    | nil => exact .done groups
    | cons e later =>
      rw [planFrom?]
      cases hjoin : join? config t [e] later groups with
      | none => exact .stuck hjoin
      | some joined =>
        have hleft := length_le_of_join? hjoin
        rw [List.length_cons] at h
        exact .round hjoin (ih (by omega))

/-! ### Separation -/

/-- A candidate does not end before it begins. -/
theorem Candidate.StandsAt.start_le_stop {p : Position} {path : List Nat} {front text : String}
    (h : c.StandsAt p path t front text) : c.span.start ≤ c.span.stop := by
  rw [h.span_eq, Position.advance_append]
  simp only [Position.offset_advance]
  omega

/-- The innermost item of a sound group does not end before it begins. -/
theorem Group.Sound.start_le_stop {g : Group} (h : g.Sound t) :
    g.item.span.start ≤ g.item.span.stop := by
  obtain ⟨front, text, hstands⟩ := h.stands g.item List.mem_cons_self
  exact hstands.start_le_stop

/-- Groups, the latest first, whose innermost items stand one behind another without meeting. -/
def Apart (groups : List Group) : Prop :=
  groups.Pairwise fun later earlier => earlier.item.span.stop < later.item.span.start

/-- A group is joined with the earlier ones until its item is behind theirs. -/
theorem join?_apart {own later left : List Edit} {groups result : List Group}
    (hsound : ∀ g ∈ groups, g.Sound t) (hapart : Apart groups)
    (h : join? config t own later groups = some (result, left)) : Apart result := by
  induction groups generalizing own later with
  | nil =>
    obtain ⟨⟨g, left'⟩, -, heq⟩ := Option.map_eq_some_iff.1 h
    obtain ⟨rfl, -⟩ := Prod.mk.inj heq
    exact List.pairwise_singleton _ g
  | cons nearest earlier ih =>
    obtain ⟨hnearest, hearlier⟩ := List.pairwise_cons.1 hapart
    simp only [join?, bind, Option.bind_eq_some_iff] at h
    obtain ⟨⟨g, later'⟩, -, h⟩ := h
    dsimp only at h
    split at h
    · exact ih (fun g hg => hsound g (List.mem_cons_of_mem _ hg)) hearlier h
    · rename_i hbehind
      obtain ⟨rfl, -⟩ := Prod.mk.inj (Option.some.inj h)
      have hspan := (hsound nearest List.mem_cons_self).start_le_stop
      refine List.pairwise_cons.2 ⟨fun g' hg' => ?_, hapart⟩
      rcases List.mem_cons.1 hg' with rfl | hg'
      · omega
      · have hlt := hnearest g' hg'
        omega

/-- Planning keeps the groups apart. -/
theorem planFrom?_apart {fuel : Nat} {later : List Edit} {groups result : List Group}
    (hplaced : t.NodesPlacedFrom true .start) (hsound : ∀ g ∈ groups, g.Sound t)
    (horder : Ascending (editsOf groups ++ later)) (hapart : Apart groups)
    (h : planFrom? config t fuel groups later = some result) : Apart result := by
  induction fuel generalizing groups later with
  | zero =>
    cases later with
    | nil =>
      obtain rfl := Option.some.inj h
      exact hapart
    | cons e later => cases h
  | succ fuel ih =>
    cases later with
    | nil =>
      obtain rfl := Option.some.inj h
      exact hapart
    | cons e later =>
      simp only [planFrom?, bind, Option.bind_eq_some_iff] at h
      obtain ⟨⟨joined, left⟩, hjoin, h⟩ := h
      obtain ⟨hjoined, hedits⟩ := join?_sound hplaced hsound (by simpa using horder) hjoin
      exact ih hjoined (by rw [hedits]; simpa using horder) (join?_apart hsound hapart hjoin) h

/-! ### Partitions -/

/-- Groups, the latest first, that divide edits among them in order. Every item that may take up a
group covers its edits. The innermost items stand one behind another without meeting, and are not
touched by edits of other groups. -/
structure Partitions (groups : List Group) (edits : List Edit) : Prop where
  edits_eq : editsOf groups = edits
  nonempty : ∀ g ∈ groups, g.edits ≠ []
  covers : ∀ g ∈ groups, ∀ c ∈ g.candidates, ∀ e ∈ g.edits, c.covers e.offset e.stop = true
  forward : ∀ g ∈ groups, g.item.span.start ≤ g.item.span.stop
  apart : Apart groups
  untouched : groups.Pairwise fun g g' =>
    (∀ e ∈ g'.edits, g.item.touches e = false) ∧ ∀ e ∈ g.edits, g'.item.touches e = false

/-- An edit that an item covers touches no item before or behind it. -/
theorem Group.Sound.untouched {later earlier : Group} (hlater : later.Sound t)
    (hearlier : earlier.Sound t) (hapart : earlier.item.span.stop < later.item.span.start) :
    (∀ e ∈ earlier.edits, later.item.touches e = false) ∧
      ∀ e ∈ later.edits, earlier.item.touches e = false := by
  constructor
  · intro e he
    have hcovers := hearlier.covers earlier.item List.mem_cons_self e he
    simp only [Candidate.touches, Bool.and_eq_false_iff, decide_eq_false_iff_not]
    omega
  · intro e he
    have hcovers := hlater.covers later.item List.mem_cons_self e he
    simp only [Candidate.touches, Bool.and_eq_false_iff, decide_eq_false_iff_not]
    omega

/-- Planning ascending edits of a tree that knows its place comes to an end, and the groups that it
gives divide the edits among separated items. -/
theorem plan?_partitions (config : Config) {edits : List Edit} (hplaced : t.PlacedFrom .start)
    (hbounds : ∀ e ∈ edits, e.offset ≤ maxOffset)
    (hsorted : edits.Pairwise fun a b => a.stop ≤ b.offset) :
    Plans config t [] edits (plan? config t edits) ∧
      ∀ groups, plan? config t edits = some groups → Partitions groups edits := by
  refine ⟨plans_of_length_le (Nat.le_refl _), fun groups hplan => ?_⟩
  have horder := ascending_of_pairwise hbounds hsorted
  have hnodes := hplaced.nodesPlacedFrom true
  obtain ⟨hsound, hedits⟩ := plan?_sound hnodes horder hplan
  have hapart : Apart groups :=
    planFrom?_apart hnodes (by simp) (by simpa using horder) List.Pairwise.nil hplan
  refine ⟨hedits, fun g hg => (hsound g hg).nonempty, fun g hg c hc e he => ?_,
    fun g hg => (hsound g hg).start_le_stop, hapart, ?_⟩
  · simpa [Candidate.covers] using (hsound g hg).covers c hc e he
  · exact hapart.imp_of_mem fun hlater hearlier h => (hsound _ hlater).untouched (hsound _ hearlier) h

/-- Two of three statements are edited, one of them twice. -/
theorem plan?_partitions_statements :
    ∃ t groups, parse .statements {} "ab\nc\nd" = .ok t ∧
      plan? {} t [⟨0, 1, "x"⟩, ⟨2, 0, "y"⟩, ⟨5, 1, "z"⟩] = some groups ∧
      groups.map (fun g => g.edits.length) = [1, 2] ∧
      Partitions groups [⟨0, 1, "x"⟩, ⟨2, 0, "y"⟩, ⟨5, 1, "z"⟩] := by
  have hcheck : (parse .statements {} "ab\nc\nd").toOption.any (fun t =>
      (plan? {} t [⟨0, 1, "x"⟩, ⟨2, 0, "y"⟩, ⟨5, 1, "z"⟩]).any fun groups =>
        groups.map (fun g => g.edits.length) == [1, 2]) := by
    decide +kernel
  obtain ⟨t, ht, hplan⟩ := exists_of_any_toOption hcheck
  obtain ⟨groups, hgroups, hlengths⟩ := (Option.any_eq_true _ _).1 hplan
  have hsorted : List.Pairwise (fun a b : Edit => a.stop ≤ b.offset)
      [⟨0, 1, "x"⟩, ⟨2, 0, "y"⟩, ⟨5, 1, "z"⟩] := by decide
  obtain ⟨-, hpartitions⟩ := plan?_partitions {} (placedFrom_of_parse ht) (by decide) hsorted
  exact ⟨t, groups, ht, hgroups, beq_iff_eq.1 hlengths, hpartitions groups hgroups⟩

end Reparse

end ScriptTree
