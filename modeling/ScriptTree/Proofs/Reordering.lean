import Mathlib
import ScriptTree.Proofs.Edits

/-!
# Edits in another order

A batch puts its edits into the order of their offsets, and edits at one offset keep the order they
came in. Which edits are accepted depends on that order only where an insertion comes behind an edit
that removes text at the same offset. Edits that are accepted in two orders, with the insertions of
each offset in the same order, make the same batch.
-/

namespace ScriptTree

/-- Whether two edits leave each other's range alone. -/
def Edit.Apart (a b : Edit) : Prop :=
  a.stop ≤ b.offset ∨ b.stop ≤ a.offset

theorem Edit.Apart.symm {a b : Edit} (h : a.Apart b) : b.Apart a :=
  Or.symm h

/-- An edit never ends before it begins, even at the largest offset. -/
theorem Edit.offset_le_stop {e : Edit} (h : e.offset + e.removed ≤ maxOffset) :
    e.offset ≤ e.stop := by
  rw [Edit.stop_eq h]
  exact Nat.le_add_right e.offset e.removed

namespace EditBatch

/-- The edits at an offset. -/
def atOffset (offset : Nat) (edits : List Edit) : List Edit :=
  edits.filter fun e => e.offset = offset

/-- The edits at an offset that only insert. -/
def insertionsAt (offset : Nat) (edits : List Edit) : List Edit :=
  (atOffset offset edits).filter fun e => e.removed = 0

/-- No insertion comes behind an edit that removes text at its offset. -/
def InsertsFirst (edits : List Edit) : Prop :=
  ∀ offset, (atOffset offset edits).Pairwise fun a b => b.removed = 0 → a.removed = 0

@[simp]
theorem mem_atOffset {offset : Nat} {edits : List Edit} {e : Edit} :
    e ∈ atOffset offset edits ↔ e ∈ edits ∧ e.offset = offset := by
  simp [atOffset]

/-- Edits at one offset are a part of all edits there. -/
theorem sublist_atOffset {offset : Nat} {part edits : List Edit} (h : part.Sublist edits)
    (hpart : ∀ e ∈ part, e.offset = offset) : part.Sublist (atOffset offset edits) := by
  have hfilter := h.filter fun e => decide (e.offset = offset)
  rwa [List.filter_eq_self.2 fun e he => decide_eq_true (hpart e he)] at hfilter

/-- An edit is one of the insertions at an offset if it inserts there and removes nothing. -/
theorem insertionsAt_cons (offset : Nat) (e : Edit) (edits : List Edit) :
    insertionsAt offset (e :: edits) =
      if e.offset = offset ∧ e.removed = 0 then e :: insertionsAt offset edits
      else insertionsAt offset edits := by
  by_cases hoffset : e.offset = offset <;> by_cases hremoved : e.removed = 0 <;>
    simp [insertionsAt, atOffset, hoffset, hremoved]

/-! ### Sorting by offset -/

section Sorting

/-- Edits can be compared by their offsets. -/
theorem offset_le_total (a b : Edit) :
    (decide (a.offset ≤ b.offset) || decide (b.offset ≤ a.offset)) = true := by
  simpa using Nat.le_total a.offset b.offset

/-- The comparison by offsets is transitive. -/
theorem offset_le_trans (a b c : Edit) (hab : decide (a.offset ≤ b.offset) = true)
    (hbc : decide (b.offset ≤ c.offset) = true) : decide (a.offset ≤ c.offset) = true :=
  decide_eq_true (Nat.le_trans (of_decide_eq_true hab) (of_decide_eq_true hbc))

variable (edits : List Edit)

/-- Sorting only changes the order. -/
theorem sort_perm : (sort edits).Perm edits :=
  List.mergeSort_perm edits _

/-- Sorted edits have growing offsets. -/
theorem pairwise_sort : (sort edits).Pairwise fun a b => a.offset ≤ b.offset :=
  (List.pairwise_mergeSort offset_le_trans offset_le_total edits).imp of_decide_eq_true

/-- The edits at one offset stay in the order they came in. -/
@[simp]
theorem atOffset_sort (offset : Nat) : atOffset offset (sort edits) = atOffset offset edits := by
  -- They are in order as they are, so a stable sort keeps them as a part of the list.
  have hsame : (atOffset offset edits).Pairwise fun a b => decide (a.offset ≤ b.offset) = true := by
    refine List.pairwise_of_forall_mem_list fun a ha b hb => decide_eq_true ?_
    rw [(mem_atOffset.1 ha).2, (mem_atOffset.1 hb).2]
  have hpart : (atOffset offset edits).Sublist (sort edits) :=
    List.sublist_mergeSort offset_le_trans offset_le_total hsame List.filter_sublist
  have hpart' := sublist_atOffset hpart fun e he => (mem_atOffset.1 he).2
  exact (hpart'.eq_of_length ((sort_perm edits).filter _).length_eq.symm).symm

/-- Sorting does not change whether insertions come first. -/
theorem insertsFirst_sort_iff : InsertsFirst (sort edits) ↔ InsertsFirst edits := by
  simp only [InsertsFirst, atOffset_sort]

/-- The insertions at an offset stay in the order they came in. -/
theorem insertionsAt_sort (offset : Nat) :
    insertionsAt offset (sort edits) = insertionsAt offset edits := by
  rw [insertionsAt, insertionsAt, atOffset_sort]

end Sorting

/-! ### Which edits are accepted -/

section Acceptance

variable {edits edits' : List Edit}

/-- Edits of which each ends before the next begins have no first pair that overlaps. -/
theorem overlap?_of_pairwise (h : edits.Pairwise fun a b => a.stop ≤ b.offset) :
    overlap? edits = none := by
  fun_induction overlap? edits with
  | case1 first second rest hlt =>
    have hle := (List.pairwise_cons.1 h).1 second List.mem_cons_self
    omega
  | case2 first second rest hnot ih => exact ih (List.pairwise_cons.1 h).2
  | case3 => rfl

/-- The pair reported is one of which the former reaches into the latter. -/
theorem exists_of_overlap?_eq_some {error : EditError} (h : overlap? edits = some error) :
    ∃ a b, [a, b].Sublist edits ∧ b.offset < a.stop ∧ error = .overlapping a.offset b.offset := by
  fun_induction overlap? edits with
  | case1 first second rest hlt =>
    exact ⟨first, second, by simp, hlt, (Option.some.inj h).symm⟩
  | case2 first second rest hnot ih =>
    obtain ⟨a, b, hsub, hrest⟩ := ih h
    exact ⟨a, b, hsub.trans (List.sublist_cons_self ..), hrest⟩
  | case3 => cases h

/-- Edits that fit are refused for an overlap only. -/
theorem ofEdits_of_fits (hfits : ∀ e ∈ edits, e.offset + e.removed ≤ maxOffset) :
    ofEdits edits = (overlap? (sort edits)).elim (.ok ⟨sort edits⟩) .error := by
  have hfind : edits.find? (fun e => maxOffset < e.offset + e.removed) = none :=
    List.find?_eq_none.2 fun e he => by simpa using hfits e he
  simp only [ofEdits, hfind]
  cases overlap? (sort edits) <;> rfl

/-- Edits are accepted if they are in order once they are sorted. -/
theorem ofEdits_eq_ok_iff {batch : EditBatch} :
    ofEdits edits = .ok batch ↔ batch = ⟨sort edits⟩ ∧ InOrder (sort edits) := by
  constructor
  · intro h
    obtain ⟨hsort, horder⟩ := inOrder_of_ofEdits h
    exact ⟨congrArg EditBatch.mk hsort, hsort ▸ horder⟩
  · rintro ⟨rfl, horder⟩
    have hfits : ∀ e ∈ edits, e.offset + e.removed ≤ maxOffset :=
      fun e he => horder.fits e (List.mem_mergeSort.2 he)
    rw [ofEdits_of_fits hfits, overlap?_of_pairwise horder.apart, Option.elim_none]

/-- A batch has the edits that it was made of. -/
theorem mem_of_ofEdits {batch : EditBatch} (h : ofEdits edits = .ok batch) {e : Edit} :
    e ∈ batch.edits ↔ e ∈ edits := by
  rw [(inOrder_of_ofEdits h).1, sort, List.mem_mergeSort]

/-- Sorted edits are in order if they fit, leave each other alone and insert at an offset before
they remove anything there. -/
theorem inOrder_sort_iff : InOrder (sort edits) ↔
    (∀ e ∈ edits, e.offset + e.removed ≤ maxOffset) ∧ edits.Pairwise Edit.Apart ∧
      InsertsFirst edits := by
  have hmem (e : Edit) : e ∈ sort edits ↔ e ∈ edits := List.mem_mergeSort
  have hapart : (sort edits).Pairwise Edit.Apart ↔ edits.Pairwise Edit.Apart :=
    (sort_perm edits).pairwise_iff Edit.Apart.symm
  rw [← hapart, ← insertsFirst_sort_iff]
  constructor
  · rintro ⟨hfits, horder⟩
    refine ⟨fun e he => hfits e ((hmem e).2 he), horder.imp Or.inl, fun offset => ?_⟩
    refine (horder.filter _).imp_of_mem fun {a b} ha hb hle _ => ?_
    obtain ⟨ha, hoffset⟩ := mem_atOffset.1 ha
    obtain ⟨-, hoffset'⟩ := mem_atOffset.1 hb
    have hstop := Edit.stop_eq (hfits a ha)
    omega
  · rintro ⟨hfits, hpairs, hfirst⟩
    have hfits' : ∀ e ∈ sort edits, e.offset + e.removed ≤ maxOffset :=
      fun e he => hfits e ((hmem e).1 he)
    refine ⟨hfits', List.pairwise_iff_forall_sublist.2 fun {a b} hsub => ?_⟩
    have hle := List.pairwise_iff_forall_sublist.1 (pairwise_sort edits) hsub
    have hstop := Edit.stop_eq (hfits' a (hsub.subset (by simp)))
    have hstop' := Edit.stop_eq (hfits' b (hsub.subset (by simp)))
    rcases List.pairwise_iff_forall_sublist.1 hpairs hsub with hdone | hback
    · exact hdone
    -- The latter ends at or before the former, so both are at one offset and the latter inserts.
    · have hsame : [a, b].Sublist (atOffset b.offset (sort edits)) :=
        sublist_atOffset hsub (by simp; omega)
      have hremoved := List.pairwise_iff_forall_sublist.1 (hfirst b.offset) hsame (by omega)
      omega

/-- The first of edits in order is given by what they are and the order of the insertions at its
offset. -/
theorem head_eq_of_inOrder {a b : Edit} (horder : InOrder (a :: edits))
    (horder' : InOrder (b :: edits')) (hperm : (a :: edits).Perm (b :: edits'))
    (hinsertions : insertionsAt a.offset (a :: edits) = insertionsAt a.offset (b :: edits')) :
    a = b := by
  by_contra hne
  -- Each of them stands behind the other one, so both only insert, and at one offset.
  have ha : a ∈ edits' := by simpa [hne] using hperm.mem_iff.1 (List.mem_cons_self (a := a))
  have hb : b ∈ edits := by simpa [Ne.symm hne] using hperm.mem_iff.2 (List.mem_cons_self (a := b))
  have hab := (List.pairwise_cons.1 horder.apart).1 b hb
  have hba := (List.pairwise_cons.1 horder'.apart).1 a ha
  have hstop := Edit.stop_eq (horder.fits a List.mem_cons_self)
  have hstop' := Edit.stop_eq (horder'.fits b List.mem_cons_self)
  rw [insertionsAt_cons, if_pos ⟨rfl, by omega⟩, insertionsAt_cons, if_pos (by omega)]
    at hinsertions
  exact hne (List.cons.inj hinsertions).1

/-- Edits in order are given by what they are and the order of the insertions at each offset. -/
theorem eq_of_inOrder (horder : InOrder edits) (horder' : InOrder edits')
    (hperm : edits.Perm edits')
    (hinsertions : ∀ offset, insertionsAt offset edits = insertionsAt offset edits') :
    edits = edits' := by
  induction edits generalizing edits' with
  | nil => exact (List.nil_perm.1 hperm).symm
  | cons a rest ih =>
    cases edits' with
    | nil => exact absurd hperm.length_eq (by simp)
    | cons b rest' =>
      obtain rfl := head_eq_of_inOrder horder horder' hperm (hinsertions a.offset)
      have hrest := horder.sublist (List.sublist_cons_self a rest)
      have hrest' := horder'.sublist (List.sublist_cons_self a rest')
      refine congrArg (a :: ·) (ih hrest hrest' ((List.perm_cons a).1 hperm) fun offset => ?_)
      have htails := hinsertions offset
      rw [insertionsAt_cons, insertionsAt_cons] at htails
      split at htails
      · exact (List.cons.inj htails).2
      · exact htails

/-- Edits are accepted or refused for what they are, apart from insertions that come behind what is
removed at their offset. -/
theorem exists_ofEdits_iff : (∃ batch, ofEdits edits = .ok batch) ↔
    (∀ e ∈ edits, e.offset + e.removed ≤ maxOffset) ∧ edits.Pairwise Edit.Apart ∧
      InsertsFirst edits := by
  rw [← inOrder_sort_iff]
  constructor
  · rintro ⟨batch, h⟩
    exact (ofEdits_eq_ok_iff.1 h).2
  · exact fun horder => ⟨_, ofEdits_eq_ok_iff.2 ⟨rfl, horder⟩⟩

/-- Edits that fit and leave each other alone are refused only for two edits at one offset. -/
theorem overlapping_of_not_insertsFirst (hfits : ∀ e ∈ edits, e.offset + e.removed ≤ maxOffset)
    (hapart : edits.Pairwise Edit.Apart) (hnot : ¬ InsertsFirst edits) :
    ∃ offset, ofEdits edits = .error (.overlapping offset offset) := by
  have hmem (e : Edit) (he : e ∈ sort edits) : e.offset + e.removed ≤ maxOffset :=
    hfits e (List.mem_mergeSort.1 he)
  cases hoverlap : overlap? (sort edits) with
  | none =>
    have horder : InOrder (sort edits) := ⟨hmem, pairwise_of_overlap? hmem hoverlap⟩
    exact absurd (inOrder_sort_iff.1 horder).2.2 hnot
  | some error =>
    obtain ⟨a, b, hsub, hlt, rfl⟩ := exists_of_overlap?_eq_some hoverlap
    have hle := List.pairwise_iff_forall_sublist.1 (pairwise_sort edits) hsub
    have hpairs := ((sort_perm edits).pairwise_iff Edit.Apart.symm).2 hapart
    have hback := (List.pairwise_iff_forall_sublist.1 hpairs hsub).resolve_left (by omega)
    have hstop := Edit.stop_eq (hmem b (hsub.subset (by simp)))
    have hoffset : a.offset = b.offset := by omega
    exact ⟨b.offset, by rw [ofEdits_of_fits hfits, hoverlap, Option.elim_some, hoffset]⟩

end Acceptance

/-! ### The order in which edits are supplied -/

/-- Edits supplied in two orders that agree on the insertions at each offset make the same batch
wherever both orders are accepted, and so do the same to every text. They are accepted or refused
together as long as the insertions come first at their offset. Where they do not, edits that are
accepted otherwise are refused, as if two of them at one offset overlapped. -/
theorem ofEdits_reordered {edits edits' : List Edit} (hperm : edits.Perm edits')
    (hinsertions : ∀ offset, insertionsAt offset edits = insertionsAt offset edits') :
    (∀ batch batch', ofEdits edits = .ok batch → ofEdits edits' = .ok batch' → batch = batch') ∧
    (InsertsFirst edits → InsertsFirst edits' →
      ((∃ batch, ofEdits edits = .ok batch) ↔ ∃ batch, ofEdits edits' = .ok batch)) ∧
    (∀ batch, ofEdits edits = .ok batch → ¬ InsertsFirst edits' →
      ∃ offset, ofEdits edits' = .error (.overlapping offset offset)) := by
  have hfits : (∀ e ∈ edits, e.offset + e.removed ≤ maxOffset) ↔
      ∀ e ∈ edits', e.offset + e.removed ≤ maxOffset := by
    simp only [hperm.mem_iff]
  have hapart : edits.Pairwise Edit.Apart ↔ edits'.Pairwise Edit.Apart :=
    hperm.pairwise_iff Edit.Apart.symm
  refine ⟨fun batch batch' h h' => ?_, fun hfirst hfirst' => ?_, fun batch h hnot => ?_⟩
  · obtain ⟨rfl, horder⟩ := ofEdits_eq_ok_iff.1 h
    obtain ⟨rfl, horder'⟩ := ofEdits_eq_ok_iff.1 h'
    have hsorted : (sort edits).Perm (sort edits') :=
      (sort_perm edits).trans (hperm.trans (sort_perm edits').symm)
    refine congrArg EditBatch.mk (eq_of_inOrder horder horder' hsorted fun offset => ?_)
    rw [insertionsAt_sort, insertionsAt_sort, hinsertions]
  · rw [exists_ofEdits_iff, exists_ofEdits_iff, hfits, hapart, iff_true_intro hfirst,
      iff_true_intro hfirst']
  · obtain ⟨hfit, hpairs, -⟩ := exists_ofEdits_iff.1 ⟨batch, h⟩
    exact overlapping_of_not_insertsFirst (hfits.1 hfit) (hapart.1 hpairs) hnot

/-- Two insertions and a replacement at one offset, and a deletion behind them. -/
def stackedEdits : List Edit :=
  [⟨0, 0, "a"⟩, ⟨0, 0, "b"⟩, ⟨0, 1, "c"⟩, ⟨3, 1, ""⟩]

/-- The same edits with the deletion first and an edit between the insertions. -/
def shuffledEdits : List Edit :=
  [⟨3, 1, ""⟩, ⟨0, 0, "a"⟩, ⟨0, 1, "c"⟩, ⟨0, 0, "b"⟩]

theorem ofEdits_reordered_stackedEdits :
    ofEdits stackedEdits = .ok ⟨stackedEdits⟩ ∧ ¬ InsertsFirst shuffledEdits ∧
      ∃ offset, ofEdits shuffledEdits = .error (.overlapping offset offset) := by
  have hbatch : ofEdits stackedEdits = .ok ⟨stackedEdits⟩ := by cbv
  have hperm : stackedEdits.Perm shuffledEdits := by decide
  have hinsertions (offset : Nat) :
      insertionsAt offset stackedEdits = insertionsAt offset shuffledEdits := by
    simp [stackedEdits, shuffledEdits, insertionsAt_cons]
  have hnot : ¬ InsertsFirst shuffledEdits := fun hfirst => absurd (hfirst 0) (by decide)
  exact ⟨hbatch, hnot, (ofEdits_reordered hperm hinsertions).2.2 _ hbatch hnot⟩

/-- An insertion is refused behind a replacement at its offset and accepted in front of it. -/
theorem insertion_refused_behind_replacement :
    [⟨0, 0, "x"⟩, ⟨0, 1, "y"⟩].Perm [(⟨0, 1, "y"⟩ : Edit), ⟨0, 0, "x"⟩] ∧
      (∀ offset, insertionsAt offset [⟨0, 0, "x"⟩, ⟨0, 1, "y"⟩] =
        insertionsAt offset [⟨0, 1, "y"⟩, ⟨0, 0, "x"⟩]) ∧
      ofEdits [⟨0, 0, "x"⟩, ⟨0, 1, "y"⟩] = .ok ⟨[⟨0, 0, "x"⟩, ⟨0, 1, "y"⟩]⟩ ∧
      ofEdits [⟨0, 1, "y"⟩, ⟨0, 0, "x"⟩] = .error (.overlapping 0 0) := by
  refine ⟨by decide, fun offset => ?_, by cbv, by cbv⟩
  simp [insertionsAt_cons]

end EditBatch

end ScriptTree
