import Mathlib
import ScriptTree.Proofs.Displacement
import ScriptTree.Source.Change

/-!
# What a change does to the ranges around it

The region of a batch reaches from its first edit to the end of its last. A range that begins at or
behind its end moves with the text there, byte for byte, and a range that shares a byte with it or
holds it has to be read again. A range that ends at or before its beginning stays, but for one case:
where a batch only inserts, and all at one offset, its region is empty, and a range that ends there
is moved at its end alone.
-/

namespace ScriptTree

/-- The bytes of a range of a text. -/
def Span.bytesIn (s : Span) (text : String) : List UInt8 :=
  ((Text.bytes text).drop s.start).take s.length

/-- Ranges of one length hold the same bytes if the texts agree byte for byte. -/
theorem Span.bytesIn_eq {s t : Span} {old new : String} (hlength : t.length = s.length)
    (hbytes : ∀ i < s.length, (Text.bytes new)[t.start + i]? = (Text.bytes old)[s.start + i]?) :
    t.bytesIn new = s.bytesIn old := by
  refine List.ext_getElem? fun i => ?_
  simp only [bytesIn, List.getElem?_take, List.getElem?_drop, hlength]
  split
  · exact hbytes i ‹_›
  · rfl

namespace Change

variable {edits : List Edit} {m : Change} {s : Span}

/-! ### The region that covers edits -/

/-- Every edit is covered by a region. -/
theorem exists_covering?_of_mem {e : Edit} (he : e ∈ edits) : ∃ m, covering? edits = some m := by
  cases edits with
  | nil => cases he
  | cons first rest => exact ⟨_, rfl⟩

/-- The region begins with the least offset. -/
theorem min?_offset_of_covering? (h : covering? edits = some m) :
    (edits.map Edit.offset).min? = some m.start := by
  cases edits with
  | nil => cases h
  | cons e rest =>
    obtain rfl := Option.some.inj h
    rw [List.map_cons, List.min?_cons', List.foldl_map]

/-- The region ends with the greatest end. -/
theorem max?_stop_of_covering? (h : covering? edits = some m) :
    (edits.map Edit.stop).max? = some m.stop := by
  cases edits with
  | nil => cases h
  | cons e rest =>
    obtain rfl := Option.some.inj h
    rw [List.map_cons, List.max?_cons', List.foldl_map]

/-- The region covers every edit. -/
theorem covers_of_covering? (h : covering? edits = some m) {e : Edit} (he : e ∈ edits) :
    m.start ≤ e.offset ∧ e.stop ≤ m.stop :=
  ⟨(List.min?_eq_some_iff.1 (min?_offset_of_covering? h)).2 _ (List.mem_map_of_mem he),
    (List.max?_eq_some_iff.1 (max?_stop_of_covering? h)).2 _ (List.mem_map_of_mem he)⟩

/-- The region ends where one of the edits does. -/
theorem exists_stop_of_covering? (h : covering? edits = some m) : ∃ e ∈ edits, e.stop = m.stop :=
  List.mem_map.1 (List.max?_eq_some_iff.1 (max?_stop_of_covering? h)).1

/-- What follows the region moves by what all edits add. -/
theorem delta_of_covering? (h : covering? edits = some m) : m.delta = Edit.totalDelta edits := by
  cases edits with
  | nil => cases h
  | cons e rest =>
    obtain rfl := Option.some.inj h
    rfl

/-- Edits do not take away more than what lies between the first and the last. -/
theorem le_add_totalDelta (horder : InOrder edits) {start stop : Nat} (hle : start ≤ stop)
    (hstart : ∀ e ∈ edits, start ≤ e.offset) (hstop : ∀ e ∈ edits, e.stop ≤ stop) :
    (start : Int) ≤ stop + Edit.totalDelta edits := by
  induction edits generalizing start with
  | nil =>
    rw [Edit.totalDelta]
    omega
  | cons e more ih =>
    obtain ⟨hfits, hmore, hlater⟩ := EditBatch.inOrder_cons horder
    obtain ⟨hfirst, -⟩ := List.forall_mem_cons.1 hstart
    obtain ⟨hend, hends⟩ := List.forall_mem_cons.1 hstop
    have hrest := ih hmore hend hlater hends
    have heq := Edit.stop_eq hfits
    rw [Edit.totalDelta, Edit.delta]
    omega

/-- The region of edits in order ends at or behind its beginning, in the new text as well. -/
theorem start_le_of_covering? (horder : InOrder edits) (h : covering? edits = some m) :
    m.start ≤ m.stop ∧ (m.start : Int) ≤ m.stop + m.delta := by
  obtain ⟨last, hlast, hstop⟩ := exists_stop_of_covering? h
  have hcovers := covers_of_covering? h hlast
  have hle := Edit.offset_le_stop (horder.fits last hlast)
  have hregion : m.start ≤ m.stop := by omega
  rw [delta_of_covering? h]
  exact ⟨hregion, le_add_totalDelta horder hregion (fun e he => (covers_of_covering? h he).1)
    fun e he => (covers_of_covering? h he).2⟩

/-! ### Where offsets and ranges go -/

/-- Offsets in front of the end of the region stay. -/
theorem adjust_of_lt {offset : Nat} (h : offset < m.stop) : m.adjust offset = offset :=
  if_pos (.inr h)

/-- Later offsets move, as far as there are offsets for them. -/
theorem adjust_of_le {offset : Nat} (hstart : m.start ≤ offset) (hstop : m.stop ≤ offset)
    (hnonneg : 0 ≤ offset + m.delta) (hfits : offset + m.delta ≤ maxOffset) :
    (m.adjust offset : Int) = offset + m.delta := by
  rw [adjust, if_neg (by omega), Int.emod_eq_of_lt hnonneg (by omega),
    Int.toNat_of_nonneg hnonneg]

/-- A range that lies before or after the region is adjusted at both ends. -/
theorem adjustSpan?_of_apart (h : s.stop ≤ m.start ∨ m.stop ≤ s.start) :
    m.adjustSpan? s = some ⟨m.adjust s.start, m.adjust s.stop⟩ := by
  have hnot : ¬ m.intersects s := by
    simp only [intersects, Bool.and_eq_true, decide_eq_true_eq]
    omega
  rw [adjustSpan?, if_neg hnot]

/-- Any other range is given up. -/
theorem adjustSpan?_of_meets (hstart : m.start < s.stop) (hstop : s.start < m.stop) :
    m.adjustSpan? s = none := by
  have hmeets : m.intersects s := by
    simp only [intersects, Bool.and_eq_true, decide_eq_true_eq]
    exact ⟨hstart, hstop⟩
  rw [adjustSpan?, if_pos hmeets]

/-- A range behind the region holds the same bytes where it has moved to. -/
theorem bytesIn_moved {batch : EditBatch} {moved : Span} {old new : String}
    (horder : InOrder batch.edits) (hm : batch.change? = some m) (hafter : m.stop ≤ s.start)
    (hstart : (moved.start : Int) = s.start + m.delta)
    (hstop : (moved.stop : Int) = s.stop + m.delta) (hnew : batch.apply old = .ok new) :
    moved.bytesIn new = s.bytesIn old := by
  refine Span.bytesIn_eq (by simp only [Span.length]; omega) fun i _ => ?_
  have hends : ∀ e ∈ batch.edits, e.stop ≤ s.start + i := fun e he => by
    have hcovers := covers_of_covering? hm he
    omega
  have hkept : ∀ e ∈ batch.edits, ¬ e.Removes (s.start + i) := fun e he hremoves => by
    have hend := hends e he
    have hlt := hremoves.2
    omega
  obtain ⟨place, hplace, hbyte⟩ := EditBatch.getElem?_of_apply horder hnew hkept
  rw [Edit.shift_of_le hends, ← delta_of_covering? hm] at hplace
  obtain rfl : place = moved.start + i := by omega
  exact hbyte

/-- What a change that covers a batch does to a range that holds a byte. In front of the region it
stays, unless the batch does nothing but insert where it ends: then its end moves behind the inserted
text. Behind the region it moves as a whole, and keeps its bytes in every text the batch applies to.
Anywhere else it is given up. -/
theorem adjustSpan?_cases {batch : EditBatch} (h : EditBatch.ofEdits edits = .ok batch)
    (hne : edits ≠ []) :
    ∃ m, batch.change? = some m ∧ ∀ s : Span, s.start < s.stop →
      (m.isBefore s → (∃ e ∈ edits, e.offset ≠ s.stop ∨ e.removed ≠ 0) →
        m.adjustSpan? s = some s) ∧
      (m.isBefore s → (∀ e ∈ edits, e.offset = s.stop ∧ e.removed = 0) →
        s.stop + m.delta ≤ maxOffset → ∃ moved, m.adjustSpan? s = some moved ∧
          moved.start = s.start ∧ (moved.stop : Int) = s.stop + m.delta) ∧
      (m.isAfter s → s.stop + m.delta ≤ maxOffset → ∃ moved, m.adjustSpan? s = some moved ∧
        (moved.start : Int) = s.start + m.delta ∧ (moved.stop : Int) = s.stop + m.delta ∧
        ∀ old new, batch.apply old = .ok new → moved.bytesIn new = s.bytesIn old) ∧
      (¬ m.isBefore s → ¬ m.isAfter s → m.adjustSpan? s = none) := by
  obtain ⟨-, horder⟩ := EditBatch.inOrder_of_ofEdits h
  have hmem {e : Edit} : e ∈ batch.edits ↔ e ∈ edits := EditBatch.mem_of_ofEdits h
  obtain ⟨m, hm⟩ : ∃ m, batch.change? = some m := by
    obtain ⟨e, he⟩ := List.exists_mem_of_ne_nil edits hne
    exact exists_covering?_of_mem (hmem.2 he)
  obtain ⟨hregion, hnonneg⟩ := start_le_of_covering? horder hm
  refine ⟨m, hm, fun s hs => ?_⟩
  simp only [isBefore, isAfter, decide_eq_true_eq]
  refine ⟨fun hbefore hother => ?_, fun hbefore hall hfits => ?_, fun hafter hfits => ?_,
    fun hbefore hafter => adjustSpan?_of_meets (by omega) (by omega)⟩
  · obtain ⟨e, he, hother⟩ := hother
    have hcovers := covers_of_covering? hm (hmem.2 he)
    have hstop := Edit.stop_eq (horder.fits e (hmem.2 he))
    rw [adjustSpan?_of_apart (.inl hbefore), adjust_of_lt (by omega), adjust_of_lt (by omega)]
  · -- All edits are at the end of the range, and so is the region.
    obtain ⟨last, hlast, hlastStop⟩ := exists_stop_of_covering? hm
    obtain ⟨hoffset, hremoved⟩ := hall last (hmem.1 hlast)
    have hstop := Edit.stop_eq (horder.fits last hlast)
    refine ⟨_, adjustSpan?_of_apart (.inl hbefore), adjust_of_lt (by omega), ?_⟩
    exact adjust_of_le (by omega) (by omega) (by omega) hfits
  · have hstart : (m.adjust s.start : Int) = s.start + m.delta :=
      adjust_of_le (by omega) hafter (by omega) (by omega)
    have hstop : (m.adjust s.stop : Int) = s.stop + m.delta :=
      adjust_of_le (by omega) (by omega) (by omega) hfits
    exact ⟨_, adjustSpan?_of_apart (.inr hafter), hstart, hstop, fun old new hnew =>
      bytesIn_moved horder hm hafter hstart hstop hnew⟩

/-- A replacement, and a deletion in front of it. -/
def twoEdits : List Edit :=
  [⟨3, 1, "xyz"⟩, ⟨1, 1, ""⟩]

theorem adjustSpan?_cases_twoEdits :
    ∃ batch m, EditBatch.ofEdits twoEdits = .ok batch ∧ batch.change? = some m ∧
      batch.apply "abcdef" = .ok "acxyzef" ∧ m.adjustSpan? ⟨0, 1⟩ = some ⟨0, 1⟩ ∧
      (∃ moved, m.adjustSpan? ⟨4, 6⟩ = some moved ∧
        moved.bytesIn "acxyzef" = Span.bytesIn ⟨4, 6⟩ "abcdef") ∧
      m.adjustSpan? ⟨2, 3⟩ = none := by
  have hbatch : EditBatch.ofEdits twoEdits = .ok ⟨[⟨1, 1, ""⟩, ⟨3, 1, "xyz"⟩]⟩ := by cbv
  have happly : EditBatch.apply ⟨[⟨1, 1, ""⟩, ⟨3, 1, "xyz"⟩]⟩ "abcdef" = .ok "acxyzef" := by cbv
  obtain ⟨m, hm, hcases⟩ := adjustSpan?_cases hbatch (by decide)
  obtain rfl : ⟨1, 4, 1⟩ = m := Option.some.inj (Eq.trans (by decide) hm)
  obtain ⟨hbefore, -⟩ := hcases ⟨0, 1⟩ (by decide)
  obtain ⟨-, -, hafter, -⟩ := hcases ⟨4, 6⟩ (by decide)
  obtain ⟨-, -, -, hmeets⟩ := hcases ⟨2, 3⟩ (by decide)
  obtain ⟨moved, hmoved, -, -, hbytes⟩ := hafter (by decide) (by decide)
  exact ⟨_, _, hbatch, hm, happly, hbefore (by decide) ⟨_, List.mem_cons_self, by decide⟩,
    ⟨moved, hmoved, hbytes _ _ happly⟩, hmeets (by decide) (by decide)⟩

/-- A range that ends where a batch inserts lies before the region and does not stay. -/
theorem adjustSpan?_ne_of_insertion :
    EditBatch.ofEdits [⟨2, 0, "x"⟩] = .ok ⟨[⟨2, 0, "x"⟩]⟩ ∧
      EditBatch.change? ⟨[⟨2, 0, "x"⟩]⟩ = some ⟨2, 2, 1⟩ ∧
      isBefore ⟨2, 2, 1⟩ ⟨0, 2⟩ ∧ adjustSpan? ⟨2, 2, 1⟩ ⟨0, 2⟩ = some ⟨0, 3⟩ := by
  refine ⟨by cbv, by decide, by decide, by decide⟩

end Change

end ScriptTree
