import Mathlib
import ScriptTree.Proofs.Encoding
import ScriptTree.Proofs.Reordering
import ScriptTree.Proofs.Replacements

/-!
# Where the bytes of a text go

A byte that no edit of a batch removes moves by what the edits up to it add: those that begin before
it, and the insertions at its own offset, which end up in front of it.
-/

namespace ScriptTree

/-- The bytes of a text. -/
def Text.bytes (text : String) : List UInt8 :=
  text.toUTF8.data.toList

/-- As many bytes as characters take. -/
@[simp]
theorem Text.Utf8.length_encode (cs : List Char) : (encode cs).length = byteLength cs := by
  induction cs with
  | nil => rfl
  | cons c cs ih => simp [byteLength, ih]

/-- The bytes of the first characters come first. -/
theorem Text.Utf8.getElem?_encode_of_lt {xs : List Char} (ys : List Char) {i : Nat}
    (h : i < byteLength xs) : (encode (xs ++ ys))[i]? = (encode xs)[i]? := by
  rw [encode_append, List.getElem?_append_left (by rwa [length_encode])]

/-- Behind them come those of the other characters. -/
theorem Text.Utf8.getElem?_encode_add (xs ys : List Char) (i : Nat) :
    (encode (xs ++ ys))[byteLength xs + i]? = (encode ys)[i]? := by
  rw [encode_append, ← length_encode xs, List.getElem?_append_right (Nat.le_add_right ..),
    Nat.add_sub_cancel_left]

/-- Where a part of the text is replaced, the bytes behind it follow the new part as they followed the
old one. -/
theorem Text.Utf8.getElem?_encode_replaced (kept : List Char) {gone inserted rest rest' : List Char}
    {i j : Nat} (h : (encode rest')[j]? = (encode rest)[i]?) :
    (encode (kept ++ inserted ++ rest'))[byteLength kept + byteLength inserted + j]? =
      (encode (kept ++ (gone ++ rest)))[byteLength kept + byteLength gone + i]? := by
  rw [← byteLength_append, getElem?_encode_add, ← List.append_assoc, ← byteLength_append,
    getElem?_encode_add, h]

/-- There are as many bytes as the text is long. -/
@[simp]
theorem Text.length_bytes (text : String) : (bytes text).length = text.utf8ByteSize := by
  rw [bytes, Utf8.toUTF8_eq_encode, Utf8.length_encode, byteLength_toList]

namespace Edit

/-- Whether an edit removes the byte at an offset. -/
def Removes (e : Edit) (offset : Nat) : Prop :=
  e.offset ≤ offset ∧ offset < e.stop

instance (e : Edit) (offset : Nat) : Decidable (e.Removes offset) :=
  inferInstanceAs (Decidable (_ ∧ _))

/-- An edit that removes nothing makes the text grow by what it inserts. -/
theorem delta_of_removed_eq_zero {e : Edit} (h : e.removed = 0) : e.delta = e.newLength := by
  simp [delta, h]

/-- Of several edits, how far those that end at or before an offset move what is there. -/
def shift (edits : List Edit) (offset : Nat) : Int :=
  totalDelta (edits.filter fun e => e.stop ≤ offset)

theorem shift_cons (e : Edit) (edits : List Edit) (offset : Nat) :
    shift (e :: edits) offset =
      if e.stop ≤ offset then e.delta + shift edits offset else shift edits offset := by
  by_cases h : e.stop ≤ offset <;> simp [shift, totalDelta, h]

/-- Edits that end behind an offset do not move it. -/
theorem shift_of_lt {edits : List Edit} {offset : Nat} (h : ∀ e ∈ edits, offset < e.stop) :
    shift edits offset = 0 := by
  have hnone : edits.filter (fun e => e.stop ≤ offset) = [] :=
    List.filter_eq_nil_iff.2 fun e he => by simpa using h e he
  rw [shift, hnone, totalDelta]

/-- Edits that end at or before an offset all move it. -/
theorem shift_of_le {edits : List Edit} {offset : Nat} (h : ∀ e ∈ edits, e.stop ≤ offset) :
    shift edits offset = totalDelta edits := by
  have hall : edits.filter (fun e => e.stop ≤ offset) = edits :=
    List.filter_eq_self.2 fun e he => decide_eq_true (h e he)
  rw [shift, hall]

end Edit

namespace EditBatch

variable {edits : List Edit} {text old new : String} {front rest done : List Char} {offset : Nat}

/-- How many bytes the insertions at an offset put in front of the byte there. -/
def insertedAt (batch : EditBatch) (offset : Nat) : Nat :=
  ((insertionsAt offset batch.edits).map Edit.newLength).sum

/-- The edits that end at or before an offset are those that begin before it and the insertions
there. -/
theorem shift_eq_deltaBefore_add {batch : EditBatch}
    (hfits : ∀ e ∈ batch.edits, e.offset + e.removed ≤ maxOffset) :
    Edit.shift batch.edits offset = batch.deltaBefore offset + batch.insertedAt offset := by
  obtain ⟨edits⟩ := batch
  induction edits with
  | nil => rfl
  | cons e rest ih =>
    obtain ⟨hfit, hfits⟩ := List.forall_mem_cons.1 hfits
    have hstop := Edit.stop_eq hfit
    have hrest := ih hfits
    simp only [deltaBefore, insertedAt] at hrest ⊢
    rw [Edit.shift_cons, insertionsAt_cons, hrest]
    by_cases hbefore : e.stop ≤ offset ∧ e.offset < offset
    · have hnot : ¬ (e.offset = offset ∧ e.removed = 0) := by omega
      rw [if_pos hbefore.1, if_neg hnot, List.filter_cons_of_pos (by simpa using hbefore),
        Edit.totalDelta]
      omega
    rw [List.filter_cons_of_neg (by simpa using hbefore)]
    by_cases hthere : e.offset = offset ∧ e.removed = 0
    · have hdelta := Edit.delta_of_removed_eq_zero hthere.2
      rw [if_pos (by omega), if_pos hthere, List.map_cons, List.sum_cons]
      push_cast
      omega
    · rw [if_neg (by omega), if_neg hthere]

/-- Where the first edit begins behind an offset, every edit ends behind it. -/
theorem lt_stop_of_lt_offset {e : Edit} (horder : InOrder (e :: edits)) (h : offset < e.offset) :
    ∀ other ∈ e :: edits, offset < other.stop := by
  intro other hother
  have hstart : e.offset ≤ other.offset := by
    rcases List.mem_cons.1 hother with rfl | hother
    · exact Nat.le_refl _
    · exact (Edit.offset_le_stop (horder.fits e List.mem_cons_self)).trans
        ((List.pairwise_cons.1 horder.apart).1 other hother)
  have hstop := Edit.offset_le_stop (horder.fits other hother)
  omega

/-- Behind a cursor, a byte that no edit removes is found again as many bytes further as the edits up
to it add. -/
theorem getElem?_of_applyFrom (horder : InOrder edits) (htext : text.toList = front ++ rest)
    (hcursor : ∀ e ∈ edits, byteLength front ≤ e.offset)
    (h : applyFrom text.utf8ByteSize (byteLength front) rest edits = .ok done)
    (hbehind : byteLength front ≤ offset) (hkept : ∀ e ∈ edits, ¬ e.Removes offset) :
    ∃ place : Nat, (byteLength front + place : Int) = offset + Edit.shift edits offset ∧
      (Text.Utf8.encode done)[place]? = (Text.Utf8.encode rest)[offset - byteLength front]? := by
  induction edits generalizing front rest done with
  | nil =>
    obtain rfl : rest = done := Except.ok.inj h
    refine ⟨offset - byteLength front, ?_, rfl⟩
    simp only [Edit.shift, List.filter_nil, Edit.totalDelta]
    omega
  | cons e more ih =>
    obtain ⟨hfits, hmore, hlater⟩ := inOrder_cons horder
    obtain ⟨hnot, hkeptMore⟩ := List.forall_mem_cons.1 hkept
    obtain ⟨kept, gone, left, doneLeft, rfl, hfront, hgone, hleft, rfl⟩ :=
      exists_pieces_of_applyFrom hfits (hcursor e List.mem_cons_self) h
    obtain ⟨htext', hstop⟩ := toList_eq_behind htext hfront hgone
    have hend := Edit.stop_eq hfits
    rw [Edit.Removes] at hnot
    by_cases hbefore : offset < e.offset
    · -- The byte is copied in front of all edits.
      have hin : offset - byteLength front < byteLength kept := by omega
      refine ⟨offset - byteLength front, ?_, ?_⟩
      · rw [Edit.shift_of_lt (lt_stop_of_lt_offset horder hbefore)]
        omega
      · rw [List.append_assoc, Text.Utf8.getElem?_encode_of_lt _ hin,
          Text.Utf8.getElem?_encode_of_lt _ hin]
    · -- The byte stands behind the edit, where the rest is put together from the later ones.
      obtain ⟨place, hplace, hbyte⟩ := ih hmore htext' (by rwa [hstop]) (by rw [hstop, hleft])
        (by omega) hkeptMore
      rw [hstop] at hplace hbyte
      have hinserted : byteLength e.inserted.toList = e.newLength := byteLength_toList _
      have hold : offset - byteLength front =
          byteLength kept + byteLength gone + (offset - e.stop) := by
        omega
      refine ⟨byteLength kept + byteLength e.inserted.toList + place, ?_, ?_⟩
      · rw [Edit.shift_cons, if_pos (by omega), Edit.delta]
        push_cast
        omega
      · rw [hold]
        exact Text.Utf8.getElem?_encode_replaced kept hbyte

/-- A byte that a batch does not remove is found again as many bytes further as the edits up to it
add. -/
theorem getElem?_of_apply {batch : EditBatch} (horder : InOrder batch.edits)
    (hnew : batch.apply old = .ok new) (hkept : ∀ e ∈ batch.edits, ¬ e.Removes offset) :
    ∃ place : Nat, (place : Int) = offset + Edit.shift batch.edits offset ∧
      (Text.bytes new)[place]? = (Text.bytes old)[offset]? := by
  have htext : old.toList = [] ++ old.toList := rfl
  obtain ⟨place, hplace, hbyte⟩ := getElem?_of_applyFrom horder htext
    (fun e _ => Nat.zero_le e.offset) (apply_eq_ok_iff.1 hnew) (Nat.zero_le offset) hkept
  refine ⟨place, by simpa [byteLength] using hplace, ?_⟩
  rw [Text.bytes, Text.bytes, Text.Utf8.toUTF8_eq_encode, Text.Utf8.toUTF8_eq_encode, hbyte]
  rfl

/-- A byte of a text that no edit of a batch removes is found again in the new text, at its offset
moved by the edits that end at or before it. Those that begin before it are counted by
`deltaBefore`; what is inserted at the offset itself comes on top. -/
theorem byte_survives {edits : List Edit} {batch : EditBatch} (h : ofEdits edits = .ok batch)
    (hnew : batch.apply old = .ok new) (hoffset : offset < old.utf8ByteSize)
    (hkept : ∀ e ∈ edits, ¬ e.Removes offset) :
    ∃ (place : Nat) (byte : UInt8),
      (place : Int) = offset + batch.deltaBefore offset + batch.insertedAt offset ∧
      (Text.bytes old)[offset]? = some byte ∧ (Text.bytes new)[place]? = some byte := by
  obtain ⟨-, horder⟩ := inOrder_of_ofEdits h
  have hkept' : ∀ e ∈ batch.edits, ¬ e.Removes offset :=
    fun e he => hkept e ((mem_of_ofEdits h).1 he)
  obtain ⟨place, hplace, hbyte⟩ := getElem?_of_apply horder hnew hkept'
  rw [shift_eq_deltaBefore_add horder.fits] at hplace
  have hin : offset < (Text.bytes old).length := by rwa [Text.length_bytes]
  have hold := List.getElem?_eq_getElem hin
  exact ⟨place, _, by omega, hold, hbyte.trans hold⟩

/-- A replacement, an insertion behind it, an insertion in front of a character of two bytes, and a
deletion. -/
def scatteredEdits : List Edit :=
  [⟨2, 0, "u"⟩, ⟨0, 1, "xyz"⟩, ⟨1, 0, "é"⟩, ⟨4, 1, ""⟩]

/-- The first byte of `é` moves by the edits in front of it and by the insertion at its offset. -/
theorem byte_survives_scatteredEdits :
    ∃ batch, ofEdits scatteredEdits = .ok batch ∧ batch.apply "abéc" = .ok "xyzébué" ∧
      ∃ (place : Nat) (byte : UInt8),
        (place : Int) = 2 + batch.deltaBefore 2 + batch.insertedAt 2 ∧
        (Text.bytes "abéc")[2]? = some byte ∧ (Text.bytes "xyzébué")[place]? = some byte := by
  have hbatch : ofEdits scatteredEdits =
      .ok ⟨[⟨0, 1, "xyz"⟩, ⟨1, 0, "é"⟩, ⟨2, 0, "u"⟩, ⟨4, 1, ""⟩]⟩ := by cbv
  have happly : apply ⟨[⟨0, 1, "xyz"⟩, ⟨1, 0, "é"⟩, ⟨2, 0, "u"⟩, ⟨4, 1, ""⟩]⟩ "abéc" =
      .ok "xyzébué" := by cbv
  have hkept : ∀ e ∈ scatteredEdits, ¬ e.Removes 2 := by decide
  exact ⟨_, hbatch, happly, byte_survives hbatch happly (by decide) hkept⟩

/-- An insertion moves the byte at its offset, for which `deltaBefore` does not count it. -/
theorem deltaBefore_misses_insertion :
    ofEdits [⟨0, 0, "x"⟩] = .ok ⟨[⟨0, 0, "x"⟩]⟩ ∧ apply ⟨[⟨0, 0, "x"⟩]⟩ "a" = .ok "xa" ∧
      (∀ e ∈ [(⟨0, 0, "x"⟩ : Edit)], ¬ e.Removes 0) ∧
      deltaBefore ⟨[⟨0, 0, "x"⟩]⟩ 0 = 0 ∧ (Text.bytes "xa")[0]? ≠ (Text.bytes "a")[0]? := by
  refine ⟨by cbv, by cbv, by decide, by decide, by decide⟩

end EditBatch

end ScriptTree
