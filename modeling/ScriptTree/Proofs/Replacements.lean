import Mathlib
import ScriptTree.Proofs.Edits

/-!
# A batch of edits is replacement after replacement

One pass over a text with a cursor does what replacing the range of each edit does, from the last edit
to the first, so that no replacement moves the range of one that is still to come. The edits are in
order and apart, so each part that the pass copies begins at or before its end.
-/

namespace ScriptTree

/-- Where a text can be cut behind a beginning of it is where the rest can be cut. -/
theorem isCharBoundary_append {text : String} {front rest : List Char}
    (htext : text.toList = front ++ rest) (n : Nat) :
    isCharBoundary text (byteLength front + n) = (splitBytes n rest).isSome := by
  rw [isCharBoundary, htext, splitBytes_append, Option.isSome_map]

/-- A slice is a part of the text between its offsets. -/
theorem slice?_eq_some {text : String} (front part back : List Char)
    (htext : text.toList = front ++ (part ++ back)) :
    slice? text (byteLength front) (byteLength front + byteLength part) =
      some (String.ofList part) := by
  have hfront : splitBytes (byteLength front) text.toList = some (front, part ++ back) :=
    splitBytes_eq_some_iff.2 ⟨htext, rfl⟩
  have hpart : splitBytes (byteLength part) (part ++ back) = some (part, back) :=
    splitBytes_eq_some_iff.2 ⟨rfl, rfl⟩
  simp [slice?, hfront, hpart]

namespace Edit

/-- Whether an edit is one of a text: it ends within the text, which can be cut at both its ends. -/
def IsOn (e : Edit) (text : String) : Prop :=
  e.stop ≤ text.utf8ByteSize ∧ isCharBoundary text e.offset ∧ isCharBoundary text e.stop

/-- Replace the range of one edit. -/
def replaceIn? (e : Edit) (text : String) : Option String := do
  let front ← slice? text 0 e.offset
  let back ← slice? text e.stop text.utf8ByteSize
  return front ++ e.inserted ++ back

/-- What stands on both sides of the range stays. -/
theorem replaceIn?_eq {e : Edit} {text : String} {front gone back : List Char}
    (htext : text.toList = front ++ (gone ++ back)) (hoffset : byteLength front = e.offset)
    (hstop : e.offset + byteLength gone = e.stop) :
    e.replaceIn? text = some (String.ofList (front ++ (e.inserted.toList ++ back))) := by
  have hfront : slice? text 0 e.offset = some (String.ofList front) := by
    have hslice := slice?_eq_some [] front (gone ++ back) htext
    simpa [byteLength, hoffset] using hslice
  have hback : slice? text e.stop text.utf8ByteSize = some (String.ofList back) := by
    have htext' : text.toList = front ++ gone ++ (back ++ []) := by
      rw [htext, List.append_nil, List.append_assoc]
    have hslice := slice?_eq_some (front ++ gone) back [] htext'
    have hsize : text.utf8ByteSize = byteLength (front ++ gone) + byteLength back := by
      rw [← byteLength_toList, htext, byteLength_append, byteLength_append, byteLength_append,
        Nat.add_assoc]
    rwa [← hsize, byteLength_append, hoffset, hstop] at hslice
  simp [replaceIn?, hfront, hback, String.append_assoc]

/-- The pieces of a text at an edit of it: the text before the edit that is still to be copied, the
text that it removes and the text behind. -/
theorem IsOn.exists_pieces {e : Edit} {text : String} {front rest : List Char} (h : e.IsOn text)
    (hfits : e.offset + e.removed ≤ maxOffset) (htext : text.toList = front ++ rest)
    (hcursor : byteLength front ≤ e.offset) :
    ∃ kept gone left, rest = kept ++ (gone ++ left) ∧ byteLength front + byteLength kept = e.offset ∧
      e.offset + byteLength gone = e.stop := by
  obtain ⟨-, hoffset, hstop⟩ := h
  have hend := stop_eq hfits
  rw [← Nat.add_sub_cancel' hcursor, isCharBoundary_append htext] at hoffset
  obtain ⟨⟨kept, after⟩, hkept⟩ := Option.isSome_iff_exists.1 hoffset
  obtain ⟨rfl, hlength⟩ := splitBytes_eq_some_iff.1 hkept
  have hsum : e.stop = byteLength (front ++ kept) + (e.stop - e.offset) := by
    rw [byteLength_append]
    omega
  rw [hsum, isCharBoundary_append (by rw [htext, List.append_assoc])] at hstop
  obtain ⟨⟨gone, left⟩, hgone⟩ := Option.isSome_iff_exists.1 hstop
  obtain ⟨rfl, hlength'⟩ := splitBytes_eq_some_iff.1 hgone
  exact ⟨kept, gone, left, rfl, by omega, by omega⟩

end Edit

namespace EditBatch

variable {e : Edit} {more edits : List Edit} {text : String} {front rest kept gone left : List Char}

/-! ### One edit -/

/-- Copying an edit copies the slice before it, and goes on behind what is removed. -/
theorem copyFrom?_pieces (hon : e.IsOn text)
    (htext : text.toList = front ++ (kept ++ (gone ++ left)))
    (hkept : byteLength front + byteLength kept = e.offset) (out : String) :
    copyFrom? text (byteLength front) out (e :: more) =
      copyFrom? text e.stop (out ++ String.ofList kept ++ e.inserted) more := by
  obtain ⟨hle, hoffset, hstop⟩ := hon
  have hslice := slice?_eq_some front kept (gone ++ left) htext
  rw [hkept] at hslice
  rw [copyFrom?, if_neg (Nat.not_lt.2 hle)]
  simp [hoffset, hstop, hslice]

/-- An edit that is none of the text is refused for the same reason by both. -/
theorem refused_of_not_isOn (hnot : ¬ e.IsOn text) (hfits : e.offset + e.removed ≤ maxOffset)
    (htext : text.toList = front ++ rest) (hcursor : byteLength front ≤ e.offset)
    (more : List Edit) (out : String) :
    ∃ error, applyFrom text.utf8ByteSize (byteLength front) rest (e :: more) = .error error ∧
      copyFrom? text (byteLength front) out (e :: more) = some (.error error) := by
  have hend := Edit.stop_eq hfits
  rw [applyFrom, copyFrom?]
  by_cases hlength : text.utf8ByteSize < e.stop
  · rw [if_pos hlength, if_pos hlength]
    exact ⟨_, rfl, rfl⟩
  rw [if_neg hlength, if_neg hlength]
  have hoffset := isCharBoundary_append htext (e.offset - byteLength front)
  rw [Nat.add_sub_cancel' hcursor] at hoffset
  cases hkept : splitBytes (e.offset - byteLength front) rest with
  | none =>
    rw [hkept] at hoffset
    exact ⟨.notCharBoundary e.offset, rfl, by simp [hoffset]⟩
  | some split =>
    obtain ⟨kept, after⟩ := split
    rw [hkept] at hoffset
    obtain ⟨rfl, hsize⟩ := splitBytes_eq_some_iff.1 hkept
    have hstop : isCharBoundary text (byteLength (front ++ kept) + (e.stop - e.offset)) =
        (splitBytes (e.stop - e.offset) after).isSome :=
      isCharBoundary_append (by rw [htext, List.append_assoc]) _
    rw [byteLength_append, hsize, Nat.add_sub_cancel' hcursor,
      Nat.add_sub_cancel' (by omega : e.offset ≤ e.stop)] at hstop
    cases hgone : splitBytes (e.stop - e.offset) after with
    | none =>
      rw [hgone] at hstop
      refine ⟨.notCharBoundary e.stop, ?_, by simp [hoffset, hstop]⟩
      simp [hgone]
    | some split =>
      rw [hgone] at hstop
      exact absurd ⟨Nat.not_lt.1 hlength, by simpa using hoffset, by simpa using hstop⟩ hnot

/-! ### Runs of edits -/

/-- Replace the ranges of edits one after another, from the last to the first. -/
def replaceBackward? (edits : List Edit) (text : String) : Option String :=
  edits.foldr (fun e new => new.bind e.replaceIn?) (some text)

/-- What is still to be copied behind an edit is the rest of the text. -/
theorem toList_eq_behind (htext : text.toList = front ++ (kept ++ (gone ++ left)))
    (hkept : byteLength front + byteLength kept = e.offset)
    (hgone : e.offset + byteLength gone = e.stop) :
    text.toList = front ++ kept ++ gone ++ left ∧ byteLength (front ++ kept ++ gone) = e.stop := by
  refine ⟨by rw [htext, List.append_assoc, List.append_assoc], ?_⟩
  rw [byteLength_append, byteLength_append, hkept, hgone]

/-- The pass with a cursor copies parts of the text only, and does what applying the edits does. -/
theorem copyFrom?_eq (horder : InOrder edits) (htext : text.toList = front ++ rest)
    (hcursor : ∀ e ∈ edits, byteLength front ≤ e.offset) (out : String) :
    copyFrom? text (byteLength front) out edits =
      some ((applyFrom text.utf8ByteSize (byteLength front) rest edits).map fun done =>
        out ++ String.ofList done) := by
  induction edits generalizing front rest out with
  | nil =>
    have htext' : text.toList = front ++ (rest ++ []) := by rw [htext, List.append_nil]
    have hslice := slice?_eq_some front rest [] htext'
    have hsize : text.utf8ByteSize = byteLength front + byteLength rest := by
      rw [← byteLength_toList, htext, byteLength_append]
    rw [copyFrom?, hsize, hslice]
    rfl
  | cons e more ih =>
    obtain ⟨hfits, hmore, hbehind⟩ := inOrder_cons horder
    have hle := hcursor e List.mem_cons_self
    by_cases hon : e.IsOn text
    · obtain ⟨kept, gone, left, rfl, hkept, hgone⟩ := hon.exists_pieces hfits htext hle
      obtain ⟨htext', hstop⟩ := toList_eq_behind htext hkept hgone
      have hrest := ih hmore htext' (by rwa [hstop]) (out ++ String.ofList kept ++ e.inserted)
      rw [hstop] at hrest
      rw [copyFrom?_pieces hon htext hkept, hrest, applyFrom_pieces hon.1 hkept hgone]
      cases applyFrom text.utf8ByteSize e.stop left more with
      | error error => rfl
      | ok done => simp [Except.map, String.append_assoc]
    · obtain ⟨error, happly, hcopy⟩ := refused_of_not_isOn hon hfits htext hle more out
      rw [happly, hcopy]
      rfl

/-- Edits are applied exactly if they are all edits of the text. -/
theorem exists_applyFrom_iff (horder : InOrder edits) (htext : text.toList = front ++ rest)
    (hcursor : ∀ e ∈ edits, byteLength front ≤ e.offset) :
    (∃ done, applyFrom text.utf8ByteSize (byteLength front) rest edits = .ok done) ↔
      ∀ e ∈ edits, e.IsOn text := by
  induction edits generalizing front rest with
  | nil => simp [applyFrom]
  | cons e more ih =>
    obtain ⟨hfits, hmore, hbehind⟩ := inOrder_cons horder
    have hle := hcursor e List.mem_cons_self
    rw [List.forall_mem_cons]
    by_cases hon : e.IsOn text
    · obtain ⟨kept, gone, left, rfl, hkept, hgone⟩ := hon.exists_pieces hfits htext hle
      obtain ⟨htext', hstop⟩ := toList_eq_behind htext hkept hgone
      have hrest := ih hmore htext' (by rwa [hstop])
      rw [hstop] at hrest
      rw [applyFrom_pieces hon.1 hkept hgone, ← hrest]
      cases applyFrom text.utf8ByteSize e.stop left more with
      | error error => simp [Except.map]
      | ok done => simp [Except.map, hon]
    · obtain ⟨error, happly, -⟩ := refused_of_not_isOn hon hfits htext hle more ""
      simp [happly, hon]

/-- What edits make of a text is what replacing their ranges from the last to the first makes of it,
and its length is the one that the edits announce. -/
theorem replaceBackward?_eq (horder : InOrder edits) (htext : text.toList = front ++ rest)
    (hcursor : ∀ e ∈ edits, byteLength front ≤ e.offset) {done : List Char}
    (h : applyFrom text.utf8ByteSize (byteLength front) rest edits = .ok done) :
    replaceBackward? edits text = some (String.ofList (front ++ done)) ∧
      (byteLength done : Int) = byteLength rest + Edit.totalDelta edits := by
  induction edits generalizing front rest done with
  | nil =>
    obtain rfl : rest = done := Except.ok.inj h
    rw [← htext, String.ofList_toList]
    exact ⟨rfl, by simp [Edit.totalDelta]⟩
  | cons e more ih =>
    obtain ⟨hfits, hmore, hbehind⟩ := inOrder_cons horder
    obtain ⟨kept, gone, left, doneLeft, rfl, hkept, hgone, hleft, rfl⟩ :=
      exists_pieces_of_applyFrom hfits (hcursor e List.mem_cons_self) h
    obtain ⟨htext', hstop⟩ := toList_eq_behind htext hkept hgone
    obtain ⟨hreplaced, hsize⟩ := ih hmore htext' (by rwa [hstop]) (by rw [hstop, hleft])
    have hfirst : e.replaceIn? (String.ofList (front ++ kept ++ gone ++ doneLeft)) =
        some (String.ofList (front ++ kept ++ (e.inserted.toList ++ doneLeft))) :=
      Edit.replaceIn?_eq (by simp) (by rw [byteLength_append, hkept]) hgone
    constructor
    · rw [replaceBackward?] at hreplaced ⊢
      rw [List.foldr_cons, hreplaced, Option.bind_some, hfirst]
      simp
    · have hend := Edit.stop_eq hfits
      rw [Edit.totalDelta, Edit.delta, Edit.newLength, ← byteLength_toList]
      simp only [byteLength_append]
      omega

/-- Applying a batch succeeds exactly if all its edits are edits of the text, and then does what
replacing their ranges does, from the last in the order of the offsets to the first. The text grows by
what the edits announce. All that is copied on the way is a part of the text. -/
theorem apply_eq_replacements {edits : List Edit} {batch : EditBatch}
    (h : ofEdits edits = .ok batch) (text : String) :
    ((∃ new, batch.apply text = .ok new) ↔ ∀ e ∈ edits, e.stop ≤ text.utf8ByteSize ∧
      isCharBoundary text e.offset ∧ isCharBoundary text e.stop) ∧
    (∀ new, batch.apply text = .ok new → replaceBackward? (sort edits) text = some new ∧
      (new.utf8ByteSize : Int) = text.utf8ByteSize + batch.delta) ∧
    batch.copy? text = some (batch.apply text) := by
  obtain ⟨hsort, horder⟩ := inOrder_of_ofEdits h
  have htext : text.toList = [] ++ text.toList := rfl
  have hcursor : ∀ e ∈ batch.edits, byteLength [] ≤ e.offset := fun e _ => Nat.zero_le _
  have hmem (e : Edit) : e ∈ batch.edits ↔ e ∈ edits := by rw [hsort, sort, List.mem_mergeSort]
  refine ⟨?_, fun new hnew => ?_, ?_⟩
  · have hiff := exists_applyFrom_iff horder htext hcursor
    simp only [hmem, Edit.IsOn] at hiff
    rw [← hiff]
    constructor
    · rintro ⟨new, hnew⟩
      exact ⟨new.toList, apply_eq_ok_iff.1 hnew⟩
    · rintro ⟨done, hdone⟩
      refine ⟨String.ofList done, apply_eq_ok_iff.2 ?_⟩
      rwa [String.toList_ofList]
  · obtain ⟨hreplaced, hsize⟩ :=
      replaceBackward?_eq horder htext hcursor (apply_eq_ok_iff.1 hnew)
    rw [hsort] at hreplaced
    rw [List.nil_append, String.ofList_toList] at hreplaced
    rw [byteLength_toList, byteLength_toList] at hsize
    exact ⟨hreplaced, hsize⟩
  · have hcopy := copyFrom?_eq horder htext hcursor ""
    rw [copy?, apply]
    refine hcopy.trans (congrArg some ?_)
    simp only [String.empty_append]
    rfl

/-- A replacement, and two edits at one offset, in no order. -/
def threeEdits : List Edit :=
  [⟨3, 1, "b"⟩, ⟨0, 0, "é"⟩, ⟨0, 2, "x"⟩]

theorem apply_eq_replacements_threeEdits :
    ∃ batch, ofEdits threeEdits = .ok batch ∧
      replaceBackward? (sort threeEdits) "é c" = some "éx b" ∧
      batch.copy? "é c" = some (.ok "éx b") := by
  have hbatch : ofEdits threeEdits = .ok ⟨[⟨0, 0, "é"⟩, ⟨0, 2, "x"⟩, ⟨3, 1, "b"⟩]⟩ := by cbv
  have happly : apply ⟨[⟨0, 0, "é"⟩, ⟨0, 2, "x"⟩, ⟨3, 1, "b"⟩]⟩ "é c" = .ok "éx b" := by cbv
  obtain ⟨-, hreplaced, hcopied⟩ := apply_eq_replacements hbatch "é c"
  exact ⟨_, hbatch, (hreplaced _ happly).1, hcopied.trans (congrArg some happly)⟩

end EditBatch

end ScriptTree
