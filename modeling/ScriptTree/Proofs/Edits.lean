import ScriptTree.Proofs.Outcome
import ScriptTree.Source.Difference

/-!
# Edits of a part of a text

A batch of edits that stays within a part of a text may be applied to that part alone. Together
with edits behind the part it makes of the whole text what it makes of the part.
-/

namespace ScriptTree

/-- Splitting behind a known beginning is splitting the rest. -/
theorem splitBytes_append (n : Nat) (front back : List Char) :
    splitBytes (byteLength front + n) (front ++ back) =
      (splitBytes n back).map fun (kept, rest) => (front ++ kept, rest) := by
  induction front with
  | nil => simp [byteLength]
  | cons c cs ih =>
    have hpos := c.utf8Size_pos
    obtain ⟨m, hm⟩ : ∃ m, byteLength (c :: cs) + n = m + 1 :=
      ⟨byteLength (c :: cs) + n - 1, by simp only [byteLength]; omega⟩
    have hrest : m + 1 - c.utf8Size = byteLength cs + n := by
      simp only [byteLength] at hm
      omega
    rw [hm, List.cons_append, splitBytes, if_pos (by simp only [byteLength] at hm; omega), hrest,
      ih]
    simp [Function.comp_def]

/-- The first part of a split has as many bytes as were asked for. -/
theorem byteLength_of_splitBytes {n : Nat} {cs kept rest : List Char}
    (h : splitBytes n cs = some (kept, rest)) : byteLength kept = n := by
  induction cs generalizing n kept rest with
  | nil =>
    cases n with
    | zero =>
      rw [splitBytes_zero] at h
      cases h
      rfl
    | succ n => cases h
  | cons c cs ih =>
    cases n with
    | zero =>
      rw [splitBytes_zero] at h
      cases h
      rfl
    | succ n =>
      rw [splitBytes] at h
      split at h
      · obtain ⟨⟨front, back⟩, hsplit, heq⟩ := Option.map_eq_some_iff.1 h
        obtain ⟨rfl, rfl⟩ := Prod.mk.inj heq
        rw [byteLength, ih hsplit]
        omega
      · cases h

/-- A split cuts off as many bytes as were asked for. -/
theorem splitBytes_eq_some_iff {n : Nat} {cs front back : List Char} :
    splitBytes n cs = some (front, back) ↔ cs = front ++ back ∧ byteLength front = n := by
  constructor
  · exact fun h => ⟨(append_of_splitBytes h).symm, byteLength_of_splitBytes h⟩
  · rintro ⟨rfl, rfl⟩
    have happend := splitBytes_append 0 front back
    rw [Nat.add_zero, splitBytes_zero] at happend
    simpa using happend

/-- Edits in the order of their offsets, none of which overlaps another or ends beyond the
largest offset. -/
structure InOrder (edits : List Edit) : Prop where
  fits : ∀ e ∈ edits, e.offset + e.removed ≤ maxOffset
  apart : edits.Pairwise fun a b => a.stop ≤ b.offset

/-- Edits in the order of their offsets, none of which reaches into another one. -/
structure Ascending (edits : List Edit) : Prop where
  forward : ∀ e ∈ edits, e.offset ≤ e.stop
  apart : edits.Pairwise fun a b => a.stop ≤ b.offset

/-- Some of the edits ascend as well. -/
theorem Ascending.sublist {xs ys : List Edit} (h : Ascending ys) (hsub : xs.Sublist ys) :
    Ascending xs :=
  ⟨fun e he => h.forward e (hsub.subset he), h.apart.sublist hsub⟩

namespace Edit

/-- An edit that does not end beyond the largest offset ends after what it removes. -/
theorem stop_eq {e : Edit} (h : e.offset + e.removed ≤ maxOffset) :
    e.stop = e.offset + e.removed :=
  Nat.min_eq_left h

/-- The same edit of a part of the text that begins at an offset. -/
def within (base : Nat) (e : Edit) : Edit :=
  { e with offset := e.offset - base }

/-- An edit of a part ends where it ends in the whole. -/
theorem stop_within {base : Nat} {e : Edit} (h : e.offset + e.removed ≤ maxOffset)
    (hbase : base ≤ e.offset) : (e.within base).stop = e.stop - base := by
  have hwithin : (e.within base).stop = e.offset - base + e.removed :=
    Nat.min_eq_left (by simp only [within]; omega)
  rw [hwithin, stop_eq h]
  omega

end Edit

namespace InOrder

/-- Edits in order ascend. -/
theorem ascending {edits : List Edit} (h : InOrder edits) : Ascending edits where
  forward e he := by
    rw [Edit.stop_eq (h.fits e he)]
    exact Nat.le_add_right ..
  apart := h.apart

/-- Some of the edits are in order as well. -/
theorem sublist {xs ys : List Edit} (h : InOrder ys) (hsub : xs.Sublist ys) : InOrder xs :=
  ⟨fun e he => h.fits e (hsub.subset he), h.apart.sublist hsub⟩

/-- Edits of a part are in order as they are in the whole. -/
theorem within {edits : List Edit} (h : InOrder edits) {base : Nat}
    (hbase : ∀ e ∈ edits, base ≤ e.offset) : InOrder (edits.map (Edit.within base)) := by
  constructor
  · intro e he
    obtain ⟨e, hmem, rfl⟩ := List.mem_map.1 he
    have hfits := h.fits e hmem
    simp only [Edit.within]
    omega
  · refine List.pairwise_map.2 (h.apart.imp_of_mem fun {a b} ha hb hab => ?_)
    rw [Edit.stop_within (h.fits a ha) (hbase a ha)]
    simp only [Edit.within]
    omega

end InOrder

namespace EditBatch

variable {e : Edit} {more : List Edit} {length cursor : Nat} {cs out kept gone left : List Char}

/-- Neighbours that do not overlap are in order. -/
theorem pairwise_of_overlap? {edits : List Edit}
    (hfits : ∀ e ∈ edits, e.offset + e.removed ≤ maxOffset)
    (h : overlap? edits = none) : edits.Pairwise fun a b => a.stop ≤ b.offset := by
  induction edits with
  | nil => exact List.Pairwise.nil
  | cons first rest ih =>
    cases rest with
    | nil => exact List.pairwise_singleton _ _
    | cons second rest =>
      rw [overlap?] at h
      split at h
      · cases h
      · rename_i hlt
        have hrest := ih (fun e he => hfits e (List.mem_cons_of_mem _ he)) h
        have hsecond := Edit.stop_eq (hfits second (by simp))
        refine List.Pairwise.cons (fun b hb => ?_) hrest
        rcases List.mem_cons.1 hb with rfl | hb
        · omega
        · have hlater := (List.pairwise_cons.1 hrest).1 b hb
          omega

/-- The edits of a batch are in order. -/
theorem inOrder_of_ofEdits {edits : List Edit} {batch : EditBatch} (h : ofEdits edits = .ok batch) :
    batch.edits = sort edits ∧ InOrder batch.edits := by
  unfold ofEdits at h
  split at h
  · cases h
  · rename_i hfind
    split at h
    · cases h
    · rename_i hoverlap
      obtain rfl : batch = ⟨sort edits⟩ := (Except.ok.inj h).symm
      have hfits : ∀ e ∈ sort edits, e.offset + e.removed ≤ maxOffset := by
        intro e he
        have hnot := List.find?_eq_none.1 hfind e (List.mem_mergeSort.1 he)
        simpa using hnot
      exact ⟨rfl, hfits, pairwise_of_overlap? hfits hoverlap⟩

/-- Edits in order are a batch as they are. -/
theorem sort_eq_of_inOrder {edits : List Edit} (h : InOrder edits) : sort edits = edits := by
  refine List.mergeSort_of_pairwise (h.apart.imp_of_mem fun {a b} ha _ hab => ?_)
  have hstop := Edit.stop_eq (h.fits a ha)
  simp only [decide_eq_true_eq]
  omega

/-- Edits that are in order go on in order behind the first. -/
theorem inOrder_cons (horder : InOrder (e :: more)) :
    e.offset + e.removed ≤ maxOffset ∧ InOrder more ∧ ∀ other ∈ more, e.stop ≤ other.offset :=
  ⟨horder.fits e List.mem_cons_self, horder.sublist (List.sublist_cons_self e more),
    fun other hother => (List.pairwise_cons.1 horder.apart).1 other hother⟩

/-! ### Applying edits -/

/-- Applying an edit copies what is before it, inserts and goes on behind what is removed. -/
theorem applyFrom_pieces (hlength : e.stop ≤ length)
    (hkept : cursor + byteLength kept = e.offset) (hgone : e.offset + byteLength gone = e.stop) :
    applyFrom length cursor (kept ++ (gone ++ left)) (e :: more) =
      (applyFrom length e.stop left more).map (kept ++ e.inserted.toList ++ ·) := by
  have hfirst : splitBytes (e.offset - cursor) (kept ++ (gone ++ left)) = some (kept, gone ++ left) :=
    splitBytes_eq_some_iff.2 ⟨rfl, by omega⟩
  have hsecond : splitBytes (e.stop - e.offset) (gone ++ left) = some (gone, left) :=
    splitBytes_eq_some_iff.2 ⟨rfl, by omega⟩
  rw [applyFrom, if_neg (by omega), hfirst]
  simp only [hsecond]
  cases applyFrom length e.stop left more <;> rfl

/-- The pieces of a text at an edit that is applied: what is copied, what is removed, and what is
left to the edits behind it. -/
theorem applyFrom_cons_eq_ok_iff :
    applyFrom length cursor cs (e :: more) = .ok out ↔
      e.stop ≤ length ∧ ∃ kept gone left done, cs = kept ++ (gone ++ left) ∧
        byteLength kept = e.offset - cursor ∧ byteLength gone = e.stop - e.offset ∧
          applyFrom length e.stop left more = .ok done ∧ kept ++ e.inserted.toList ++ done = out := by
  rw [applyFrom]
  constructor
  · intro h
    split at h
    · cases h
    · rename_i hlength
      cases hkept : splitBytes (e.offset - cursor) cs with
      | none => simp [hkept] at h
      | some split =>
        obtain ⟨kept, rest⟩ := split
        obtain ⟨rfl, hkeptLength⟩ := splitBytes_eq_some_iff.1 hkept
        rw [hkept] at h
        cases hgone : splitBytes (e.stop - e.offset) rest with
        | none => simp [hgone] at h
        | some split =>
          obtain ⟨gone, left⟩ := split
          obtain ⟨rfl, hgoneLength⟩ := splitBytes_eq_some_iff.1 hgone
          simp only [hgone] at h
          obtain ⟨done, hdone, hout⟩ := bind_eq_ok_iff.1 h
          exact ⟨Nat.not_lt.1 hlength, kept, gone, left, done, rfl, hkeptLength, hgoneLength, hdone,
            Except.ok.inj hout⟩
  · rintro ⟨hlength, kept, gone, left, done, rfl, hkept, hgone, hdone, rfl⟩
    have hfirst : splitBytes (e.offset - cursor) (kept ++ (gone ++ left)) =
        some (kept, gone ++ left) := splitBytes_eq_some_iff.2 ⟨rfl, hkept⟩
    have hsecond : splitBytes (e.stop - e.offset) (gone ++ left) = some (gone, left) :=
      splitBytes_eq_some_iff.2 ⟨rfl, hgone⟩
    rw [if_neg (Nat.not_lt.2 hlength), hfirst]
    simp only [hsecond, hdone]
    rfl

/-- The same by the offsets of the edit, where it begins at the cursor or behind it. -/
theorem exists_pieces_of_applyFrom (hfits : e.offset + e.removed ≤ maxOffset)
    (hcursor : cursor ≤ e.offset) (h : applyFrom length cursor cs (e :: more) = .ok out) :
    ∃ kept gone left done, cs = kept ++ (gone ++ left) ∧ cursor + byteLength kept = e.offset ∧
      e.offset + byteLength gone = e.stop ∧ applyFrom length e.stop left more = .ok done ∧
        kept ++ e.inserted.toList ++ done = out := by
  obtain ⟨-, kept, gone, left, done, rfl, hkept, hgone, hdone, rfl⟩ := applyFrom_cons_eq_ok_iff.1 h
  have hstop := Edit.stop_eq hfits
  exact ⟨kept, gone, left, done, rfl, by omega, by omega, hdone, rfl⟩

/-- Text in front of all edits stays. -/
theorem applyFrom_front {length cursor : Nat} (front rest : List Char) {edits : List Edit}
    (h : ∀ e ∈ edits, cursor + byteLength front ≤ e.offset) :
    applyFrom length cursor (front ++ rest) edits =
      (applyFrom length (cursor + byteLength front) rest edits).map (front ++ ·) := by
  cases edits with
  | nil => rfl
  | cons e more =>
    have hle := h e List.mem_cons_self
    have hoffset : e.offset - cursor =
        byteLength front + (e.offset - (cursor + byteLength front)) := by
      omega
    rw [applyFrom, applyFrom, hoffset, splitBytes_append]
    split
    · rfl
    · cases splitBytes (e.offset - (cursor + byteLength front)) rest with
      | none => rfl
      | some split =>
        obtain ⟨kept, rest⟩ := split
        dsimp only [Option.map_some]
        cases splitBytes (e.stop - e.offset) rest with
        | none => rfl
        | some split =>
          dsimp only
          cases applyFrom length e.stop split.2 more with
          | error e => rfl
          | ok done => simp [bind, Except.bind, pure, Except.pure, Except.map]

/-- Edits of a part, followed by edits behind it, change the part as they would on its own. -/
theorem applyFrom_append {length cursor : Nat} {part newPart : List Char} (rest : List Char)
    {own done : List Edit} (hlength : cursor + byteLength part ≤ length) (horder : InOrder own)
    (hcursor : ∀ e ∈ own, cursor ≤ e.offset)
    (hdone : ∀ e ∈ done, cursor + byteLength part ≤ e.offset)
    (hown : applyFrom (cursor + byteLength part) cursor part own = .ok newPart) :
    applyFrom length cursor (part ++ rest) (own ++ done) =
      (applyFrom length (cursor + byteLength part) rest done).map (newPart ++ ·) := by
  induction own generalizing cursor part newPart with
  | nil =>
    obtain rfl : part = newPart := Except.ok.inj hown
    exact applyFrom_front part rest hdone
  | cons e more ih =>
    obtain ⟨hfits, hmore, hlater⟩ := inOrder_cons horder
    obtain ⟨kept, gone, left, newLeft, rfl, hkept, hgone, hleft, rfl⟩ :=
      exists_pieces_of_applyFrom hfits (hcursor e List.mem_cons_self) hown
    have hpart : cursor + byteLength (kept ++ (gone ++ left)) = e.stop + byteLength left := by
      rw [byteLength_append, byteLength_append]
      omega
    rw [hpart] at hleft hlength hdone ⊢
    have hrest := ih hlength hmore hlater hdone hleft
    rw [List.cons_append, List.append_assoc, List.append_assoc,
      applyFrom_pieces (by omega) hkept hgone, hrest]
    cases applyFrom length (e.stop + byteLength left) rest done with
    | error e => rfl
    | ok out => simp [Except.map]

/-- Edits of a part of a text do the same wherever the part begins. -/
theorem applyFrom_within {base length cursor : Nat} {cs out : List Char} {edits : List Edit}
    (horder : InOrder edits) (hbase : ∀ e ∈ edits, base ≤ e.offset)
    (h : applyFrom length cursor cs (edits.map (Edit.within base)) = .ok out) :
    applyFrom (base + length) (base + cursor) cs edits = .ok out := by
  induction edits generalizing cursor cs out with
  | nil => exact h
  | cons e more ih =>
    obtain ⟨hfits, hmore, -⟩ := inOrder_cons horder
    obtain ⟨hle, hbaseMore⟩ := List.forall_mem_cons.1 hbase
    have hstop := Edit.stop_within hfits hle
    have hoffset : (e.within base).offset = e.offset - base := rfl
    obtain ⟨hlength, kept, gone, left, done, rfl, hkept, hgone, hdone, rfl⟩ :=
      applyFrom_cons_eq_ok_iff.1 h
    have hforward := Edit.stop_eq hfits
    have hrest := ih hmore hbaseMore hdone
    rw [hstop, Nat.add_sub_cancel' (by omega)] at hrest
    exact applyFrom_cons_eq_ok_iff.2 ⟨by omega, kept, gone, left, done, rfl, by omega, by omega,
      hrest, rfl⟩

/-- A batch makes a text of another one. -/
theorem apply_eq_ok_iff {batch : EditBatch} {text new : String} :
    batch.apply text = .ok new ↔
      applyFrom text.utf8ByteSize 0 text.toList batch.edits = .ok new.toList := by
  unfold apply
  cases applyFrom text.utf8ByteSize 0 text.toList batch.edits with
  | error e => simp [Except.map]
  | ok cs =>
    simp only [Except.map, Except.ok.injEq]
    constructor
    · rintro rfl
      rw [String.toList_ofList]
    · rintro rfl
      rw [String.ofList_toList]

/-- Edits of a part of a text, together with edits behind the part. -/
theorem apply_append {front part newPart back newBack : String} {own done : List Edit}
    (horder : InOrder own) (hown : ∀ e ∈ own, front.utf8ByteSize ≤ e.offset)
    (hdone : ∀ e ∈ done, (front ++ part).utf8ByteSize ≤ e.offset)
    (hpart : apply ⟨own.map (Edit.within front.utf8ByteSize)⟩ part = .ok newPart)
    (hback : apply ⟨done⟩ (front ++ part ++ back) = .ok (front ++ part ++ newBack)) :
    apply ⟨own ++ done⟩ (front ++ part ++ back) = .ok (front ++ newPart ++ newBack) := by
  rw [apply_eq_ok_iff] at hpart hback ⊢
  simp only [String.toList_append, ← byteLength_toList, byteLength_append] at *
  have hlocal := applyFrom_within horder hown hpart
  rw [applyFrom_front (front.toList ++ part.toList) back.toList
    (by simpa only [byteLength_append, Nat.zero_add] using hdone)] at hback
  have hrest : applyFrom
      (byteLength front.toList + byteLength part.toList + byteLength back.toList)
      (byteLength front.toList + byteLength part.toList) back.toList done = .ok newBack.toList := by
    simp only [byteLength_append, Nat.zero_add] at hback
    revert hback
    generalize applyFrom _ _ back.toList done = outcome
    intro hback
    cases outcome with
    | error e => simp [Except.map] at hback
    | ok cs => simpa [Except.map] using hback
  have hall : ∀ e ∈ own ++ done, 0 + byteLength front.toList ≤ e.offset := by
    intro e he
    rcases List.mem_append.1 he with he | he
    · have hle := hown e he
      omega
    · have hle := hdone e he
      omega
  rw [List.append_assoc, applyFrom_front front.toList _ hall, Nat.zero_add,
    applyFrom_append back.toList (by omega) horder hown hdone hlocal, hrest]
  simp [Except.map]

end EditBatch

end ScriptTree
