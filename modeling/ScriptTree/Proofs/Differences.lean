import Mathlib
import ScriptTree.Proofs.Reordering
import ScriptTree.Proofs.Replacements

/-!
# The smallest edit between two texts

A single edit keeps a beginning and an end of the text that it applies to. The edit that takes the
longest common beginning first, and then the longest common end of what is left, keeps as many bytes
as any other: an end that is longer than what is left holds all of the shorter rest, so that the
edit keeps all of the shorter text.
-/

namespace ScriptTree

/-! ### Batches of one edit -/

namespace EditBatch

/-- The edits of a batch that applies to a text are edits of it. -/
theorem isOn_of_apply {batch : EditBatch} {old new : String} (horder : InOrder batch.edits)
    (h : batch.apply old = .ok new) : ∀ e ∈ batch.edits, e.IsOn old := by
  have htext : old.toList = [] ++ old.toList := rfl
  exact (exists_applyFrom_iff horder htext fun e _ => Nat.zero_le e.offset).1
    ⟨_, apply_eq_ok_iff.1 h⟩

/-- A single edit that fits is in order. -/
theorem inOrder_singleton {e : Edit} (hfits : e.offset + e.removed ≤ maxOffset) : InOrder [e] :=
  ⟨by simpa using hfits, List.pairwise_singleton _ _⟩

/-- A single edit is accepted if it fits. -/
theorem ofEdits_singleton_iff {e : Edit} {batch : EditBatch} :
    ofEdits [e] = .ok batch ↔ batch = ⟨[e]⟩ ∧ e.offset + e.removed ≤ maxOffset := by
  have hsort : sort [e] = [e] := List.mergeSort_singleton e
  rw [ofEdits_eq_ok_iff, hsort]
  exact and_congr_right fun _ =>
    ⟨fun horder => horder.fits e List.mem_cons_self, inOrder_singleton⟩

end EditBatch

/-! ### What two lists share at the end -/

/-- The longest common end of two lists. -/
def sharedEnd {α : Type} [DecidableEq α] (as bs : List α) : List α :=
  (sharedStart as.reverse bs.reverse).reverse

/-- What two lists share at the end is the longest end of both. -/
theorem isSuffix_sharedEnd_iff {α : Type} [DecidableEq α] {part as bs : List α} :
    part <:+ sharedEnd as bs ↔ part <:+ as ∧ part <:+ bs := by
  rw [sharedEnd, ← List.reverse_prefix, List.reverse_reverse, isPrefix_sharedStart_iff,
    List.reverse_prefix, List.reverse_prefix]

/-- A beginning of characters takes no more bytes. -/
theorem byteLength_le_of_isPrefix {xs ys : List Char} (h : xs <+: ys) :
    byteLength xs ≤ byteLength ys := by
  obtain ⟨rest, rfl⟩ := h
  rw [byteLength_append]
  exact Nat.le_add_right ..

/-- An end of characters takes no more bytes. -/
theorem byteLength_le_of_isSuffix {xs ys : List Char} (h : xs <:+ ys) :
    byteLength xs ≤ byteLength ys := by
  obtain ⟨rest, rfl⟩ := h
  rw [byteLength_append]
  exact Nat.le_add_left ..

/-! ### Ways from one text to another -/

/-- A way from one text to another that keeps a beginning and an end of it, given by the parts that
stay, go and come. -/
structure Alteration (old new : List Char) where
  front : List Char
  gone : List Char
  added : List Char
  back : List Char
  old_eq : old = front ++ (gone ++ back)
  new_eq : new = front ++ (added ++ back)

namespace Alteration

section Lists

variable {old new : List Char}

/-- The edit that goes this way. -/
def edit (a : Alteration old new) : Edit :=
  ⟨byteLength a.front, byteLength a.gone, String.ofList a.added⟩

@[simp]
theorem edit_offset (a : Alteration old new) : a.edit.offset = byteLength a.front := rfl

@[simp]
theorem edit_removed (a : Alteration old new) : a.edit.removed = byteLength a.gone := rfl

@[simp]
theorem newLength_edit (a : Alteration old new) : a.edit.newLength = byteLength a.added := by
  rw [edit, Edit.newLength, ← byteLength_toList, String.toList_ofList]

/-- The number of bytes that stay. -/
def kept (a : Alteration old new) : Nat :=
  byteLength a.front + byteLength a.back

/-- What follows the kept beginning in the old text. -/
def oldRest (a : Alteration old new) : List Char :=
  a.gone ++ a.back

/-- What follows the kept beginning in the new text. -/
def newRest (a : Alteration old new) : List Char :=
  a.added ++ a.back

/-- Keep what the texts share at the beginning, and then what the rests of them share at the
end. -/
def greedy (old new : List Char) : Alteration old new :=
  let front := sharedStart old new
  let oldRest := old.drop front.length
  let newRest := new.drop front.length
  let back := sharedEnd oldRest newRest
  { front, back
    gone := oldRest.take (oldRest.length - back.length)
    added := newRest.take (newRest.length - back.length)
    old_eq := by
      have hback := (isSuffix_sharedEnd_iff.1 (List.suffix_refl back)).1
      rw [List.suffix_iff_eq_append.1 hback,
        List.prefix_iff_eq_append.1 (sharedStart_isPrefix_left old new)]
    new_eq := by
      have hback := (isSuffix_sharedEnd_iff.1 (List.suffix_refl back)).2
      rw [List.suffix_iff_eq_append.1 hback,
        List.prefix_iff_eq_append.1 (sharedStart_isPrefix_right old new)] }

section Lengths

variable (a : Alteration old new)

/-- The kept beginning and the rest make up the old text. -/
theorem byteLength_oldRest : byteLength a.front + byteLength a.oldRest = byteLength old := by
  rw [oldRest, ← byteLength_append, ← a.old_eq]

/-- The kept beginning and the rest make up the new text. -/
theorem byteLength_newRest : byteLength a.front + byteLength a.newRest = byteLength new := by
  rw [newRest, ← byteLength_append, ← a.new_eq]

/-- What is not removed stays. -/
theorem kept_add_removed : a.kept + a.edit.removed = byteLength old := by
  rw [← a.byteLength_oldRest, oldRest, byteLength_append, kept, edit_removed]
  omega

/-- What is not inserted was there before. -/
theorem kept_add_newLength : a.kept + a.edit.newLength = byteLength new := by
  rw [← a.byteLength_newRest, newRest, byteLength_append, kept, newLength_edit]
  omega

end Lengths

/-! ### Keeping as much as possible -/

section Greedy

variable (a : Alteration old new)

theorem isSuffix_oldRest : a.oldRest <:+ old :=
  ⟨a.front, a.old_eq.symm⟩

theorem isSuffix_newRest : a.newRest <:+ new :=
  ⟨a.front, a.new_eq.symm⟩

/-- A kept end is an end of the old text. -/
theorem isSuffix_back_old : a.back <:+ old :=
  (List.suffix_append a.gone a.back).trans a.isSuffix_oldRest

/-- A kept end is an end of the new text. -/
theorem isSuffix_back_new : a.back <:+ new :=
  (List.suffix_append a.added a.back).trans a.isSuffix_newRest

/-- A kept beginning begins what the texts share. -/
theorem isPrefix_front_greedy : a.front <+: (greedy old new).front :=
  isPrefix_sharedStart_iff.2 ⟨⟨_, a.old_eq.symm⟩, ⟨_, a.new_eq.symm⟩⟩

/-- A common end of what the shared beginning leaves of both texts is kept. -/
theorem isSuffix_back_greedy {part : List Char} (hold : part <:+ (greedy old new).oldRest)
    (hnew : part <:+ (greedy old new).newRest) : part <:+ (greedy old new).back := by
  have hdrop : old.drop (greedy old new).front.length = (greedy old new).oldRest :=
    (congrArg (List.drop _) (greedy old new).old_eq).trans List.drop_left
  have hdrop' : new.drop (greedy old new).front.length = (greedy old new).newRest :=
    (congrArg (List.drop _) (greedy old new).new_eq).trans List.drop_left
  exact isSuffix_sharedEnd_iff.2 ⟨hdrop ▸ hold, hdrop' ▸ hnew⟩

/-- An end of one text within a common end is an end of every longer end of the other text. -/
theorem isSuffix_of_shared {xs ys rest rest' back : List Char} (hrest : rest <:+ xs)
    (hrest' : rest' <:+ ys) (hback : back <:+ xs) (hback' : back <:+ ys)
    (hlength : rest.length ≤ back.length) (hshorter : rest.length ≤ rest'.length) :
    rest <:+ rest' :=
  have hinBack : rest <:+ back := List.suffix_of_suffix_length_le hrest hback hlength
  List.suffix_of_suffix_length_le (hinBack.trans hback') hrest' hshorter

/-- No way keeps more bytes. -/
theorem kept_le_kept_greedy : a.kept ≤ (greedy old new).kept := by
  have hfront := byteLength_le_of_isPrefix a.isPrefix_front_greedy
  have hold := a.kept_add_removed
  have hnew := a.kept_add_newLength
  have hsum := (greedy old new).byteLength_oldRest
  have hsum' := (greedy old new).byteLength_newRest
  have hrest := (greedy old new).isSuffix_oldRest
  have hrest' := (greedy old new).isSuffix_newRest
  -- The end that stays lies within both rests, or it holds the shorter of them as a whole.
  obtain hboth | hshort | hshort :
      a.back.length ≤ (greedy old new).oldRest.length ∧
          a.back.length ≤ (greedy old new).newRest.length ∨
        (greedy old new).oldRest.length ≤ a.back.length ∧
          (greedy old new).oldRest.length ≤ (greedy old new).newRest.length ∨
        (greedy old new).newRest.length ≤ a.back.length ∧
          (greedy old new).newRest.length ≤ (greedy old new).oldRest.length := by
    omega
  · have hback := byteLength_le_of_isSuffix (isSuffix_back_greedy
      (List.suffix_of_suffix_length_le a.isSuffix_back_old hrest hboth.1)
      (List.suffix_of_suffix_length_le a.isSuffix_back_new hrest' hboth.2))
    exact Nat.add_le_add hfront hback
  · have hall := byteLength_le_of_isSuffix (isSuffix_back_greedy (List.suffix_refl _)
      (isSuffix_of_shared hrest hrest' a.isSuffix_back_old a.isSuffix_back_new hshort.1 hshort.2))
    have hkept : byteLength old ≤ (greedy old new).kept := by
      rw [← hsum]
      exact Nat.add_le_add_left hall _
    omega
  · have hall := byteLength_le_of_isSuffix (isSuffix_back_greedy
      (isSuffix_of_shared hrest' hrest a.isSuffix_back_new a.isSuffix_back_old hshort.1 hshort.2)
      (List.suffix_refl _))
    have hkept : byteLength new ≤ (greedy old new).kept := by
      rw [← hsum']
      exact Nat.add_le_add_left hall _
    omega

end Greedy

end Lists

/-! ### Ways and edits -/

section Texts

variable {old new : String}

/-- Between texts that differ, the edit is the one that keeps as much as possible. -/
theorem between?_of_ne (h : old ≠ new) :
    Edit.between? old new = some (greedy old.toList new.toList).edit := by
  simp only [Edit.between?, if_neg h, edit, greedy, sharedEnd, List.length_reverse]

/-- An edit between two texts does not reach beyond the end of the old one. -/
theorem edit_fits (a : Alteration old.toList new.toList) :
    a.edit.offset + a.edit.removed ≤ old.utf8ByteSize := by
  have hlength := a.byteLength_oldRest
  rw [oldRest, byteLength_append, byteLength_toList] at hlength
  rw [edit_offset, edit_removed]
  omega

/-- A batch of one edit makes one text of another exactly if the edit goes a way between them. -/
theorem apply_singleton_iff {e : Edit} (hfits : e.offset + e.removed ≤ maxOffset) :
    EditBatch.apply ⟨[e]⟩ old = .ok new ↔ ∃ a : Alteration old.toList new.toList, a.edit = e := by
  have hstop := Edit.stop_eq hfits
  constructor
  · intro h
    have hon := EditBatch.isOn_of_apply (EditBatch.inOrder_singleton hfits) h e List.mem_cons_self
    have htext : old.toList = [] ++ old.toList := rfl
    obtain ⟨front, gone, back, hold, hfront, hgone⟩ :=
      hon.exists_pieces hfits htext (Nat.zero_le e.offset)
    simp only [byteLength, Nat.zero_add] at hfront
    have hkept : 0 + byteLength front = e.offset := by omega
    have hremoved : byteLength gone = e.removed := by omega
    rw [EditBatch.apply_eq_ok_iff, hold, EditBatch.applyFrom_pieces hon.1 hkept hgone] at h
    have hnew : front ++ e.inserted.toList ++ back = new.toList := by
      simpa [EditBatch.applyFrom, Except.map] using h
    refine ⟨⟨front, gone, e.inserted.toList, back, hold, by simp [← hnew]⟩, ?_⟩
    simp [edit, hfront, hremoved]
  · rintro ⟨a, rfl⟩
    have hlength : a.edit.stop ≤ old.utf8ByteSize := hstop ▸ a.edit_fits
    have hinserted : a.edit.inserted.toList = a.added := String.toList_ofList
    rw [EditBatch.apply_eq_ok_iff]
    calc EditBatch.applyFrom old.utf8ByteSize 0 old.toList [a.edit]
        = EditBatch.applyFrom old.utf8ByteSize 0 (a.front ++ (a.gone ++ a.back)) [a.edit] :=
          congrArg (EditBatch.applyFrom _ _ · _) a.old_eq
      _ = .ok (a.front ++ a.edit.inserted.toList ++ a.back) :=
          EditBatch.applyFrom_pieces hlength (Nat.zero_add _) hstop.symm
      _ = .ok new.toList := by rw [hinserted, List.append_assoc, ← a.new_eq]

end Texts

end Alteration

namespace Edit

/-- The edit recovered from two texts of which the old one has no more bytes than there are offsets.
There is none exactly for equal texts. Otherwise it is an edit of the old text that makes the new
one of it, and no other single edit that does so removes or inserts fewer bytes. -/
theorem recover_smallest {old new : String} (hold : old.utf8ByteSize ≤ maxOffset) :
    (recover old new = .ok none ↔ old = new) ∧
    (old ≠ new → ∃ e, recover old new = .ok (some e) ∧ e.IsOn old ∧
      (∃ batch, EditBatch.ofEdits [e] = .ok batch ∧ batch.apply old = .ok new) ∧
      ∀ other batch, EditBatch.ofEdits [other] = .ok batch → batch.apply old = .ok new →
        e.removed ≤ other.removed ∧ e.newLength ≤ other.newLength) := by
  by_cases heq : old = new
  · have hnone : recover old new = .ok none := by
      simp only [recover, between?_eq_none_iff.2 heq]
    exact ⟨⟨fun _ => heq, fun _ => hnone⟩, fun hne => absurd heq hne⟩
  obtain ⟨best, hbest⟩ : ∃ best, best = Alteration.greedy old.toList new.toList := ⟨_, rfl⟩
  have hlength := best.edit_fits
  have hfits : best.edit.offset + best.edit.removed ≤ maxOffset := hlength.trans hold
  have hrecover : recover old new = .ok (some best.edit) := by
    simp only [recover, Alteration.between?_of_ne heq, ← hbest]
    rw [if_neg (by omega)]
  have hbatch : EditBatch.ofEdits [best.edit] = .ok ⟨[best.edit]⟩ :=
    EditBatch.ofEdits_singleton_iff.2 ⟨rfl, hfits⟩
  have happly : EditBatch.apply ⟨[best.edit]⟩ old = .ok new :=
    (Alteration.apply_singleton_iff hfits).2 ⟨best, rfl⟩
  refine ⟨by simp [hrecover, heq], fun _ => ⟨best.edit, hrecover, ?_, ⟨_, hbatch, happly⟩, ?_⟩⟩
  · exact EditBatch.isOn_of_apply (EditBatch.inOrder_singleton hfits) happly _ List.mem_cons_self
  · intro other batch hother hmakes
    obtain ⟨rfl, hfits'⟩ := EditBatch.ofEdits_singleton_iff.1 hother
    obtain ⟨a, rfl⟩ := (Alteration.apply_singleton_iff hfits').1 hmakes
    have hkept : a.kept ≤ best.kept := hbest ▸ a.kept_le_kept_greedy
    have hold := a.kept_add_removed.trans best.kept_add_removed.symm
    have hnew := a.kept_add_newLength.trans best.kept_add_newLength.symm
    omega

/-- Repeated letters, and characters that share their first byte. -/
theorem recover_smallest_repeated :
    "aéa".utf8ByteSize ≤ maxOffset ∧ "aéa" ≠ "aèaèa" ∧
      recover "aéa" "aèaèa" = .ok (some ⟨1, 2, "èaè"⟩) ∧
      ∀ other batch, EditBatch.ofEdits [other] = .ok batch → batch.apply "aéa" = .ok "aèaèa" →
        2 ≤ other.removed ∧ 5 ≤ other.newLength := by
  have hsize : "aéa".utf8ByteSize ≤ maxOffset := by decide
  have hne : "aéa" ≠ "aèaèa" := by decide
  have hrecover : recover "aéa" "aèaèa" = .ok (some ⟨1, 2, "èaè"⟩) := by cbv
  obtain ⟨e, he, -, -, hleast⟩ := (recover_smallest hsize).2 hne
  obtain rfl : ⟨1, 2, "èaè"⟩ = e := by simpa [hrecover] using he
  exact ⟨hsize, hne, hrecover, hleast⟩

end Edit

end ScriptTree
