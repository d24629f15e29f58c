import ScriptTree.Source.Span

/-!
Edits of a text. A batch of edits is put into the order of its offsets and accepted when no two
of them overlap; all offsets refer to the text before the batch.
-/

namespace ScriptTree

/-- The replacement of `removed` bytes at `offset` by a text. -/
structure Edit where
  offset : Nat
  removed : Nat
  inserted : String
  deriving DecidableEq, Repr

namespace Edit

/-- The end of the removed bytes, held at the largest offset. -/
def stop (e : Edit) : Nat :=
  min (e.offset + e.removed) maxOffset

/-- The number of bytes inserted. -/
def newLength (e : Edit) : Nat :=
  e.inserted.utf8ByteSize

/-- How many bytes the text grows by. -/
def delta (e : Edit) : Int :=
  e.newLength - e.removed

/-- How many bytes a text grows by through several edits. -/
def totalDelta : List Edit → Int
  | [] => 0
  | e :: rest => e.delta + totalDelta rest

/-- Whether the edit touches a byte of the range, or sits inside it. -/
def intersects (e : Edit) (s : Span) : Bool :=
  e.offset < s.stop && s.start < e.stop

/-- Whether the range lies before the edit. -/
def isBefore (e : Edit) (s : Span) : Bool :=
  s.stop ≤ e.offset

/-- Whether the range lies after the edit. -/
def isAfter (e : Edit) (s : Span) : Bool :=
  e.stop ≤ s.start

end Edit

/-- Why edits cannot be applied. -/
inductive EditError where
  | overlapping (first second : Nat)
  | outOfBounds (start stop length : Nat)
  | notCharBoundary (offset : Nat)
  | overflow (offset removed : Nat)
  deriving DecidableEq, Repr

/-- The text of the error. -/
def EditError.message : EditError → String
  | overlapping first second =>
    "edits starting at " ++ toString first ++ " and " ++ toString second ++ " overlap"
  | outOfBounds start stop length =>
    "edit " ++ (Span.mk start stop).display ++ " lies outside the " ++ toString length
      ++ "-byte text"
  | notCharBoundary offset => "edit boundary " ++ toString offset ++ " splits a character"
  | overflow offset removed =>
    "edit at " ++ toString offset ++ " removing " ++ toString removed
      ++ " bytes ends beyond the largest offset"

/-- Split characters after `n` bytes; `none` when that lies inside a character or past the
end. -/
def splitBytes : Nat → List Char → Option (List Char × List Char)
  | 0, cs => some ([], cs)
  | _ + 1, [] => none
  | n + 1, c :: cs =>
    if c.utf8Size ≤ n + 1 then
      (splitBytes (n + 1 - c.utf8Size) cs).map fun (front, back) => (c :: front, back)
    else none

@[simp]
theorem splitBytes_zero (cs : List Char) : splitBytes 0 cs = some ([], cs) := by
  cases cs <;> simp [splitBytes]

/-- The two parts of a split make up the whole. -/
theorem append_of_splitBytes {n : Nat} {cs front back : List Char}
    (h : splitBytes n cs = some (front, back)) : front ++ back = cs := by
  induction cs generalizing n front back with
  | nil =>
    cases n <;> simp_all [splitBytes]
  | cons c cs ih =>
    cases n with
    | zero => simp_all [splitBytes]
    | succ n =>
      rw [splitBytes] at h
      split at h
      · obtain ⟨⟨front', back'⟩, h', heq⟩ := Option.map_eq_some_iff.1 h
        simp only [Prod.mk.injEq] at heq
        obtain ⟨rfl, rfl⟩ := heq
        simp [ih h']
      · cases h

/-- Whether a text can be cut after `n` bytes: not inside a character and not past the end. -/
def isCharBoundary (text : String) (n : Nat) : Bool :=
  (splitBytes n text.toList).isSome

/-- The part of a text between two byte offsets; `none` when they are in the wrong order or the text
cannot be cut at one of them. -/
def slice? (text : String) (start stop : Nat) : Option String := do
  let (_, rest) ← splitBytes start text.toList
  if stop < start then none
  else
    let (part, _) ← splitBytes (stop - start) rest
    return String.ofList part

/-- Edits in the order of their offsets, none of which overlaps the next. -/
structure EditBatch where
  edits : List Edit
  deriving DecidableEq, Repr

namespace EditBatch

/-- The first pair of neighbours of which the former reaches into the latter. -/
def overlap? : List Edit → Option EditError
  | first :: second :: rest =>
    if second.offset < first.stop then some (.overlapping first.offset second.offset)
    else overlap? (second :: rest)
  | _ => none

/-- The edits in the order of their offsets; those at one offset keep their order. -/
def sort (edits : List Edit) : List Edit :=
  edits.mergeSort fun a b => a.offset ≤ b.offset

/-- A batch of the given edits, which may come in any order. -/
def ofEdits (edits : List Edit) : Except EditError EditBatch :=
  match edits.find? fun e => maxOffset < e.offset + e.removed with
  | some e => .error (.overflow e.offset e.removed)
  | none =>
    match overlap? (sort edits) with
    | some error => .error error
    | none => .ok ⟨sort edits⟩

/-- How many bytes the text grows by. -/
def delta (batch : EditBatch) : Int :=
  Edit.totalDelta batch.edits

/-- How far an offset moves through the edits that begin before it and end at or before it. -/
def deltaBefore (batch : EditBatch) (offset : Nat) : Int :=
  Edit.totalDelta (batch.edits.filter fun e => e.stop ≤ offset && e.offset < offset)

/-- Apply edits to what is left of a text of `length` bytes after the first `cursor` of them. -/
def applyFrom (length : Nat) : Nat → List Char → List Edit → Except EditError (List Char)
  | _, rest, [] => .ok rest
  | cursor, rest, e :: more =>
    if length < e.stop then .error (.outOfBounds e.offset e.stop length)
    else
      match splitBytes (e.offset - cursor) rest with
      | none => .error (.notCharBoundary e.offset)
      | some (kept, rest) =>
        match splitBytes (e.stop - e.offset) rest with
        | none => .error (.notCharBoundary e.stop)
        | some (_, rest) => do
          let done ← applyFrom length e.stop rest more
          return kept ++ e.inserted.toList ++ done

/-- The text after the edits. -/
def apply (batch : EditBatch) (text : String) : Except EditError String :=
  (applyFrom text.utf8ByteSize 0 text.toList batch.edits).map String.ofList

/-- Go through a text with a cursor, and put what lies between the edits and what they insert behind
`out`; `none` when what is to be copied is no part of the text. -/
def copyFrom? (text : String) : Nat → String → List Edit → Option (Except EditError String)
  | cursor, out, [] => do
    let rest ← slice? text cursor text.utf8ByteSize
    return .ok (out ++ rest)
  | cursor, out, e :: more =>
    if text.utf8ByteSize < e.stop then
      some (.error (.outOfBounds e.offset e.stop text.utf8ByteSize))
    else
      match [e.offset, e.stop].find? fun offset => !isCharBoundary text offset with
      | some offset => some (.error (.notCharBoundary offset))
      | none => do
        let kept ← slice? text cursor e.offset
        copyFrom? text e.stop (out ++ kept ++ e.inserted) more

/-- The text after the edits, put together from parts of the text before them. -/
def copy? (batch : EditBatch) (text : String) : Option (Except EditError String) :=
  copyFrom? text 0 "" batch.edits

end EditBatch

end ScriptTree
