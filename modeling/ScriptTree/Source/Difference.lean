import ScriptTree.Source.Edit

/-!
The smallest single edit between two texts: everything between what they share at the beginning
and what the rests of them share at the end.
-/

namespace ScriptTree

/-- The longest common beginning of two lists. -/
def sharedStart {α : Type} [DecidableEq α] : List α → List α → List α
  | a :: as, b :: bs => if a = b then a :: sharedStart as bs else []
  | _, _ => []

/-- A common beginning begins the first list. -/
theorem sharedStart_isPrefix_left {α : Type} [DecidableEq α] (as bs : List α) :
    sharedStart as bs <+: as := by
  fun_induction sharedStart as bs with
  | case1 _ _ _ ih => exact (List.prefix_cons_inj _).2 ih
  | case2 => exact List.nil_prefix
  | case3 => exact List.nil_prefix

/-- Two lists share as much as the lists in the other order do. -/
theorem sharedStart_comm {α : Type} [DecidableEq α] (as bs : List α) :
    sharedStart as bs = sharedStart bs as := by
  fun_induction sharedStart as bs with
  | case1 a as bs h => simp_all [sharedStart]
  | case2 a as b bs h => simp [sharedStart, Ne.symm h]
  | case3 as bs h =>
    cases as with
    | nil => cases bs <;> rfl
    | cons a as =>
      cases bs with
      | nil => rfl
      | cons b bs => exact (h a as b bs rfl rfl).elim

/-- A common beginning begins the second list. -/
theorem sharedStart_isPrefix_right {α : Type} [DecidableEq α] (as bs : List α) :
    sharedStart as bs <+: bs :=
  sharedStart_comm as bs ▸ sharedStart_isPrefix_left bs as

/-- A beginning put in front of two lists is one that they share. -/
theorem isPrefix_sharedStart_append {α : Type} [DecidableEq α] (part as bs : List α) :
    part <+: sharedStart (part ++ as) (part ++ bs) := by
  induction part with
  | nil => exact List.nil_prefix
  | cons a part ih => simpa [sharedStart] using ih

/-- What two lists share at the beginning is the longest beginning of both. -/
theorem isPrefix_sharedStart_iff {α : Type} [DecidableEq α] {part as bs : List α} :
    part <+: sharedStart as bs ↔ part <+: as ∧ part <+: bs := by
  constructor
  · exact fun h => ⟨h.trans (sharedStart_isPrefix_left as bs),
      h.trans (sharedStart_isPrefix_right as bs)⟩
  · rintro ⟨⟨as, rfl⟩, ⟨bs, rfl⟩⟩
    exact isPrefix_sharedStart_append part as bs

/-- The number of bytes that characters take. -/
def byteLength : List Char → Nat
  | [] => 0
  | c :: cs => c.utf8Size + byteLength cs

@[simp]
theorem byteLength_append (xs ys : List Char) :
    byteLength (xs ++ ys) = byteLength xs + byteLength ys := by
  induction xs with
  | nil => simp [byteLength]
  | cons c cs ih => simp [byteLength, ih, Nat.add_assoc]

/-- The bytes of a text are those of its characters. -/
@[simp]
theorem byteLength_toList (s : String) : byteLength s.toList = s.utf8ByteSize := by
  have hchars (cs : List Char) : (String.ofList cs).utf8ByteSize = byteLength cs := by
    induction cs with
    | nil => simp [byteLength]
    | cons c cs ih =>
      rw [← List.singleton_append, String.ofList_append, String.utf8ByteSize_append,
        ← String.singleton_eq_ofList, String.utf8ByteSize_singleton, ih]
      rfl
  rw [← hchars, String.ofList_toList]

/-- The edit that turns `old` into `new` with nothing removed or inserted that both have at
either end; `none` for equal texts. -/
def Edit.between? (old new : String) : Option Edit :=
  if old = new then none
  else
    let start := sharedStart old.toList new.toList
    let oldRest := old.toList.drop start.length
    let newRest := new.toList.drop start.length
    let shared := (sharedStart oldRest.reverse newRest.reverse).length
    some {
      offset := byteLength start
      removed := byteLength (oldRest.take (oldRest.length - shared))
      inserted := String.ofList (newRest.take (newRest.length - shared)) }

/-- Only equal texts have no edit between them. -/
theorem Edit.between?_eq_none_iff {old new : String} : between? old new = none ↔ old = new := by
  unfold between?
  split <;> simp_all

/-- Why the edit between two texts cannot be told. -/
inductive DifferenceError where
  /-- It begins beyond the largest offset, or removes more than that. -/
  | tooLarge
  deriving DecidableEq, Repr

/-- The text of the error. -/
def DifferenceError.message : DifferenceError → String
  | tooLarge => "file is too large to edit"

/-- The edit between two texts, as far as there are offsets for it. -/
def Edit.recover (old new : String) : Except DifferenceError (Option Edit) :=
  match between? old new with
  | none => .ok none
  | some e =>
    if maxOffset < e.offset ∨ maxOffset < e.removed then .error .tooLarge else .ok (some e)

end ScriptTree
