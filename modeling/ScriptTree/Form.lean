import ScriptTree.Kind.Leaf
import ScriptTree.Kind.Node

/-!
The form of a node: its children in text order, each with the role it plays. A form is a list of
pairs, so that the same operations serve trees and arenas.
-/

namespace ScriptTree

/-- What a child is to its parent. -/
inductive Role where
  /-- The occupant of a named slot. -/
  | slot (place : Slot)
  /-- One element of a repeating list. -/
  | item
  /-- Trivia, a separator or text without a place. -/
  | extra
  deriving DecidableEq, Repr

namespace Role

/-- The role as answers name it. -/
def label : Role → String
  | .slot place => place.label
  | .item => "item"
  | .extra => "extra"

/-- Whether the role is a slot of any name. -/
def isSlot : Role → Bool
  | .slot _ => true
  | _ => false

/-- What stands before a child of this role in an outline. -/
def outlineMark : Role → String
  | .slot place => place.label ++ ": "
  | .item => ""
  | .extra => "~ "

/-- The role of a new neighbour: items stand beside items, and extras beside all else. -/
def beside : Role → Role
  | .item => .item
  | _ => .extra

end Role

/-- Why a node has no place for a child. -/
inductive Misfit where
  | unknownSlot (kind : NodeKind) (slot : Slot)
  | noItems (kind : NodeKind)
  /-- A leaf was to take children. -/
  | notANode (kind : LeafKind)
  deriving DecidableEq, Repr

/-- The text of the error. -/
def Misfit.message : Misfit → String
  | unknownSlot kind slot => kind.label ++ " has no `" ++ slot.label ++ "` slot"
  | noItems kind => kind.label ++ " does not hold list items"
  | notANode kind => kind.debug ++ " is a leaf, not a node"

/-- Whether a node of the kind may have a child of the role. -/
def NodeKind.checkRole (kind : NodeKind) : Role → Except Misfit Unit
  | .slot slot => if kind.declares slot then .ok () else .error (.unknownSlot kind slot)
  | .item => if kind.hasItems then .ok () else .error (.noItems kind)
  | .extra => .ok ()

namespace Form

variable {α : Type}

/-- The occupant of a slot. -/
def occupant? (slot : Slot) (form : List (Role × α)) : Option α :=
  (form.find? fun entry => entry.1 == .slot slot).map Prod.snd

/-- Whether a slot is filled. -/
def isFilled (slot : Slot) (form : List (Role × α)) : Bool :=
  form.any fun entry => entry.1 == .slot slot

/-- The items, in order. -/
def items (form : List (Role × α)) : List α :=
  (form.filter fun entry => entry.1 == .item).map Prod.snd

/-- The number of filled slots. -/
def filledSlots (form : List (Role × α)) : Nat :=
  form.countP fun entry => entry.1.isSlot

/-- The same children, all as extras. -/
def extras (children : List α) : List (Role × α) :=
  children.map fun child => (.extra, child)

/-- Whether a child of the given role stands after the given slot. Items stand between the
opening slots and the closing bracket, and extras stand anywhere. -/
def standsAfter (kind : NodeKind) (slot : Slot) : Role → Bool
  | .slot other =>
    match kind.slotIndex? slot, kind.slotIndex? other with
    | some place, some otherPlace => place < otherPlace
    | _, _ => false
  | .item =>
    match kind.slotIndex? slot with
    | some place => place < kind.itemRank
    | none => false
  | .extra => false

/-- Put a child into an empty slot: before the first child that has to stand after it. -/
def insertSlot (kind : NodeKind) (slot : Slot) (child : α) : List (Role × α) → List (Role × α)
  | [] => [(.slot slot, child)]
  | entry :: rest =>
    if standsAfter kind slot entry.1 then (.slot slot, child) :: entry :: rest
    else entry :: insertSlot kind slot child rest

/-- Put a child into a filled slot; the former occupant comes with the new form. -/
def replaceSlot? (slot : Slot) (child : α) : List (Role × α) → Option (α × List (Role × α))
  | [] => none
  | entry :: rest =>
    if entry.1 = .slot slot then some (entry.2, (entry.1, child) :: rest)
    else (replaceSlot? slot child rest).map fun (old, rest) => (old, entry :: rest)

/-- Put a child into a slot, filled or not. -/
def setSlot (kind : NodeKind) (slot : Slot) (child : α) (form : List (Role × α)) :
    List (Role × α) :=
  match replaceSlot? slot child form with
  | some (_, form) => form
  | none => insertSlot kind slot child form

/-- Put a child into a slot of a node, if the node's kind declares it. -/
def place (kind : NodeKind) (slot : Slot) (child : α) (form : List (Role × α)) :
    Except Misfit (List (Role × α)) := do
  kind.checkRole (.slot slot)
  return setSlot kind slot child form

/-- Add an item to a node, if nodes of its kind hold items. -/
def addItem (kind : NodeKind) (child : α) (form : List (Role × α)) :
    Except Misfit (List (Role × α)) := do
  kind.checkRole .item
  return form ++ [(.item, child)]

/-- Check the role of every child. -/
def checkRoles (kind : NodeKind) : List (Role × α) → Except Misfit Unit
  | [] => .ok ()
  | (role, _) :: rest => do
    kind.checkRole role
    checkRoles kind rest

/-- Split off the extras that follow the last child of another role. -/
def splitTrailing : List (Role × α) → List (Role × α) × List α
  | [] => ([], [])
  | (role, child) :: rest =>
    match splitTrailing rest with
    | ([], trailing) =>
      if role = .extra then ([], child :: trailing) else ([(role, child)], trailing)
    | (kept, trailing) => ((role, child) :: kept, trailing)

@[simp]
theorem items_append (xs ys : List (Role × α)) : items (xs ++ ys) = items xs ++ items ys := by
  simp [items]

@[simp]
theorem items_extras (children : List α) : items (extras children) = [] := by
  simp [extras, items]

/-- Splitting off trailing extras loses no child and changes no order. -/
theorem append_extras_of_splitTrailing (form : List (Role × α)) :
    (splitTrailing form).1 ++ extras (splitTrailing form).2 = form := by
  induction form with
  | nil => rfl
  | cons entry rest ih =>
    obtain ⟨role, child⟩ := entry
    rw [splitTrailing]
    split
    · rename_i trailing heq
      rw [heq] at ih
      split
      · rename_i h
        simp_all [extras]
      · simp_all
    · simp_all

/-- A child put into an empty slot is found there. -/
theorem occupant?_insertSlot {kind : NodeKind} {slot : Slot} {child : α}
    {form : List (Role × α)} (h : isFilled slot form = false) :
    occupant? slot (insertSlot kind slot child form) = some child := by
  induction form with
  | nil => simp [insertSlot, occupant?]
  | cons entry rest ih =>
    simp only [isFilled, List.any_cons, Bool.or_eq_false_iff] at h
    rw [insertSlot]
    split
    · simp [occupant?]
    · simpa [occupant?, List.find?_cons, h.1] using ih h.2

end Form

end ScriptTree
