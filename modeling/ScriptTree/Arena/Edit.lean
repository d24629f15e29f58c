import ScriptTree.Arena.Alloc

/-!
Changing the structure of trees in an arena. A token is taken out of the form in which it stands
before it is put into another one. Every operation returns the arena together with its outcome,
because the arena exists whether the operation is refused or not.
-/

namespace ScriptTree.Arena

/-- The form without the first entry of a token. -/
def dropEntry (token : Nat) (form : List (Role × Nat)) : List (Role × Nat) :=
  form.eraseP fun entry => entry.2 == token

/-- Take a token out of its parent's form; returns the role it had there. -/
def detach (a : Arena) (token : Nat) : Arena × Option Role :=
  match a.parent? token with
  | none => (a, none)
  | some parent =>
    let role := a.role? token
    ((a.setParent token none).updateForm parent (dropEntry token), role)

/-- Take a token out of its parent's form, which it has to have. -/
def remove (a : Arena) (token : Nat) : Arena × Except TokenError Role :=
  match a.detach token with
  | (a, some role) => (a, .ok role)
  | (a, none) => (a, .error (.detached token))

/-- The kind of a node under which a token may be put in a role. -/
def checkAttach (a : Arena) (node token : Nat) (role : Role) : Except TokenError NodeKind :=
  match a.nodeKind? node with
  | none => .error (.notANode node)
  | some kind =>
    if node = token ∨ a.isAncestor token node then .error (.cycle node token)
    else ((kind.checkRole role).mapError .misfit).map fun _ => kind

/-- Put a token that stands in no form into a node's form, and make the node its parent. -/
def attach (a : Arena) (node token : Nat)
    (change : List (Role × Nat) → List (Role × Nat)) : Arena :=
  (a.updateForm node change).setParent token (some node)

/-- Put a token at the end of a node's form. -/
def push (a : Arena) (node token : Nat) (role : Role) : Arena × Except TokenError Unit :=
  match a.checkAttach node token role with
  | .error e => (a, .error e)
  | .ok _ =>
    let append (_ : Unit) : Arena × Except TokenError Unit :=
      ((a.detach token).1.attach node token (· ++ [(role, token)]), .ok ())
    match role with
    | .slot slot =>
      if (a.occupant? node slot).isSome then (a, .error (.slotOccupied node slot))
      else append ()
    | _ => append ()

/-- Put a token into a slot; returns the former occupant, which stands in no form then. -/
def setSlot (a : Arena) (node : Nat) (slot : Slot) (token : Nat) :
    Arena × Except TokenError (Option Nat) :=
  match a.checkAttach node token (.slot slot) with
  | .error e => (a, .error e)
  | .ok kind =>
    let a := (a.detach token).1
    match Form.replaceSlot? slot token (a.form node) with
    | some (previous, form) =>
      ((a.setParent previous none).attach node token fun _ => form, .ok (some previous))
    | none => (a.attach node token (Form.insertSlot kind slot token), .ok none)

/-- Empty a slot; returns the former occupant. -/
def clearSlot (a : Arena) (node : Nat) (slot : Slot) : Arena × Option Nat :=
  match a.occupant? node slot with
  | none => (a, none)
  | some token => ((a.detach token).1, some token)

/-- Put entries before or after the entry of a token. -/
def insertBeside (anchor : Nat) (after : Bool) (entry : Role × Nat) :
    List (Role × Nat) → List (Role × Nat)
  | [] => []
  | other :: rest =>
    if other.2 = anchor then
      if after then other :: entry :: rest else entry :: other :: rest
    else other :: insertBeside anchor after entry rest

/-- Put a token next to another one. Next to an item it becomes an item, otherwise an extra. -/
def insertSibling (a : Arena) (anchor token : Nat) (after : Bool) :
    Arena × Except TokenError Unit :=
  match a.parent? anchor, a.role? anchor with
  | some parent, some anchorRole =>
    let role := anchorRole.beside
    match a.checkAttach parent token role with
    | .error e => (a, .error e)
    | .ok _ =>
      let a := (a.detach token).1
      if (a.children parent).contains anchor then
        (a.attach parent token (insertBeside anchor after (role, token)), .ok ())
      else (a, .error (.detached anchor))
  | _, _ => (a, .error (.detached anchor))

/-- Put a token right before another one. -/
def insertBefore (a : Arena) (anchor token : Nat) : Arena × Except TokenError Unit :=
  a.insertSibling anchor token false

/-- Put a token right after another one. -/
def insertAfter (a : Arena) (anchor token : Nat) : Arena × Except TokenError Unit :=
  a.insertSibling anchor token true

/-- Put a token into the place of another one, which stands in no form then. -/
def replace (a : Arena) (old new : Nat) : Arena × Except TokenError Unit :=
  match a.parent? old with
  | none => (a, .error (.detached old))
  | some parent =>
    if new = old then (a, .ok ())
    else
      match a.role? old with
      | none => (a, .error (.detached old))
      | some role =>
        if new = parent ∨ a.isAncestor new parent then (a, .error (.cycle parent new))
        else
          let a := (a.detach new).1
          let substitute (entry : Role × Nat) : Role × Nat :=
            if entry.2 = old then (role, new) else entry
          ((a.setParent old none).attach parent new (List.map substitute), .ok ())

/-- Take the extras after the last other child of a node out of its form; returns them. -/
def detachTrailingExtras (a : Arena) (node : Nat) : Arena × List Nat :=
  let trailing := (Form.splitTrailing (a.form node)).2
  (trailing.foldl (fun a token => (a.detach token).1) a, trailing)

end ScriptTree.Arena
