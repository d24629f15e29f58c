import ScriptTree.Tree.Basic

/-!
Chains of `if` and `elif`: the last link of the chain is where a further branch belongs. A chain
that ends with `else` has no place for one.
-/

namespace ScriptTree.Branch

mutual

/-- Change the form of the last `if` in a chain, unless the chain is closed by an `else`. -/
def updateTail? (change : List Entry → List Entry) : Tree → Option Tree
  | .node .ifStatement form extent =>
    match updateElse? change form with
    | some (some form) => some (.node .ifStatement form extent)
    | some none => none
    | none => some (.node .ifStatement (change form) extent)
  | _ => none

/-- Change the chain that goes on in the `else` slot of a form. The outer `none` says that the
slot is empty, the inner one that the chain there is closed. -/
def updateElse? (change : List Entry → List Entry) :
    List Entry → Option (Option (List Entry))
  | [] => none
  | (role, t) :: rest =>
    if role = .slot .elseBranch then
      some ((updateTail? change t).map fun t => (role, t) :: rest)
    else (updateElse? change rest).map (·.map ((role, t) :: ·))

end

/-- Change the chain in the last item of a list; `none` if the last item is no open chain. -/
def updateLast? (change : List Entry → List Entry) : List Entry → Option (List Entry)
  | [] => none
  | (role, t) :: rest =>
    if rest.any fun entry => entry.1 == .item then
      (updateLast? change rest).map ((role, t) :: ·)
    else if role = .item then (updateTail? change t).map fun t => (role, t) :: rest
    else (updateLast? change rest).map ((role, t) :: ·)

end ScriptTree.Branch
