import ScriptTree.Binary64
import ScriptTree.Reparse.Plan
import ScriptTree.Reparse.Splice

/-!
Bringing a tree up to date with an edited text. Groups of edits are taken up from the end of the
text, so that the places of all groups still to come refer to the text before the edits. Whatever
cannot be done item by item is done by reading the whole text again.
-/

namespace ScriptTree

/-- What was read again. -/
structure ReparseStats where
  /-- Items kept from the old tree. -/
  reused : Nat
  /-- Items read again. -/
  reparsed : Nat
  /-- Whether the whole text was read again. -/
  full : Bool
  deriving DecidableEq, Repr

namespace ReparseStats

/-- The share of reused items in per cent: a quotient that is rounded and then multiplied. -/
def rate (s : ReparseStats) : Binary64 :=
  (Binary64.ofRatio s.reused (s.reused + s.reparsed)).mulNat 100

/-- The share of reused items with one decimal. -/
def rateText (s : ReparseStats) : String :=
  s.rate.toOneDecimal

end ReparseStats

/-- The tree after an attempt to bring it up to date, and how the attempt ended. -/
structure Reparsed where
  tree : Tree
  outcome : Except ParseError ReparseStats

namespace Reparse

/-- Read the whole text again; the tree stays as it is if that fails. -/
def full (config : Config) (tree : Tree) (text : String) : Reparsed :=
  match parse (.ofTree tree) config text with
  | .ok new => ⟨new, .ok ⟨0, new.blockItems, true⟩⟩
  | .error e => ⟨tree, .error e⟩

/-- The first of the candidates that can take up the edits of its group. No candidate is tried
after one that an edit of another group touches. -/
def spliceFirst (config : Config) (tree : Tree) (own foreign : List Edit) :
    List Candidate → Except ParseError (Option (Tree × Nat))
  | [] => .ok none
  | c :: outer =>
    if foreign.any c.touches then .ok none
    else do
      match ← spliceItem config tree c own with
      | some result => return some result
      | none => spliceFirst config tree own foreign outer

/-- Take up groups of edits, the last one first. The edits of the groups already taken up are
`done`, and they gave `count` items. -/
def spliceGroups (config : Config) (text : String) (tree : Tree) (done : List Edit)
    (count : Nat) : List Group → Reparsed
  | [] => ⟨tree, .ok ⟨tree.blockItems - count, count, false⟩⟩
  | group :: earlier =>
    let foreign := earlier.flatMap Group.edits ++ done
    match spliceFirst config tree group.edits foreign group.candidates with
    | .error e => ⟨tree, .error e⟩
    | .ok none => full config tree text
    | .ok (some (tree, more)) =>
      spliceGroups config text tree (group.edits ++ done) (count + more) earlier

end Reparse

/-- Bring a tree up to date with a text that the edits make of its own. Edits that do not make
that text, or of which some lies in no item, have the whole text read again. -/
def reparse (config : Config) (tree : Tree) (text : String) (edits : List Edit) : Reparsed :=
  if edits.isEmpty ∧ tree.text = text then ⟨tree, .ok ⟨tree.blockItems, 0, false⟩⟩
  else
    match EditBatch.ofEdits edits with
    | .error _ => Reparse.full config tree text
    | .ok batch =>
      match batch.apply tree.text, Reparse.plan? config tree batch.edits with
      | .ok applied, some (group :: earlier) =>
        if applied = text then Reparse.spliceGroups config text tree [] 0 (group :: earlier)
        else Reparse.full config tree text
      | _, _ => Reparse.full config tree text

end ScriptTree
