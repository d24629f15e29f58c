/-!
How deep a line is indented. A unit is one tab or, where blanks count, one group of blanks.
-/

namespace ScriptTree

/-- The depth of a line. -/
structure IndentLevel where
  units : Nat
  /-- Whether the white space is made of whole units only. -/
  exact : Bool
  deriving DecidableEq, Repr

namespace IndentLevel

/-- Measure leading white space. Where blanks do not count, any blank makes the level inexact;
where they do, a group cut short counts as a unit and makes the level inexact. -/
def ofChars (size : Nat) (blanksCount : Bool) (cs : List Char) : IndentLevel :=
  let tabs := cs.count '\t'
  let blanks := cs.length - tabs
  if blanksCount && size != 0 then ⟨tabs + (blanks + size - 1) / size, blanks % size == 0⟩
  else ⟨tabs, blanks == 0⟩

/-- Tabs alone are exact, whatever the size of a group. -/
theorem ofChars_replicate_tab (size : Nat) (blanksCount : Bool) (n : Nat) :
    ofChars size blanksCount (List.replicate n '\t') = ⟨n, true⟩ := by
  unfold ofChars
  simp only [List.count_replicate_self, List.length_replicate, Nat.sub_self, Nat.zero_mod]
  split
  · rename_i h
    have hpos : 0 < size := by simp at h; omega
    simp only [Nat.zero_add, Nat.div_eq_of_lt (Nat.sub_lt hpos Nat.one_pos), Nat.add_zero]
    rfl
  · rfl

end IndentLevel

end ScriptTree
