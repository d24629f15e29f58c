import ScriptTree.Proofs.Structure.Climbing
import ScriptTree.Tree.Placement

/-!
# The structure of a tree does not depend on places

What may stand among extras, and what operators ask of their operands, is decided by kinds, roles and
texts. Giving every token its place changes none of them.
-/

namespace ScriptTree

namespace Tree

variable (start : Position) (t : Tree)

@[simp]
theorem kind_placeFrom : (t.placeFrom start).1.kind = t.kind := by
  cases t <;> simp [placeFrom, kind]

@[simp]
theorem isLines_placeFrom : (t.placeFrom start).1.isLines = t.isLines := by
  simp [isLines, nodeKind?]

@[simp]
theorem leafText?_placeFrom : (t.placeFrom start).1.leafText? = t.leafText? := by
  cases t <;> simp [placeFrom, leafText?]

@[simp]
theorem operator?_placeFrom : (t.placeFrom start).1.operator? = t.operator? := by
  simp [operator?, leafKind?]

end Tree

namespace Allowance

variable (a : Allowance) (start : Position) (role : Role) (t : Tree)

@[simp]
theorem admits_placeFrom : a.admits (t.placeFrom start).1 = a.admits t := by
  simp [admits, Tree.isPlainExtra, Tree.isTrivia, Tree.isInvalid, Tree.isOperand, Tree.keyword?,
    Tree.leafKind?]

@[simp]
theorem next_placeFrom : a.next (role, (t.placeFrom start).1) = a.next (role, t) := by
  cases role <;>
    simp [next, afterExtra, Tree.isLostWord, Tree.isInvalid, Tree.keyword?, Tree.leafKind?]

end Allowance

namespace Form

variable {form : List Entry}

@[simp]
theorem extrasFit_placeForm (a : Allowance) (start : Position) (form : List Entry) :
    extrasFit a (Tree.placeForm start form).1 = extrasFit a form := by
  induction form generalizing a start with
  | nil => rfl
  | cons entry rest ih =>
    obtain ⟨role, t⟩ := entry
    simp [Tree.placeForm, extrasFit_cons, ih]

/-- The occupant of a slot is given a place. -/
theorem occupant?_placeForm (start : Position) (slot : Slot) (form : List Entry) :
    ∃ place, occupant? slot (Tree.placeForm start form).1 =
      (occupant? slot form).map fun t => (t.placeFrom place).1 := by
  induction form generalizing start with
  | nil => exact ⟨start, rfl⟩
  | cons entry rest ih =>
    obtain ⟨role, t⟩ := entry
    by_cases hrole : role = .slot slot
    · exact ⟨start, by simp [Tree.placeForm, hrole]⟩
    · simpa [Tree.placeForm, hrole] using ih (t.placeFrom start).2

@[simp]
theorem isFilled_placeForm (start : Position) (slot : Slot) (form : List Entry) :
    isFilled slot (Tree.placeForm start form).1 = isFilled slot form := by
  obtain ⟨place, hplace⟩ := occupant?_placeForm start slot form
  rw [isFilled_eq_isSome, isFilled_eq_isSome, hplace, Option.isSome_map]

@[simp]
theorem operator?_placeForm (start : Position) (form : List Entry) :
    operator? (Tree.placeForm start form).1 = operator? form := by
  obtain ⟨place, hplace⟩ := occupant?_placeForm start .operator form
  rw [operator?, operator?, hplace, Option.bind_map]
  exact congrArg _ (funext fun t => Tree.operator?_placeFrom place t)

/-- The children are given places. -/
theorem exists_of_mem_placeForm {start : Position} {entry : Entry}
    (h : entry ∈ (Tree.placeForm start form).1) :
    ∃ old ∈ form, old.1 = entry.1 ∧ ∃ place, entry.2 = (old.2.placeFrom place).1 := by
  induction form generalizing start with
  | nil => cases h
  | cons first rest ih =>
    obtain ⟨role, t⟩ := first
    rw [Tree.placeForm] at h
    rcases List.mem_cons.1 h with rfl | h
    · exact ⟨_, List.mem_cons_self, rfl, start, rfl⟩
    · obtain ⟨old, hold, hrole, place, hplace⟩ := ih h
      exact ⟨old, List.mem_cons_of_mem _ hold, hrole, place, hplace⟩

end Form

namespace Tree

mutual

/-- The operators at the left end stay the same. -/
theorem leftRanks_placeFrom (start : Position) (t : Tree) :
    (t.placeFrom start).1.leftRanks = t.leftRanks := by
  match t with
  | .leaf kind s extent => simp [placeFrom, leftRanks]
  | .node kind form extent =>
    have hform (slot : Slot) := leftRanksAt_placeForm start slot form
    cases kind <;> simp [placeFrom, leftRanks, hform]

theorem leftRanksAt_placeForm (start : Position) (slot : Slot) (form : List Entry) :
    leftRanksAt slot (placeForm start form).1 = leftRanksAt slot form := by
  match form with
  | [] => rfl
  | (role, t) :: rest =>
    have ht := leftRanks_placeFrom start t
    have hrest := leftRanksAt_placeForm (t.placeFrom start).2 slot rest
    simp [placeForm, leftRanksAt, ht, hrest]

end

mutual

/-- What the operators at the right end asked for stays the same. -/
theorem rightMinima_placeFrom (start : Position) (t : Tree) :
    (t.placeFrom start).1.rightMinima = t.rightMinima := by
  match t with
  | .leaf kind s extent => simp [placeFrom, rightMinima]
  | .node kind form extent =>
    have hform (slot : Slot) := rightMinimaAt_placeForm start slot form
    cases kind <;> simp [placeFrom, rightMinima, hform]

theorem rightMinimaAt_placeForm (start : Position) (slot : Slot) (form : List Entry) :
    rightMinimaAt slot (placeForm start form).1 = rightMinimaAt slot form := by
  match form with
  | [] => rfl
  | (role, t) :: rest =>
    have ht := rightMinima_placeFrom start t
    have hrest := rightMinimaAt_placeForm (t.placeFrom start).2 slot rest
    simp [placeForm, rightMinimaAt, ht, hrest]

end

attribute [simp] leftRanks_placeFrom rightMinima_placeFrom

end Tree

namespace Form

variable {kind : NodeKind} {form : List Entry}

/-- Operands that bind in order do so wherever they stand. -/
theorem BindsInOrder.placeForm (h : BindsInOrder kind form) (start : Position) :
    BindsInOrder kind (Tree.placeForm start form).1 := by
  have hoccupant {slot : Slot} {t : Tree} (ht : occupant? slot form = some t) :
      ∃ place, occupant? slot (Tree.placeForm start form).1 = some (t.placeFrom place).1 := by
    obtain ⟨place, hplace⟩ := occupant?_placeForm start slot form
    exact ⟨place, by rw [hplace, ht]; rfl⟩
  have hoptional {slot : Slot} {least : Nat}
      (hranks : ∀ t ∈ occupant? slot form, ∀ rank ∈ t.leftRanks, least ≤ rank) :
      ∀ t ∈ occupant? slot (Tree.placeForm start form).1, ∀ rank ∈ t.leftRanks, least ≤ rank := by
    obtain ⟨place, hplace⟩ := occupant?_placeForm start slot form
    intro t ht
    rw [hplace, Option.mem_def, Option.map_eq_some_iff] at ht
    obtain ⟨old, hold, rfl⟩ := ht
    simpa using hranks old hold
  cases kind with
  | dualOperator =>
    obtain ⟨op, precedence, left, right, hop, hprecedence, hleft, hright, hminima, hranks⟩ := h
    obtain ⟨placeL, hplaceL⟩ := hoccupant hleft
    obtain ⟨placeR, hplaceR⟩ := hoccupant hright
    exact ⟨op, precedence, _, _, by simpa using hop, hprecedence, hplaceL, hplaceR,
      by simpa using hminima, by simpa using hranks⟩
  | singleOperator =>
    obtain ⟨op, precedence, operand, hop, hprecedence, hoperand, hranks⟩ := h
    obtain ⟨place, hplace⟩ := hoccupant hoperand
    exact ⟨op, precedence, _, by simpa using hop, hprecedence, hplace, by simpa using hranks⟩
  | await =>
    obtain ⟨operand, hoperand, hranks⟩ := h
    obtain ⟨place, hplace⟩ := hoccupant hoperand
    exact ⟨_, hplace, by simpa using hranks⟩
  | ternary =>
    obtain ⟨value, hvalue, hminima, hcondition, hfalse⟩ := h
    obtain ⟨place, hplace⟩ := hoccupant hvalue
    exact ⟨_, hplace, by simpa using hminima, hoptional hcondition, hoptional hfalse⟩
  | _ => trivial

end Form

/-- What holds of every node holds of it after the tokens were given places, if places do not
matter for it. -/
theorem Tree.EveryNode.placeFrom {P : NodeKind → List Entry → Prop} {t : Tree}
    (h : t.EveryNode P)
    (hP : ∀ {kind form} (start : Position), P kind form → P kind (placeForm start form).1)
    (start : Position) : (t.placeFrom start).1.EveryNode P := by
  induction h generalizing start with
  | leaf kind text extent => exact .leaf _ _ _
  | node extent own children ih =>
    rw [Tree.placeFrom]
    refine .node _ (hP start own) fun entry hentry => ?_
    obtain ⟨old, hold, -, place, hplace⟩ := Form.exists_of_mem_placeForm hentry
    rw [hplace]
    exact ih old hold place

end ScriptTree
