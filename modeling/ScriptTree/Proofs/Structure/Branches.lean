import ScriptTree.Proofs.Branches
import ScriptTree.Proofs.Structure.Orderly

/-!
# Chains of branches stay orderly

A further branch goes to a chain that has a place for it, and so do the lines before the branch. These
lines leave the place open.
-/

namespace ScriptTree.Branch

variable {change : List Entry → List Entry} {a : Allowance} {t t' : Tree} {form form' : List Entry}

mutual

/-- A chain is changed exactly if it has a place for a further branch. -/
theorem isSome_updateTail? (change : List Entry → List Entry) (t : Tree) :
    (updateTail? change t).isSome = isOpen t := by
  unfold updateTail?
  split
  · rename_i form extent
    change _ = isOpenAt form
    have helse := isSome_updateElse? change form
    revert helse
    cases updateElse? change form with
    | none => exact fun helse => helse
    | some changed => cases changed <;> exact id
  · rename_i hother
    unfold isOpen
    split
    · exact absurd rfl (hother _ _)
    · rfl

/-- A link of a chain is changed in its `else`, or has none. -/
theorem isSome_updateElse? (change : List Entry → List Entry) (form : List Entry) :
    ((updateElse? change form).getD (some [])).isSome = isOpenAt form := by
  match form with
  | [] => rfl
  | (role, t) :: rest =>
    rw [updateElse?, isOpenAt]
    split
    · simpa using isSome_updateTail? change t
    · have hrest := isSome_updateElse? change rest
      revert hrest
      cases updateElse? change rest with
      | none => exact id
      | some changed => cases changed <;> exact id

end

/-- A form without an `else` has a place for one. -/
theorem isOpenAt_of_notMem (h : .elseBranch ∉ Form.slots form) : isOpenAt form = true := by
  induction form with
  | nil => rfl
  | cons entry rest ih =>
    obtain ⟨role, t⟩ := entry
    simp only [Form.slots_cons, List.mem_append, not_or] at h
    have hrole : role ≠ .slot .elseBranch := by
      rintro rfl
      simp at h
    rw [isOpenAt, if_neg hrole]
    exact ih h.2

/-- Where nothing is changed in an `else` there is none. -/
theorem notMem_of_updateElse? (h : updateElse? change form = none) :
    .elseBranch ∉ Form.slots form := by
  induction form with
  | nil => simp
  | cons entry rest ih =>
    obtain ⟨role, t⟩ := entry
    rw [updateElse?] at h
    split at h
    · cases h
    · rename_i hrole
      have hrest := ih (Option.map_eq_none_iff.1 h)
      cases role with
      | slot slot => simpa [hrest] using fun heq => hrole (by rw [heq])
      | item => simpa using hrest
      | extra => simpa using hrest

/-- A change of the last link of a chain keeps the forms of links plain, and leaves the place for a
further branch open. -/
structure Extends (change : List Entry → List Entry) : Prop where
  plain : ∀ {form}, Form.Plain .ifStatement form → Form.Plain .ifStatement (change form)
  isOpen : ∀ {form}, .elseBranch ∉ Form.slots form → .elseBranch ∉ Form.slots (change form)

/-- Tidy extras may be added at the end of a chain. -/
theorem extends_extras {tokens : List Tree} (h : Form.Tidy {} (Form.extras tokens)) :
    Extends (· ++ Form.extras tokens) :=
  ⟨fun hform => hform.extras h, fun helse => by simpa using helse⟩

mutual

/-- A chain of regular nodes is one after a change. -/
theorem regular_updateTail?
    (hchange : ∀ {form}, Form.Plain .ifStatement form → Form.Plain .ifStatement (change form))
    (t : Tree) (ht : t.Regular) {t' : Tree} (h : updateTail? change t = some t') :
    t'.Regular := by
  match t with
  | .leaf kind text extent => cases h
  | .node kind form extent =>
    cases ht with
    | node _ own children =>
      have hform : Form.Plain kind form := ⟨⟨own.fit, own.loose, children⟩, own.suits⟩
      have hnode {form' : List Entry} (hform' : Form.Plain .ifStatement form') :
          (Tree.node .ifStatement form' extent).Regular :=
        .node _ ⟨⟨hform'.fit, trivial, hform'.suits⟩, nofun, hform'.loose⟩ hform'.regular
      obtain ⟨rfl, ⟨changed, helse, rfl⟩ | ⟨-, rfl⟩⟩ := updateTail?_node h
      · obtain ⟨htidy, hroles⟩ := tidy_updateElse? hchange form hform.toTidy helse
        exact hnode ⟨htidy, hform.suits.of_roles hroles⟩
      · exact hnode (hchange hform)

/-- The form of a link is tidy after a change in its `else`, and the children keep their roles. -/
theorem tidy_updateElse?
    (hchange : ∀ {form}, Form.Plain .ifStatement form → Form.Plain .ifStatement (change form))
    {a : Allowance} (form : List Entry) (hform : Form.Tidy a form) {form' : List Entry}
    (h : updateElse? change form = some (some form')) :
    Form.Tidy a form' ∧ form'.map Prod.fst = form.map Prod.fst := by
  match form with
  | [] => cases h
  | (role, t) :: rest =>
    obtain ⟨hfirst, ht, hrest⟩ := Form.tidy_cons.1 hform
    obtain ⟨rfl, t', ht', rfl⟩ | ⟨-, changed, hchanged, rfl⟩ := updateElse?_cons h
    · exact ⟨Form.tidy_cons.2 ⟨.inl nofun, regular_updateTail? hchange t ht ht', hrest⟩, rfl⟩
    · obtain ⟨htidy, hroles⟩ := tidy_updateElse? hchange rest hrest hchanged
      exact ⟨Form.tidy_cons.2 ⟨hfirst, ht, htidy⟩, congrArg (role :: ·) hroles⟩

end

mutual

/-- A chain has a place for a further branch after a change that leaves it open. -/
theorem isOpen_updateTail? (hchange : Extends change) (t : Tree) {t' : Tree}
    (h : updateTail? change t = some t') : isOpen t' = true := by
  match t with
  | .leaf kind text extent => cases h
  | .node kind form extent =>
    obtain ⟨rfl, ⟨changed, helse, rfl⟩ | ⟨helse, rfl⟩⟩ := updateTail?_node h
    · exact isOpenAt_updateElse? hchange form helse
    · exact isOpenAt_of_notMem (hchange.isOpen (notMem_of_updateElse? helse))

/-- A link has a place for a further branch after a change in its `else`. -/
theorem isOpenAt_updateElse? (hchange : Extends change) (form : List Entry) {form' : List Entry}
    (h : updateElse? change form = some (some form')) : isOpenAt form' = true := by
  match form with
  | [] => cases h
  | (role, t) :: rest =>
    obtain ⟨hrole, t', ht', rfl⟩ | ⟨hrole, changed, hchanged, rfl⟩ := updateElse?_cons h
    · rw [isOpenAt, if_pos hrole]
      exact isOpen_updateTail? hchange t ht'
    · rw [isOpenAt, if_neg hrole]
      exact isOpenAt_updateElse? hchange rest hchanged

end

/-! ### The last item of a list -/

/-- A list without items, or the last one of them. -/
theorem exists_last_item (form : List Entry) : Form.items form = [] ∨
    ∃ (before : List Entry) (t : Tree) (after : List Entry),
      form = before ++ (.item, t) :: after ∧ Form.items after = [] := by
  induction form with
  | nil => exact .inl rfl
  | cons entry rest ih =>
    obtain ⟨role, t⟩ := entry
    rcases ih with hnone | ⟨before, last, after, rfl, hafter⟩
    · by_cases hrole : role = .item
      · subst hrole
        exact .inr ⟨[], t, rest, rfl, hnone⟩
      · exact .inl (by simpa [Form.items, hrole] using hnone)
    · exact .inr ⟨(role, t) :: before, last, after, rfl, hafter⟩

/-- Changing the last chain of a list is changing its last item. -/
theorem updateLast?_cases (h : updateLast? change form = some form') :
    ∃ (before : List Entry) (t t' : Tree) (after : List Entry),
      form = before ++ (.item, t) :: after ∧ form' = before ++ (.item, t') :: after ∧
        Form.items after = [] ∧ updateTail? change t = some t' := by
  rcases exists_last_item form with hnone | ⟨before, t, after, rfl, hafter⟩
  · rw [updateLast?_of_items_eq_nil hnone] at h
    cases h
  · rw [updateLast?_append before t hafter] at h
    obtain ⟨t', ht', rfl⟩ := Option.map_eq_some_iff.1 h
    exact ⟨before, t, t', after, rfl, rfl, hafter, ht'⟩

theorem endsOpen_append (before : List Entry) (t : Tree) {after : List Entry}
    (hafter : Form.items after = []) :
    endsOpen (before ++ (.item, t) :: after) = isOpen t := by
  have hitems : Form.items (before ++ (.item, t) :: after) = Form.items before ++ [t] := by
    rw [Form.items_append, Form.items_cons_item, hafter]
  simp [endsOpen, hitems]

/-- Extras behind it do not matter. -/
@[simp]
theorem endsOpen_extras (form : List Entry) (tokens : List Tree) :
    endsOpen (form ++ Form.extras tokens) = endsOpen form := by
  simp [endsOpen]

/-- What is known of a list whose last chain was changed. -/
structure Updated (form form' : List Entry) : Prop where
  tidy : Form.Tidy {} form'
  slots : Form.slots form' = Form.slots form

/-- The last chain of a list is changed if it has a place for a further branch. -/
theorem updateLast?_eq_some
    (hchange : ∀ {form}, Form.Plain .ifStatement form → Form.Plain .ifStatement (change form))
    (hform : Form.Tidy {} form) (h : updateLast? change form = some form') :
    Updated form form' := by
  obtain ⟨before, t, t', after, rfl, rfl, -, ht'⟩ := updateLast?_cases h
  obtain ⟨hbefore, hrest⟩ := Form.tidy_append.1 hform
  obtain ⟨_, ht, hmore⟩ := Form.tidy_cons.1 hrest
  exact ⟨Form.tidy_append.2 ⟨hbefore, Form.tidy_cons.2
    ⟨.inl nofun, regular_updateTail? hchange t ht ht', hmore⟩⟩, by simp⟩

/-- The last chain still has a place for a further branch after a change that leaves it open. -/
theorem endsOpen_updateLast? (hchange : Extends change) (h : updateLast? change form = some form') :
    endsOpen form' = true := by
  obtain ⟨before, t, t', after, rfl, rfl, hafter, ht'⟩ := updateLast?_cases h
  rw [endsOpen_append before t' hafter]
  exact isOpen_updateTail? hchange t ht'

/-- A chain with a place for a further branch is changed. -/
theorem isSome_updateLast? (change : List Entry → List Entry) (h : endsOpen form = true) :
    (updateLast? change form).isSome := by
  rcases exists_last_item form with hnone | ⟨before, t, after, rfl, hafter⟩
  · rw [endsOpen, hnone] at h
    cases h
  · rw [updateLast?_append before t hafter, Option.isSome_map, isSome_updateTail?,
      ← endsOpen_append before t hafter]
    exact h

end ScriptTree.Branch
