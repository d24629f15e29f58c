import ScriptTree.Proofs.Outcome
import ScriptTree.Tree.Basic

/-!
# Forms that grow at their end

While a node is being read, its slots are filled in the order in which they are declared. A child
that is put into a slot then becomes the last entry of the form, and no text changes its place.
-/

namespace ScriptTree

/-- The slot that a role names. -/
def Role.slot? : Role → Option Slot
  | .slot place => some place
  | _ => none

@[simp]
theorem Role.slot?_slot (slot : Slot) : (Role.slot slot).slot? = some slot := rfl

@[simp]
theorem Role.slot?_item : Role.item.slot? = none := rfl

@[simp]
theorem Role.slot?_extra : Role.extra.slot? = none := rfl

namespace Form

variable {α : Type}

/-- The filled slots, in text order. -/
def slots (form : List (Role × α)) : List Slot :=
  form.filterMap fun entry => entry.1.slot?

@[simp]
theorem slots_nil : slots ([] : List (Role × α)) = [] := rfl

@[simp]
theorem slots_append (xs ys : List (Role × α)) : slots (xs ++ ys) = slots xs ++ slots ys := by
  simp [slots]

@[simp]
theorem slots_cons (role : Role) (child : α) (rest : List (Role × α)) :
    slots ((role, child) :: rest) = role.slot?.toList ++ slots rest := by
  cases h : role.slot? <;> simp [slots, h]

@[simp]
theorem extras_nil : extras ([] : List α) = [] := rfl

@[simp]
theorem extras_cons (child : α) (rest : List α) :
    extras (child :: rest) = (.extra, child) :: extras rest := rfl

@[simp]
theorem extras_append (xs ys : List α) : extras (xs ++ ys) = extras xs ++ extras ys := by
  simp [extras]

@[simp]
theorem slots_extras (children : List α) : slots (extras children) = [] := by
  induction children with
  | nil => rfl
  | cons child rest ih => simp [ih]

theorem items_cons_item (child : α) (rest : List (Role × α)) :
    items ((.item, child) :: rest) = child :: items rest := by
  simp [items]

/-- A child is an extra when it stands among extras. -/
theorem role_of_mem_extras {children : List α} {entry : Role × α} (h : entry ∈ extras children) :
    entry.1 = .extra := by
  obtain ⟨child, _, rfl⟩ := List.mem_map.1 h
  rfl

/-- A slot is filled exactly when it is one of the filled slots. -/
theorem isFilled_iff {slot : Slot} {form : List (Role × α)} :
    isFilled slot form ↔ slot ∈ slots form := by
  simp only [isFilled, slots, List.any_eq_true, beq_iff_eq, List.mem_filterMap]
  refine exists_congr fun entry => and_congr_right fun _ => ?_
  cases entry.1 <;> simp

/-- A slot that is empty holds nothing. -/
theorem occupant?_eq_none_iff {slot : Slot} {form : List (Role × α)} :
    occupant? slot form = none ↔ slot ∉ slots form := by
  rw [← isFilled_iff, isFilled, List.any_eq_true, ← List.find?_isSome, occupant?,
    Option.map_eq_none_iff, Option.not_isSome_iff_eq_none]

/-- The slots that have to stand after a slot are declared after it. -/
theorem standsAfter_slot {kind : NodeKind} {slot other : Slot}
    (h : standsAfter kind slot (.slot other) = true) :
    other ∈ kind.slots ∧ ∃ place otherPlace, kind.slotIndex? slot = some place ∧
      kind.slotIndex? other = some otherPlace ∧ place < otherPlace := by
  simp only [standsAfter] at h
  split at h
  · rename_i place otherPlace hslot hother
    refine ⟨?_, place, otherPlace, hslot, hother, of_decide_eq_true h⟩
    by_cases hmem : other ∈ kind.slots
    · exact hmem
    · simp [NodeKind.slotIndex?, List.idxOf?_eq_none_iff.2 hmem] at hother
  · cases h

/-- No child has to stand after the slot, and the slot itself is empty. -/
def Appends (kind : NodeKind) (slot : Slot) (form : List (Role × α)) : Prop :=
  ∀ entry ∈ form, entry.1 ≠ .slot slot ∧ standsAfter kind slot entry.1 = false

@[simp]
theorem appends_nil (kind : NodeKind) (slot : Slot) :
    Appends kind slot ([] : List (Role × α)) := by
  simp [Appends]

/-- A child put where nothing stands after it becomes the last one. -/
theorem setSlot_of_appends {kind : NodeKind} {slot : Slot} (child : α) {form : List (Role × α)}
    (h : Appends kind slot form) :
    setSlot kind slot child form = form ++ [(.slot slot, child)] := by
  have hreplace : replaceSlot? slot child form = none := by
    induction form with
    | nil => rfl
    | cons entry rest ih =>
      have hentry := h entry List.mem_cons_self
      have hrest : Appends kind slot rest := fun e he => h e (List.mem_cons_of_mem _ he)
      simp [replaceSlot?, hentry.1, ih hrest]
  have hinsert : insertSlot kind slot child form = form ++ [(.slot slot, child)] := by
    induction form with
    | nil => rfl
    | cons entry rest ih =>
      have hentry := h entry List.mem_cons_self
      have hrest : Appends kind slot rest := fun e he => h e (List.mem_cons_of_mem _ he)
      simp only [replaceSlot?, hentry.1, if_false, Option.map_eq_none_iff] at hreplace
      simp [insertSlot, hentry.2, ih hrest hreplace]
  simp [setSlot, hreplace, hinsert]

/-- A declared slot takes a child at the end of the form when nothing stands after it. -/
theorem place_of_appends {kind : NodeKind} {slot : Slot} (child : α) {form : List (Role × α)}
    (hkind : kind.declares slot) (h : Appends kind slot form) :
    place kind slot child form = .ok (form ++ [(.slot slot, child)]) := by
  simp [place, NodeKind.checkRole, hkind, setSlot_of_appends child h, bind, Except.bind, pure,
    Except.pure]

/-- A kind that holds items takes one at the end of the form. -/
theorem addItem_of_hasItems {kind : NodeKind} (child : α) (form : List (Role × α))
    (hkind : kind.hasItems) : addItem kind child form = .ok (form ++ [(.item, child)]) := by
  simp [addItem, NodeKind.checkRole, hkind, bind, Except.bind, pure, Except.pure]

/-- A form without slots and items holds nothing but extras. -/
theorem eq_extras_of_slots {form : List (Role × α)} (hslots : slots form = [])
    (hitems : ∀ entry ∈ form, entry.1 ≠ .item) : form = extras (form.map Prod.snd) := by
  induction form with
  | nil => rfl
  | cons entry rest ih =>
    obtain ⟨role, child⟩ := entry
    rw [slots_cons, List.append_eq_nil_iff] at hslots
    have hrest := ih hslots.2 fun e he => hitems e (List.mem_cons_of_mem _ he)
    have hrole : role = .extra := by
      cases role with
      | slot slot => cases hslots.1
      | item => exact absurd rfl (hitems _ List.mem_cons_self)
      | extra => rfl
    rw [List.map_cons, extras_cons, ← hrest, hrole]

/-- The extras after the last child of another role are split off. -/
theorem splitTrailing_append_extras {role : Role} (hrole : role ≠ .extra) (child : α)
    (before : List (Role × α)) (trailing : List α) :
    splitTrailing (before ++ (role, child) :: extras trailing)
      = (before ++ [(role, child)], trailing) := by
  have hextras : splitTrailing (extras trailing) = ([], trailing) := by
    induction trailing with
    | nil => rfl
    | cons t rest ih => simp [splitTrailing, ih]
  induction before with
  | nil => simp [splitTrailing, hextras, hrole]
  | cons entry rest ih =>
    obtain ⟨first, rest', hfirst⟩ := List.exists_cons_of_ne_nil
      (List.append_ne_nil_of_right_ne_nil rest (List.cons_ne_nil (role, child) []))
    rw [hfirst] at ih
    simp [splitTrailing, ih, hfirst]

/-- What is left when trailing extras are split off does not end with an extra. -/
theorem ne_extra_of_splitTrailing {form before : List (Role × α)} {role : Role} {child : α}
    (h : (splitTrailing form).1 = before ++ [(role, child)]) : role ≠ .extra := by
  induction form generalizing before with
  | nil => simp [splitTrailing] at h
  | cons entry rest ih =>
    obtain ⟨first, t⟩ := entry
    rcases hrest : splitTrailing rest with ⟨kept, trailing⟩
    simp only [splitTrailing, hrest] at h ih
    cases kept with
    | nil =>
      dsimp only at h
      split at h
      · simp at h
      · rename_i hfirst
        cases before with
        | nil =>
          obtain ⟨rfl, _⟩ := by simpa using h
          exact hfirst
        | cons entry' before' => simp at h
    | cons entry' kept' =>
      cases before with
      | nil => simp at h
      | cons entry'' before' => exact ih (List.cons.inj h).2

/-- Every child is an extra or fills a slot that the kind declares. -/
def Declared (kind : NodeKind) (form : List (Role × α)) : Prop :=
  ∀ entry ∈ form, entry.1 = .extra ∨ ∃ slot, entry.1 = .slot slot ∧ kind.declares slot

@[simp]
theorem declared_nil (kind : NodeKind) : Declared kind ([] : List (Role × α)) := by
  simp [Declared]

@[simp]
theorem declared_cons_slot {kind : NodeKind} {slot : Slot} {child : α}
    {rest : List (Role × α)} :
    Declared kind ((.slot slot, child) :: rest) ↔ kind.declares slot ∧ Declared kind rest := by
  simp [Declared]

@[simp]
theorem declared_append {kind : NodeKind} {xs ys : List (Role × α)} :
    Declared kind (xs ++ ys) ↔ Declared kind xs ∧ Declared kind ys := by
  simp [Declared, or_imp, forall_and]

@[simp]
theorem declared_extras (kind : NodeKind) (children : List α) :
    Declared kind (extras children) := by
  intro entry hentry
  exact .inl (role_of_mem_extras hentry)

/-- A form with declared slots and no items passes the check of its roles. -/
theorem checkRoles_of_declared {kind : NodeKind} {form : List (Role × α)}
    (h : Declared kind form) : checkRoles kind form = .ok () := by
  induction form with
  | nil => rfl
  | cons entry rest ih =>
    obtain ⟨role, child⟩ := entry
    have hrest := ih fun e he => h e (List.mem_cons_of_mem _ he)
    obtain hrole | ⟨slot, hrole, hkind⟩ := h (role, child) List.mem_cons_self
    · obtain rfl : role = .extra := hrole
      simpa [checkRoles, NodeKind.checkRole, bind, Except.bind] using hrest
    · obtain rfl : role = .slot slot := hrole
      simpa [checkRoles, NodeKind.checkRole, hkind, bind, Except.bind] using hrest

end Form

namespace Tree

@[simp]
theorem textOfTokens_nil : textOfTokens [] = "" := by
  simp [textOfTokens, Form.extras]

@[simp]
theorem textOfTokens_cons (t : Tree) (rest : List Tree) :
    textOfTokens (t :: rest) = t.text ++ textOfTokens rest := by
  simp [textOfTokens, Form.extras]

@[simp]
theorem textOfTokens_append (xs ys : List Tree) :
    textOfTokens (xs ++ ys) = textOfTokens xs ++ textOfTokens ys := by
  simp [textOfTokens]

@[simp]
theorem textOfForm_extras (tokens : List Tree) :
    textOfForm (Form.extras tokens) = textOfTokens tokens := rfl

/-- The text of a form is that of its children. -/
theorem textOfTokens_children (form : List Entry) :
    textOfTokens (form.map Prod.snd) = textOfForm form := by
  induction form with
  | nil => simp
  | cons entry rest ih =>
    obtain ⟨role, t⟩ := entry
    simp [ih]

@[simp]
theorem text_ofText (kind : LeafKind) (s : String) : (ofText kind s).text = s := by
  simp [ofText]

@[simp]
theorem text_ofForm (kind : NodeKind) (form : List Entry) :
    (ofForm kind form).text = textOfForm form := by
  simp [ofForm]

@[simp]
theorem text_ofPunct (mark : Punct) : (ofPunct mark).text = mark.spelling := by
  simp [ofPunct]

/-- Splitting off trailing extras keeps the text. -/
@[simp]
theorem text_splitTrailing (form : List Entry) :
    textOfForm (Form.splitTrailing form).1 ++ textOfTokens (Form.splitTrailing form).2
      = textOfForm form := by
  conv => rhs; rw [← Form.append_extras_of_splitTrailing form]
  simp

/-- A node is put together from slots that its kind declares, with extras between them. -/
theorem assemble_of_declared {kind : NodeKind} {form : List Entry} (h : Form.Declared kind form) :
    assemble kind form = .ok (.ofForm kind form) := by
  simp [assemble, Form.checkRoles_of_declared h, bind, Except.bind, pure, Except.pure]

/-- The same tokens with other leaf kinds have the same text. -/
theorem textOfTokens_map_of_text {f : Tree → Tree} (h : ∀ t, (f t).text = t.text)
    (tokens : List Tree) : textOfTokens (tokens.map f) = textOfTokens tokens := by
  induction tokens with
  | nil => rfl
  | cons t rest ih => simp [h, ih]

end Tree

end ScriptTree
