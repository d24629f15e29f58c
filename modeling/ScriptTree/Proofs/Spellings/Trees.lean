import ScriptTree.Grammar.Branch
import ScriptTree.Proofs.Outcome
import ScriptTree.Proofs.Spellings.Basic

/-!
# Trees of the two spellings

Two trees are twins if they are the same but for places, for the spelling of the texts in leaves,
and for carriage returns of their own before line feeds. Putting twins together gives twins.
-/

namespace ScriptTree

open Spelling (Respelled)

variable [Spelling]

/-- A line feed, and the two tokens that it corresponds to. -/
structure Tree.Breaks (a b c : Tree) : Prop where
  twice : Spelling.BreaksTwice
  lineFeed : a = .ofText .newLine "\n"
  carriageReturn : b = .ofText .carriageReturn "\r"
  lineFeed' : c = .ofText .newLine "\n"

/-- A line feed among children, and the two children that it corresponds to. -/
structure Entry.Breaks (a b c : Entry) : Prop where
  twice : Spelling.BreaksTwice
  lineFeed : a = (.extra, .ofText .newLine "\n")
  carriageReturn : b = (.extra, .ofText .carriageReturn "\r")
  lineFeed' : c = (.extra, .ofText .newLine "\n")

mutual

/-- The same tree in the two spellings. -/
inductive Tree.Twin : Tree → Tree → Prop where
  | leaf (kind : LeafKind) {s s' : String} (extent extent' : Extent) (h : Respelled s s') :
      Twin (.leaf kind s extent) (.leaf kind s' extent')
  | node (kind : NodeKind) {form form' : List Entry} (extent extent' : Extent)
      (h : FormTwin form form') : Twin (.node kind form extent) (.node kind form' extent')

/-- The same children in the two spellings. -/
inductive Tree.FormTwin : List Entry → List Entry → Prop where
  | nil : FormTwin [] []
  | cons {x y : Entry} {xs ys : List Entry} (role : y.1 = x.1) (tree : Twin x.2 y.2)
      (t : FormTwin xs ys) : FormTwin (x :: xs) (y :: ys)
  | twice {a b c : Entry} {as bs : List Entry} (h : Entry.Breaks a b c) (t : FormTwin as bs) :
      FormTwin (a :: as) (b :: c :: bs)

end

/-- The same child in the two spellings. -/
structure Entry.Twin (x y : Entry) : Prop where
  role : y.1 = x.1
  tree : x.2.Twin y.2

/-- The same children in the two spellings. -/
abbrev Form.Twin (form form' : List Entry) : Prop :=
  Aligned Entry.Twin Entry.Breaks form form'

/-- The same tokens in the two spellings. -/
abbrev Tree.Twins (ts ts' : List Tree) : Prop :=
  Aligned Tree.Twin Tree.Breaks ts ts'

namespace Tree

variable {t t' : Tree} {form form' : List Entry}

/-- Children are the same if they are aligned. -/
theorem FormTwin.aligned {xs ys : List Entry} (h : FormTwin xs ys) : Form.Twin xs ys := by
  match h with
  | .nil => exact .nil
  | .cons role tree t => exact .cons ⟨role, tree⟩ t.aligned
  | .twice h t => exact .twice h t.aligned

theorem formTwin_of_aligned (h : Form.Twin form form') : FormTwin form form' := by
  induction h with
  | nil => exact .nil
  | cons h _ ih => exact .cons h.role h.tree ih
  | twice h _ ih => exact .twice h ih

/-- Nodes of the same children are the same. -/
theorem twin_node (kind : NodeKind) (extent extent' : Extent) (h : Form.Twin form form') :
    (Tree.node kind form extent).Twin (.node kind form' extent') :=
  .node kind extent extent' (formTwin_of_aligned h)

theorem twin_ofForm (kind : NodeKind) (h : Form.Twin form form') :
    (ofForm kind form).Twin (ofForm kind form') :=
  twin_node kind _ _ h

theorem twin_ofText (kind : LeafKind) {s s' : String} (h : Respelled s s') :
    (ofText kind s).Twin (ofText kind s') :=
  .leaf kind _ _ h

/-- A leaf that is spelled in one way only is its own twin. -/
theorem twin_ofText_self (kind : LeafKind) (s : String) : (ofText kind s).Twin (ofText kind s) :=
  twin_ofText kind (Spelling.respelled_refl s)

theorem twin_ofPunct (mark : Punct) : (ofPunct mark).Twin (ofPunct mark) :=
  twin_ofText_self _ _

namespace Twin

theorem kind_eq (h : t.Twin t') : t'.kind = t.kind := by
  cases h <;> rfl

theorem leafKind?_eq (h : t.Twin t') : t'.leafKind? = t.leafKind? :=
  congrArg TokenKind.leaf? h.kind_eq

theorem nodeKind?_eq (h : t.Twin t') : t'.nodeKind? = t.nodeKind? :=
  congrArg TokenKind.node? h.kind_eq

theorem keyword?_eq (h : t.Twin t') : t'.keyword? = t.keyword? := by
  rw [keyword?, h.leafKind?_eq, keyword?]

theorem isTrivia_eq (h : t.Twin t') : t'.isTrivia = t.isTrivia := by
  rw [isTrivia, h.leafKind?_eq, isTrivia]

theorem isInvalid_eq (h : t.Twin t') : t'.isInvalid = t.isInvalid := by
  rw [isInvalid, h.leafKind?_eq, isInvalid]

/-- Either leaf has a given solid text when the other one has. -/
theorem leafText?_eq_iff (h : t.Twin t') {s : String} (hs : Text.IsSolid s) :
    t'.leafText? = some s ↔ t.leafText? = some s := by
  cases h with
  | leaf kind extent extent' h => simpa [Tree.leafText?] using Spelling.respelled_solid h hs
  | node kind extent extent' h => exact Iff.rfl

theorem form_twin (h : t.Twin t') : Form.Twin t.form t'.form := by
  cases h with
  | leaf kind extent extent' h => exact .nil
  | node kind extent extent' h => exact h.aligned

theorem withLeafKind (h : t.Twin t') (kind : LeafKind) :
    (t.withLeafKind kind).Twin (t'.withLeafKind kind) := by
  cases h with
  | leaf _ extent extent' h => exact .leaf kind extent extent' h
  | node kind extent extent' h => exact .node kind extent extent' h

theorem invalidated (h : t.Twin t') : t.invalidated.Twin t'.invalidated :=
  h.withLeafKind .invalid

end Twin

end Tree

namespace Form

variable {t t' : Tree} {ts ts' : List Tree} {form form' : List Entry} {kind : NodeKind}
  {slot : Slot}

theorem twin_extras (h : Tree.Twins ts ts') : Form.Twin (extras ts) (extras ts') :=
  h.map (fun _ _ h => ⟨rfl, h⟩) fun _ _ _ h =>
    ⟨h.twice, congrArg _ h.lineFeed, congrArg _ h.carriageReturn, congrArg _ h.lineFeed'⟩

/-- One more extra. -/
theorem twin_extra (h : t.Twin t') : Form.Twin (extras [t]) (extras [t']) :=
  twin_extras (.singleton h)

theorem twin_entry (role : Role) (h : t.Twin t') : Form.Twin [(role, t)] [(role, t')] :=
  .singleton ⟨rfl, h⟩

namespace Twin

theorem occupant? (h : Form.Twin form form') (slot : Slot) :
    Option.Rel Tree.Twin (Form.occupant? slot form) (Form.occupant? slot form') := by
  simp only [Form.occupant?]
  induction h with
  | nil => exact .none
  | @cons x y xs ys h _ ih =>
    simp only [List.find?_cons, h.role]
    split
    · exact .some h.tree
    · exact ih
  | @twice a b c as bs h _ ih =>
    obtain ⟨htwice, rfl, rfl, rfl⟩ := h
    exact ih

theorem isFilled_eq (h : Form.Twin form form') (slot : Slot) :
    isFilled slot form' = isFilled slot form := by
  simp only [isFilled]
  induction h with
  | nil => rfl
  | cons h _ ih => rw [List.any_cons, List.any_cons, h.role, ih]
  | twice h _ ih =>
    obtain ⟨htwice, rfl, rfl, rfl⟩ := h
    exact ih

/-- The same children come last. -/
theorem splitTrailing (h : Form.Twin form form') :
    Form.Twin (Form.splitTrailing form).1 (Form.splitTrailing form').1 ∧
      Tree.Twins (Form.splitTrailing form).2 (Form.splitTrailing form').2 := by
  induction h with
  | nil => exact ⟨.nil, .nil⟩
  | @cons x y xs ys h _ ih =>
    obtain ⟨role, t⟩ := x
    obtain ⟨role', t'⟩ := y
    obtain ⟨hrole, ht⟩ := h
    obtain rfl : role = role' := hrole.symm
    rcases hxs : Form.splitTrailing xs with ⟨kept, trailing⟩
    rcases hys : Form.splitTrailing ys with ⟨kept', trailing'⟩
    rw [hxs, hys] at ih
    simp only [Form.splitTrailing, hxs, hys]
    cases ih.1 with
    | nil =>
      dsimp only
      split
      · exact ⟨.nil, .cons ht ih.2⟩
      · exact ⟨.singleton ⟨rfl, ht⟩, ih.2⟩
    | cons h t => exact ⟨.cons ⟨rfl, ht⟩ (.cons h t), ih.2⟩
    | twice h t => exact ⟨.cons ⟨rfl, ht⟩ (.twice h t), ih.2⟩
  | @twice a b c as bs h _ ih =>
    obtain ⟨htwice, rfl, rfl, rfl⟩ := h
    rcases has : Form.splitTrailing as with ⟨kept, trailing⟩
    rcases hbs : Form.splitTrailing bs with ⟨kept', trailing'⟩
    rw [has, hbs] at ih
    simp only [Form.splitTrailing, has, hbs]
    cases ih.1 with
    | nil => exact ⟨.nil, .twice ⟨htwice, rfl, rfl, rfl⟩ ih.2⟩
    | cons h t => exact ⟨.twice ⟨htwice, rfl, rfl, rfl⟩ (.cons h t), ih.2⟩
    | twice h t => exact ⟨.twice ⟨htwice, rfl, rfl, rfl⟩ (.twice h t), ih.2⟩

theorem insertSlot (h : Form.Twin form form') (ht : t.Twin t') :
    Form.Twin (Form.insertSlot kind slot t form) (Form.insertSlot kind slot t' form') := by
  induction h with
  | nil => exact .singleton ⟨rfl, ht⟩
  | cons h hrest ih =>
    simp only [Form.insertSlot, h.role]
    split
    · exact .cons ⟨rfl, ht⟩ (.cons h hrest)
    · exact .cons h ih
  | twice h _ ih =>
    obtain ⟨htwice, rfl, rfl, rfl⟩ := h
    exact .twice ⟨htwice, rfl, rfl, rfl⟩ ih

theorem replaceSlot? (h : Form.Twin form form') (ht : t.Twin t') :
    Option.Rel (fun x y => Form.Twin x.2 y.2) (Form.replaceSlot? slot t form)
      (Form.replaceSlot? slot t' form') := by
  induction h with
  | nil => exact .none
  | @cons x y xs ys h hrest ih =>
    simp only [Form.replaceSlot?, h.role]
    split
    · exact .some (.cons ⟨rfl, ht⟩ hrest)
    · exact ih.map fun _ _ hform => .cons h hform
  | @twice a b c as bs h _ ih =>
    obtain ⟨htwice, rfl, rfl, rfl⟩ := h
    simp only [Form.replaceSlot?, reduceCtorEq, if_false, Option.map_map]
    exact ih.map fun _ _ hform => .twice ⟨htwice, rfl, rfl, rfl⟩ hform

theorem setSlot (h : Form.Twin form form') (ht : t.Twin t') :
    Form.Twin (Form.setSlot kind slot t form) (Form.setSlot kind slot t' form') := by
  rw [Form.setSlot, Form.setSlot]
  rcases (h.replaceSlot? ht).none_or_some with ⟨hnone, hnone'⟩ | ⟨_, _, hsome, hsome', hform⟩
  · rw [hnone, hnone']
    exact h.insertSlot ht
  · rw [hsome, hsome']
    exact hform

theorem place (h : Form.Twin form form') {kind' : NodeKind} (hkind : kind' = kind) (slot : Slot)
    (ht : t.Twin t') :
    Agree Form.Twin (Form.place kind slot t form) (Form.place kind' slot t' form') := by
  subst hkind
  exact (agree_self _).bind fun _ _ _ => h.setSlot ht

theorem addItem (h : Form.Twin form form') {kind' : NodeKind} (hkind : kind' = kind)
    (ht : t.Twin t') :
    Agree Form.Twin (Form.addItem kind t form) (Form.addItem kind' t' form') := by
  subst hkind
  exact (agree_self _).bind fun _ _ _ => h.append (twin_entry .item ht)

theorem checkRoles_eq (h : Form.Twin form form') (kind : NodeKind) :
    Form.checkRoles kind form' = Form.checkRoles kind form := by
  induction h with
  | nil => rfl
  | @cons x y xs ys h _ ih =>
    obtain ⟨role, t⟩ := x
    obtain ⟨role', t'⟩ := y
    obtain ⟨hrole, ht⟩ := h
    obtain rfl : role = role' := hrole.symm
    rw [Form.checkRoles, Form.checkRoles, ih]
  | twice h _ ih =>
    obtain ⟨htwice, rfl, rfl, rfl⟩ := h
    exact ih

theorem assemble (h : Form.Twin form form') (kind : NodeKind) :
    Agree Tree.Twin (Tree.assemble kind form) (Tree.assemble kind form') := by
  rw [Tree.assemble, Tree.assemble, h.checkRoles_eq]
  exact (agree_self _).bind fun _ _ _ => Tree.twin_ofForm kind h

end Twin

end Form

namespace Branch

variable {change change' : List Entry → List Entry}

omit [Spelling] in
/-- Only an `if` has branches. -/
theorem updateTail?_of_ne {kind : NodeKind} (h : kind ≠ .ifStatement) (form : List Entry)
    (extent : Extent) : updateTail? change (.node kind form extent) = none := by
  unfold updateTail?
  split
  · rename_i heq
    cases heq
    exact absurd rfl h
  · rfl

mutual

/-- The same change of the last link in a chain. -/
theorem updateTail?_twin
    (hchange : ∀ form form', Form.Twin form form' → Form.Twin (change form) (change' form'))
    {t t' : Tree} (h : t.Twin t') :
    Option.Rel Tree.Twin (updateTail? change t) (updateTail? change' t') := by
  match t, t', h with
  | _, _, .leaf kind extent extent' h => exact .none
  | .node kind form _, .node _ form' _, .node _ extent extent' h =>
    have helse := updateElse?_twin hchange h.aligned
    by_cases hkind : kind = .ifStatement
    · subst hkind
      rw [updateTail?, updateTail?]
      rcases helse.none_or_some with ⟨hnone, hnone'⟩ | ⟨_, _, hsome, hsome', hrel⟩
      · rw [hnone, hnone']
        exact .some (Tree.twin_node _ _ _ (hchange _ _ h.aligned))
      · rw [hsome, hsome']
        cases hrel with
        | some hform => exact .some (Tree.twin_node _ _ _ hform)
        | none => exact .none
    · rw [updateTail?_of_ne hkind, updateTail?_of_ne hkind]
      exact .none

/-- The same change of the chain in an `else`. -/
theorem updateElse?_twin
    (hchange : ∀ form form', Form.Twin form form' → Form.Twin (change form) (change' form'))
    {form form' : List Entry} (h : Form.Twin form form') :
    Option.Rel (Option.Rel Form.Twin) (updateElse? change form) (updateElse? change' form') := by
  match form, form', h with
  | [], [], .nil => exact .none
  | (role, t) :: rest, (role', t') :: rest', .cons h hrest =>
    obtain rfl : role = role' := h.role.symm
    rw [updateElse?, updateElse?]
    split
    · exact .some ((updateTail?_twin hchange h.tree).map fun _ _ ht => .cons ⟨rfl, ht⟩ hrest)
    · exact (updateElse?_twin hchange hrest).map fun _ _ helse =>
        helse.map fun _ _ hform => .cons h hform
  | _ :: rest, _ :: _ :: rest', .twice h hrest =>
    obtain ⟨htwice, rfl, rfl, rfl⟩ := h
    simp only [updateElse?, reduceCtorEq, if_false, Option.map_map]
    exact (updateElse?_twin hchange hrest).map fun _ _ helse => by
      simpa using helse.map fun _ _ hform => .twice ⟨htwice, rfl, rfl, rfl⟩ hform

end

/-- Whether there are items is the same in the two spellings. -/
theorem any_item_eq {form form' : List Entry} (h : Form.Twin form form') :
    (form'.any fun entry => entry.1 == .item) = form.any fun entry => entry.1 == .item := by
  induction h with
  | nil => rfl
  | cons h _ ih => rw [List.any_cons, List.any_cons, h.role, ih]
  | twice h _ ih =>
    obtain ⟨htwice, rfl, rfl, rfl⟩ := h
    exact ih

/-- The same change of the chain in the last item. -/
theorem updateLast?_twin
    (hchange : ∀ form form', Form.Twin form form' → Form.Twin (change form) (change' form'))
    {form form' : List Entry} (h : Form.Twin form form') :
    Option.Rel Form.Twin (updateLast? change form) (updateLast? change' form') := by
  induction h with
  | nil => exact .none
  | @cons x y xs ys h hrest ih =>
    obtain ⟨role, t⟩ := x
    obtain ⟨role', t'⟩ := y
    obtain ⟨hrole, ht⟩ := h
    obtain rfl : role = role' := hrole.symm
    have hrest' : Option.Rel Form.Twin ((updateLast? change xs).map ((role, t) :: ·))
        ((updateLast? change' ys).map ((role, t') :: ·)) :=
      ih.map fun _ _ hform => .cons ⟨rfl, ht⟩ hform
    simp only [updateLast?, any_item_eq hrest]
    split
    · exact hrest'
    · split
      · exact (updateTail?_twin hchange ht).map fun _ _ ht => .cons ⟨rfl, ht⟩ hrest
      · exact hrest'
  | @twice a b c as bs h hrest ih =>
    obtain ⟨htwice, rfl, rfl, rfl⟩ := h
    have hitem : ((Role.extra, Tree.ofText .newLine "\n") :: bs).any
        (fun entry => entry.1 == .item) = as.any fun entry => entry.1 == .item :=
      (any_item_eq hrest :)
    simp only [updateLast?, any_item_eq hrest, hitem, reduceCtorEq, if_false, ite_self,
      Option.map_map]
    exact ih.map fun _ _ hform => .twice ⟨htwice, rfl, rfl, rfl⟩ hform

end Branch

namespace Tree

/-- A tree is its own twin. -/
theorem Twin.refl (t : Tree) : t.Twin t := by
  induction t using Tree.induction with
  | leaf kind text extent => exact .leaf kind extent extent (Spelling.respelled_refl text)
  | node kind form extent ih =>
    refine twin_node kind extent extent ?_
    induction form with
    | nil => exact .nil
    | cons entry rest ihrest =>
      refine .cons ⟨rfl, ih entry (List.mem_cons_self)⟩ (ihrest fun e he => ih e ?_)
      exact List.mem_cons_of_mem _ he

end Tree

end ScriptTree
