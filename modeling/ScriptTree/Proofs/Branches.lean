import ScriptTree.Grammar.Branch
import ScriptTree.Proofs.Sequences

/-!
# Chains of branches grow at their end

A further branch, and the lines before it, go to the last link of a chain. That link is the last
child of the one before it, and so on, so that what is added comes last in the whole chain.
-/

namespace ScriptTree

namespace Tree

/-- A form without items and without an `else` ends its chain. -/
theorem formEndsInChain_of_roles {form : List Entry} (hitems : .item ∉ Form.roles form)
    (helse : .slot .elseBranch ∉ Form.roles form) : FormEndsInChain form := by
  induction form with
  | nil => trivial
  | cons entry rest ih =>
    obtain ⟨role, t⟩ := entry
    simp only [Form.roles_cons, List.mem_cons, not_or] at hitems helse
    exact ⟨fun h => hitems.1 h.symm, ih hitems.2 helse.2, fun h => absurd h.symm helse.1⟩

/-- A node without items and without an `else` ends its chain. -/
theorem endsInChain_ofForm {kind : NodeKind} {form : List Entry}
    (hitems : .item ∉ Form.roles form) (helse : .slot .elseBranch ∉ Form.roles form) :
    (ofForm kind form).EndsInChain := by
  by_cases hkind : kind = .ifStatement
  · subst hkind
    exact formEndsInChain_of_roles hitems helse
  · unfold EndsInChain ofForm
    split
    · rename_i heq
      cases heq
      exact absurd rfl hkind
    · trivial

/-- An `else` at the end of a form goes on with the chain. -/
theorem formEndsInChain_append_else {form : List Entry} (hitems : .item ∉ Form.roles form)
    (helse : .slot .elseBranch ∉ Form.roles form) {branch : Tree} (hbranch : branch.EndsInChain) :
    FormEndsInChain (form ++ [(.slot .elseBranch, branch)]) := by
  induction form with
  | nil => exact ⟨nofun, trivial, fun _ => ⟨rfl, hbranch⟩⟩
  | cons entry rest ih =>
    obtain ⟨role, t⟩ := entry
    simp only [Form.roles_cons, List.mem_cons, not_or] at hitems helse
    exact ⟨fun h => hitems.1 h.symm, ih hitems.2 helse.2, fun h => absurd h.symm helse.1⟩

end Tree

namespace Branch

/-- A change that adds a text at the end of a link without an `else`. -/
def Adds (change : List Entry → List Entry) (s : String) : Prop :=
  ∀ form, .item ∉ Form.roles form → .slot .elseBranch ∉ Form.roles form →
    Tree.textOfForm (change form) = Tree.textOfForm form ++ s ∧
      Tree.FormEndsInChain (change form)

/-- Extras are added at the end. -/
theorem adds_extras (tokens : List Tree) :
    Adds (· ++ Form.extras tokens) (Tree.textOfTokens tokens) := by
  intro form hitems helse
  refine ⟨by simp, Tree.formEndsInChain_of_roles ?_ ?_⟩
  · simp [hitems]
  · simp [helse]

/-- Of all children of an `if` only items have to stand after its `else`. -/
theorem standsAfter_elseBranch {role : Role}
    (h : Form.standsAfter .ifStatement .elseBranch role = true) : role = .item := by
  cases role with
  | slot other =>
    obtain ⟨hmem, place, otherPlace, helse, hother, hlt⟩ := Form.standsAfter_slot h
    simp only [NodeKind.slots, List.mem_cons, List.not_mem_nil, or_false] at hmem
    rcases hmem with rfl | rfl | rfl | rfl | rfl <;> cases helse <;> cases hother <;> omega
  | item => rfl
  | extra => cases h

/-- A branch is put behind all that an `if` has. -/
theorem setSlot_elseBranch {form : List Entry} (hitems : .item ∉ Form.roles form)
    (helse : .slot .elseBranch ∉ Form.roles form) (branch : Tree) :
    Form.setSlot .ifStatement .elseBranch branch form = form ++ [(.slot .elseBranch, branch)] := by
  refine Form.setSlot_of_appends branch fun entry hentry => ?_
  have hrole := Form.mem_roles hentry
  refine ⟨fun heq => helse (heq ▸ hrole), Bool.not_eq_true _ ▸ fun hafter => ?_⟩
  exact hitems (standsAfter_elseBranch hafter ▸ hrole)

/-- A branch is added at the end. -/
theorem adds_else {branch : Tree} (hbranch : branch.EndsInChain) :
    Adds (Form.setSlot .ifStatement .elseBranch branch) branch.text := by
  intro form hitems helse
  rw [setSlot_elseBranch hitems helse branch]
  exact ⟨by simp, Tree.formEndsInChain_append_else hitems helse hbranch⟩

variable {change : List Entry → List Entry} {s : String}

/-- A node that is changed is a link of a chain: the chain goes on in its `else` and is changed
there, or it has no `else` and is changed itself. -/
theorem updateTail?_node {kind : NodeKind} {form : List Entry} {extent : Extent} {t' : Tree}
    (h : updateTail? change (.node kind form extent) = some t') :
    kind = .ifStatement ∧
      ((∃ form', updateElse? change form = some (some form') ∧
          t' = .node .ifStatement form' extent) ∨
        updateElse? change form = none ∧ t' = .node .ifStatement (change form) extent) := by
  unfold updateTail? at h
  split at h
  · rename_i form' extent' heq
    cases heq
    refine ⟨rfl, ?_⟩
    split at h
    · rename_i changed helse
      exact .inl ⟨changed, helse, (Option.some.inj h).symm⟩
    · cases h
    · rename_i helse
      exact .inr ⟨helse, (Option.some.inj h).symm⟩
  · cases h

/-- A form in which a chain is changed begins with the chain, or the chain is behind its first
child. -/
theorem updateElse?_cons {role : Role} {t : Tree} {rest form' : List Entry}
    (h : updateElse? change ((role, t) :: rest) = some (some form')) :
    (role = .slot .elseBranch ∧ ∃ t', updateTail? change t = some t' ∧ form' = (role, t') :: rest) ∨
      role ≠ .slot .elseBranch ∧
        ∃ rest', updateElse? change rest = some (some rest') ∧ form' = (role, t) :: rest' := by
  rw [updateElse?] at h
  split at h
  · rename_i hrole
    obtain ⟨t', ht', rfl⟩ := Option.map_eq_some_iff.1 (Option.some.inj h)
    exact .inl ⟨hrole, t', ht', rfl⟩
  · rename_i hrole
    obtain ⟨changed?, hchanged, heq⟩ := Option.map_eq_some_iff.1 h
    obtain ⟨changed, rfl, rfl⟩ := Option.map_eq_some_iff.1 heq
    exact .inr ⟨hrole, changed, hchanged, rfl⟩

mutual

/-- What is added to a chain comes last in it. -/
theorem text_updateTail? (h : Adds change s) (t : Tree) (ht : t.EndsInChain) {t' : Tree}
    (hupdate : updateTail? change t = some t') : t'.text = t.text ++ s ∧ t'.EndsInChain := by
  match t with
  | .leaf kind text extent => cases hupdate
  | .node kind form extent =>
    obtain ⟨rfl, ⟨changed, helse, rfl⟩ | ⟨helse, rfl⟩⟩ := updateTail?_node hupdate
    · obtain ⟨htext, hchain⟩ := (text_updateElse? h form ht).2 changed helse
      exact ⟨by simpa [Tree.text] using htext, hchain⟩
    · obtain ⟨hitems, hroles⟩ := (text_updateElse? h form ht).1 helse
      obtain ⟨htext, hchain⟩ := h form hitems hroles
      exact ⟨by simpa [Tree.text] using htext, hchain⟩

/-- What is added to the chain in the `else` of a form comes last in the form. -/
theorem text_updateElse? (h : Adds change s) (form : List Entry)
    (hform : Tree.FormEndsInChain form) :
    (updateElse? change form = none →
      .item ∉ Form.roles form ∧ .slot .elseBranch ∉ Form.roles form) ∧
    ∀ form', updateElse? change form = some (some form') →
      Tree.textOfForm form' = Tree.textOfForm form ++ s ∧ Tree.FormEndsInChain form' := by
  match form with
  | [] => exact ⟨fun _ => ⟨by simp, by simp⟩, nofun⟩
  | (role, t) :: rest =>
    obtain ⟨hrole, hrest, hlast⟩ := hform
    rw [updateElse?]
    split
    · rename_i helse
      obtain ⟨rfl, ht⟩ := hlast helse
      refine ⟨nofun, fun form' hform' => ?_⟩
      obtain ⟨t', ht', rfl⟩ := Option.map_eq_some_iff.1 (Option.some.inj hform')
      obtain ⟨htext, hchain⟩ := text_updateTail? h t ht ht'
      exact ⟨by simp [htext], hrole, trivial, fun _ => ⟨rfl, hchain⟩⟩
    · rename_i helse
      obtain ⟨hnone, hsome⟩ := text_updateElse? h rest hrest
      constructor
      · intro hupdate
        obtain ⟨hitems, hroles⟩ := hnone (Option.map_eq_none_iff.1 hupdate)
        simp only [Form.roles_cons, List.mem_cons, not_or]
        exact ⟨⟨fun heq => hrole heq.symm, hitems⟩, fun heq => helse heq.symm, hroles⟩
      · intro form' hform'
        obtain ⟨changed?, hchanged, heq⟩ := Option.map_eq_some_iff.1 hform'
        obtain ⟨changed, rfl, rfl⟩ := Option.map_eq_some_iff.1 heq
        obtain ⟨htext, hchain⟩ := hsome changed hchanged
        exact ⟨by simp [htext, String.append_assoc], hrole, hchain, fun heq => absurd heq helse⟩

end

/-- Without items there is nothing to change. -/
theorem updateLast?_of_items_eq_nil {form : List Entry} (h : Form.items form = []) :
    updateLast? change form = none := by
  induction form with
  | nil => rfl
  | cons entry rest ih =>
    obtain ⟨role, t⟩ := entry
    have hrole : role ≠ .item := by
      rintro rfl
      simp [Form.items] at h
    have hrest : Form.items rest = [] := by simpa [Form.items, hrole] using h
    rw [updateLast?, ih hrest]
    simp [hrole]

/-- The chain in the last item of a list is changed. -/
theorem updateLast?_append (before : List Entry) (t : Tree) {after : List Entry}
    (hafter : Form.items after = []) :
    updateLast? change (before ++ (.item, t) :: after)
      = (updateTail? change t).map fun t' => before ++ (.item, t') :: after := by
  have hnone : (after.any fun entry => entry.1 == .item) = false := by
    simpa [Form.items, List.filter_eq_nil_iff] using hafter
  induction before with
  | nil => simp [updateLast?, hnone]
  | cons entry rest ih =>
    obtain ⟨role, child⟩ := entry
    simp [updateLast?, ih, Function.comp_def]

/-- The same where nothing follows the item. -/
theorem updateLast?_append_item (before : List Entry) (t : Tree) :
    updateLast? change (before ++ [(.item, t)])
      = (updateTail? change t).map fun t' => before ++ [(.item, t')] :=
  updateLast?_append before t rfl

end Branch

end ScriptTree
