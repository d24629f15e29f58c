import ScriptTree.Proofs.Copying
import ScriptTree.Proofs.Walks

/-!
# Copying in two passes

A copy is made in two passes over the tokens of the source: all tokens are allocated first, and then
the nodes get their forms under the new names. Every token of the copy is the token of the source
with the names in it changed, so the two passes do what putting in the tree of the source does.
-/

namespace ScriptTree

/-- The token in the form of another node, its children under other names. -/
def Token.renamed (rename : Nat → Nat) (parent : Option Nat) (t : Token) : Token :=
  { t.mapForm (List.map fun entry => (entry.1, rename entry.2)) with parent }

namespace Token

/-- What a change of the form makes of the body depends on the body only. -/
theorem body_mapForm_congr {t t' : Token} (h : t'.body = t.body)
    (change : List (Role × Nat) → List (Role × Nat)) :
    (t'.mapForm change).body = (t.mapForm change).body := by
  obtain ⟨body, parent, extent⟩ := t
  obtain ⟨body', parent', extent'⟩ := t'
  obtain rfl : body' = body := h
  cases body' <;> rfl

/-- A form that is given twice is given once. -/
theorem body_mapForm_const {t t' : Token} {form : List (Role × Nat)}
    (h : t'.body = (t.mapForm fun _ => form).body) :
    (t'.mapForm fun _ => form).body = (t.mapForm fun _ => form).body := by
  rw [body_mapForm_congr h]
  obtain ⟨body, parent, extent⟩ := t
  cases body <;> rfl

end Token

namespace Arena

open Relation

variable {source a a' a'' b : Arena} {top id node : Nat} {rename : Nat → Nat}

/-! ### What is put behind an arena -/

/-- The token that stands for a token of the source in a copy of the tree below `top`. -/
def copyOf (source : Arena) (top : Nat) (rename : Nat → Nat) (id : Nat) : Option Token :=
  (source.get? id).map fun t => t.renamed rename (if id = top then none else t.parent.map rename)

/-- New tokens, one for each of a list, were put behind those of an arena. -/
structure Appended (tokenOf : Nat → Option Token) (ids : List Nat) (a a' : Arena) : Prop where
  size_eq : a'.size = a.size + ids.length
  get?_old : ∀ id < a.size, a'.get? id = a.get? id
  get?_new : ∀ i id, ids[i]? = some id → a'.get? (a.size + i) = tokenOf id

theorem appended_nil (tokenOf : Nat → Option Token) (a : Arena) : Appended tokenOf [] a a :=
  ⟨rfl, fun _ _ => rfl, by simp⟩

/-- More tokens may be put behind the new ones. -/
theorem Appended.append {tokenOf : Nat → Option Token} {ids more : List Nat}
    (h : Appended tokenOf ids a a') (hmore : Appended tokenOf more a' a'') :
    Appended tokenOf (ids ++ more) a a'' := by
  have hsize := h.size_eq
  have hsize' := hmore.size_eq
  refine ⟨by rw [List.length_append]; omega, fun id hid => ?_, fun i id hi => ?_⟩
  · rw [hmore.get?_old id (by omega), h.get?_old id hid]
  · rcases Nat.lt_or_ge i ids.length with hlt | hge
    · rw [List.getElem?_append_left hlt] at hi
      rw [hmore.get?_old _ (by omega), h.get?_new i id hi]
    · rw [List.getElem?_append_right hge] at hi
      have hnew := hmore.get?_new (i - ids.length) id hi
      rwa [hsize, Nat.add_assoc, Nat.add_sub_cancel' hge] at hnew

theorem appended_push {tokenOf : Nat → Option Token} {token : Token}
    (h : tokenOf id = some token) (a : Arena) : Appended tokenOf [id] a ⟨a.tokens.push token⟩ := by
  refine ⟨size_push _ _, fun other hother => get?_push_of_lt _ hother, fun i x hi => ?_⟩
  obtain ⟨rfl, rfl⟩ : i = 0 ∧ id = x := by cases i <;> simp_all
  rw [Nat.add_zero, get?_push_self, h]

/-- A node may be put in before others that are put behind it, and get its form after them. -/
theorem Appended.updateForm {tokenOf : Nat → Option Token} {ids : List Nat} {token : Token}
    {form : List (Role × Nat)} (h : Appended tokenOf ids ⟨a.tokens.push token⟩ a')
    (hself : tokenOf id = some (token.mapForm fun _ => form)) :
    Appended tokenOf (id :: ids) a (a'.updateForm a.size fun _ => form) := by
  have hpushed := size_push a token
  have hsize := h.size_eq
  refine ⟨by rw [size_updateForm, List.length_cons]; omega, fun other hother => ?_,
    fun i x hi => ?_⟩
  · rw [Arena.updateForm, get?_update_of_ne _ _ (by omega), h.get?_old other (by omega),
      get?_push_of_lt _ hother]
  · cases i with
    | zero =>
      obtain rfl : id = x := by simpa using hi
      rw [Nat.add_zero, Arena.updateForm, get?_update_self, h.get?_old _ (by omega),
        get?_push_self, hself, Option.map_some]
    | succ i =>
      have hnew := h.get?_new i x hi
      rw [hpushed] at hnew
      rw [Arena.updateForm, get?_update_of_ne _ _ (by omega), ← hnew]
      congr 1
      omega

/-- The new tokens and the old ones are all the tokens. -/
theorem Appended.unique {tokenOf : Nat → Option Token} {ids : List Nat}
    (h : Appended tokenOf ids a a') (h' : Appended tokenOf ids a a'') : a' = a'' := by
  refine ext_get? fun id => ?_
  have hsize := h.size_eq
  have hsize' := h'.size_eq
  rcases Nat.lt_or_ge id a.size with hold | hge
  · rw [h.get?_old id hold, h'.get?_old id hold]
  rcases Nat.lt_or_ge (id - a.size) ids.length with hnew | hend
  · have hi := List.getElem?_eq_getElem hnew
    rw [← Nat.add_sub_cancel' hge, h.get?_new _ _ hi, h'.get?_new _ _ hi]
  · rw [get?, get?, Array.getElem?_eq_none (show a'.size ≤ id by omega),
      Array.getElem?_eq_none (show a''.size ≤ id by omega)]

/-! ### Putting in a tree -/

/-- Putting in children puts in their trees one after another, if putting in a child puts in its
tree. -/
theorem appended_insertForm (source : Arena) (top node : Nat) (rename : Nat → Nat)
    {form : List (Role × Nat)}
    (hchild : ∀ entry ∈ form, ∀ b : Arena,
      (∀ i x, (source.preorder entry.2)[i]? = some x → rename x = b.size + i) →
        Appended (source.copyOf top rename) (source.preorder entry.2) b
          (b.insertTree (some node) (source.tree entry.2)).1)
    (hself : ∀ entry ∈ form, (source.preorder entry.2)[0]? = some entry.2)
    (hnames : ∀ i x, ((form.map Prod.snd).flatMap source.preorder)[i]? = some x →
      rename x = b.size + i) :
    Appended (source.copyOf top rename) ((form.map Prod.snd).flatMap source.preorder) b
        (b.insertForm node (form.map fun entry => (entry.1, source.tree entry.2))).1 ∧
      (b.insertForm node (form.map fun entry => (entry.1, source.tree entry.2))).2 =
        form.map fun entry => (entry.1, rename entry.2) := by
  induction form generalizing b with
  | nil => exact ⟨appended_nil _ b, rfl⟩
  | cons entry rest ih =>
    simp only [List.map_cons, List.flatMap_cons] at hnames ⊢
    have hfirst := hchild entry List.mem_cons_self b fun i x hi => hnames i x (by
      rw [List.getElem?_append_left (List.getElem?_eq_some_iff.1 hi).1, hi])
    have hsize := hfirst.size_eq
    obtain ⟨hrest, hform⟩ := ih (b := (b.insertTree (some node) (source.tree entry.2)).1)
      (fun other hmem => hchild other (List.mem_cons_of_mem entry hmem))
      (fun other hmem => hself other (List.mem_cons_of_mem entry hmem)) fun i x hi => by
        have hname := hnames ((source.preorder entry.2).length + i) x (by
          rw [List.getElem?_append_right (Nat.le_add_right ..), Nat.add_sub_cancel_left, hi])
        omega
    have htop : rename entry.2 = b.size := by
      have hzero := hself entry List.mem_cons_self
      simpa using hnames 0 entry.2 (by
        rw [List.getElem?_append_left (List.getElem?_eq_some_iff.1 hzero).1, hzero])
    rw [insertForm]
    exact ⟨hfirst.append hrest, by simp only [hform, snd_insertTree, htop]⟩

/-- Putting in the tree below a token puts in, for each token below it, the token with the names in
it changed. -/
theorem appended_insertTree (hlinked : source.Linked) (hacyclic : source.Acyclic)
    (hid : id < source.size) (hbelow : ReflTransGen source.IsParent top id) (b : Arena)
    (hnames : ∀ i x, (source.preorder id)[i]? = some x → rename x = b.size + i) :
    Appended (source.copyOf top rename) (source.preorder id) b
      (b.insertTree (if id = top then none else (source.parent? id).map rename)
        (source.tree id)).1 := by
  refine below_induction hlinked hacyclic (P := fun id => ReflTransGen source.IsParent top id →
    ∀ b : Arena, (∀ i x, (source.preorder id)[i]? = some x → rename x = b.size + i) →
      Appended (source.copyOf top rename) (source.preorder id) b
        (b.insertTree (if id = top then none else (source.parent? id).map rename)
          (source.tree id)).1) (fun id hid ih hbelow b hnames => ?_) hid hbelow b hnames
  obtain ⟨token, htoken⟩ : ∃ token, source.get? id = some token :=
    ⟨_, Array.getElem?_eq_getElem hid⟩
  have hpreorder := preorder_eq hlinked hacyclic hid
  have hparent : source.parent? id = token.parent := by simp [parent?, htoken]
  have hcopy : source.copyOf top rename id =
      some (token.renamed rename (if id = top then none else token.parent.map rename)) := by
    rw [copyOf, htoken, Option.map_some]
  rw [hparent]
  generalize (if id = top then none else token.parent.map rename) = parent at hcopy ⊢
  cases hbody : token.body with
  | leaf kind text =>
    have hchildren : source.children id = [] := by
      simp [children, form, htoken, Token.form, hbody]
    rw [hpreorder, hchildren, tree_of_leaf htoken hbody, insertTree]
    refine appended_push ?_ b
    rw [hcopy, Token.renamed, Token.mapForm]
    simp [hbody]
  | node kind form =>
    have hform : source.form id = form := by simp [Arena.form, htoken, Token.form, hbody]
    have hchildren : source.children id = form.map Prod.snd := by rw [children, hform]
    rw [hpreorder, hchildren] at hnames ⊢
    rw [tree_of_node hlinked hacyclic htoken hbody, insertTree]
    have hself : rename id = b.size := hnames 0 id rfl
    have hmem {entry : Role × Nat} (h : entry ∈ form) : entry.2 ∈ source.children id :=
      hchildren ▸ List.mem_map_of_mem h
    -- the parent of each child is this node, which is not below its child
    have hchild (entry : Role × Nat) (h : entry ∈ form) :
        (if entry.2 = top then none else (source.parent? entry.2).map rename) = some b.size := by
      have hlink := (hlinked.parent_iff entry.2 id).2 (hmem h)
      have hne : entry.2 ≠ top := fun heq =>
        hacyclic id (TransGen.head' hlink (heq ▸ hbelow))
      rw [if_neg hne, hlink, Option.map_some, hself]
    obtain ⟨happended, hnewForm⟩ := appended_insertForm source top b.size rename
      (b := ⟨b.tokens.push { body := .node kind [], parent, extent := token.extent }⟩)
      (fun entry h b' hnames' => hchild entry h ▸
        ih entry.2 (hmem h) (hbelow.tail ((hlinked.parent_iff entry.2 id).2 (hmem h))) b' hnames')
      (fun entry h => by rw [preorder_eq hlinked hacyclic (hlinked.child_lt (hmem h))]; rfl)
      (fun i x hi => by rw [hnames (i + 1) x hi, size_push]; omega)
    simp only [hnewForm]
    refine happended.updateForm ?_
    rw [hcopy, Token.renamed]
    simp [Token.mapForm, hbody]

/-! ### The two passes -/

/-- The token as the first pass allocates it. -/
def blankOf (source : Arena) (id : Nat) : Option Token :=
  (source.get? id).map fun t => { t.mapForm (fun _ => []) with parent := none }

/-- The first pass puts a token behind the arena for each of the list, and the new names count on
from those that are taken. -/
theorem appended_allocCopies {ids : List Nat} (h : ∀ id ∈ ids, id < source.size) (a : Arena) :
    Appended source.blankOf ids a (allocCopies source a ids).1 ∧
      (allocCopies source a ids).2 = ids.zip (List.range' a.size ids.length) := by
  induction ids generalizing a with
  | nil => exact ⟨appended_nil _ a, rfl⟩
  | cons old rest ih =>
    obtain ⟨t, ht⟩ : ∃ t, source.get? old = some t :=
      ⟨_, Array.getElem?_eq_getElem (h old List.mem_cons_self)⟩
    have hfirst : Appended source.blankOf [old] a
        ((a.alloc (t.mapForm fun _ => []).body).1.setExtent a.size (source.extent old)) := by
      refine ⟨?_, fun id hid => ?_, fun i id hi => ?_⟩
      · rw [setExtent, size_update, alloc, size_push, List.length_singleton]
      · rw [setExtent, get?_update_of_ne _ _ (Nat.ne_of_lt hid), get?_alloc_of_lt _ _ hid]
      · obtain ⟨rfl, rfl⟩ : i = 0 ∧ old = id := by cases i <;> simp_all
        rw [Nat.add_zero, setExtent, get?_update_self, alloc, get?_push_self, blankOf, ht, extent, ht]
        cases hbody : t.body <;> simp [Token.mapForm, hbody]
    obtain ⟨hrest, hnames⟩ := ih (fun id hid => h id (List.mem_cons_of_mem old hid))
      ((a.alloc (t.mapForm fun _ => []).body).1.setExtent a.size (source.extent old))
    have hsize := hfirst.size_eq
    rw [List.length_singleton] at hsize
    rw [hsize] at hnames
    rw [allocCopies]
    simp only [ht, snd_alloc, hnames, List.length_cons, List.range'_succ, List.zip_cons_cons,
      and_true]
    exact hfirst.append hrest

/-- Of different tokens each gets the name that counts it. -/
theorem newName_zip {ids : List Nat} (hnodup : ids.Nodup) {n i x : Nat} (hi : ids[i]? = some x) :
    newName (ids.zip (List.range' n ids.length)) x = n + i := by
  induction ids generalizing n i with
  | nil => simp at hi
  | cons first rest ih =>
    rw [List.nodup_cons] at hnodup
    rw [newName, List.length_cons, List.range'_succ, List.zip_cons_cons, List.lookup_cons]
    cases i with
    | zero =>
      obtain rfl : first = x := by simpa using hi
      simp
    | succ i =>
      have hne : x ≠ first := by
        rintro rfl
        exact hnodup.1 (List.mem_of_getElem? hi)
      have hrest := ih hnodup.2 (n := n + 1) hi
      rw [newName] at hrest
      simp only [beq_eq_false_iff_ne.2 hne, hrest]
      omega

/-- What linking the copy of a token does to the token of a name. -/
def linkStep (source : Arena) (names : List (Nat × Nat)) (id : Nat) (t : Token) (old : Nat) :
    Token :=
  let form := (source.form old).map fun entry => (entry.1, newName names entry.2)
  let t := if id ∈ form.map Prod.snd then { t with parent := some (newName names old) } else t
  if id = newName names old then t.mapForm fun _ => form else t

/-- Each token of a form gets the node as its parent. -/
theorem get?_foldl_setParent (form : List (Role × Nat)) (node : Nat) (a : Arena) (id : Nat) :
    (form.foldl (fun a entry => a.setParent entry.2 (some node)) a).get? id =
      (a.get? id).map fun t =>
        if id ∈ form.map Prod.snd then { t with parent := some node } else t := by
  induction form generalizing a with
  | nil => simp
  | cons entry rest ih =>
    rw [List.foldl_cons, ih, setParent, get?_update]
    simp only [List.map_cons, List.mem_cons]
    by_cases hid : id = entry.2
    · cases a.get? id <;> simp [hid]
    · simp only [hid, if_false, false_or]

/-- The second pass links the copies one after another. -/
theorem get?_linkCopies (names : List (Nat × Nat)) (ids : List Nat) (a : Arena) (id : Nat) :
    (linkCopies source names a ids).get? id =
      (a.get? id).map fun t => ids.foldl (source.linkStep names id) t := by
  induction ids generalizing a with
  | nil => simp [linkCopies]
  | cons old rest ih =>
    rw [linkCopies, ih, updateForm, get?_update, get?_foldl_setParent]
    split
    · rename_i hid
      rw [Option.map_map, Option.map_map]
      refine Option.map_congr fun t _ => ?_
      simp only [Function.comp_apply, List.foldl_cons, linkStep, if_pos hid]
    · rename_i hid
      rw [Option.map_map]
      refine Option.map_congr fun t _ => ?_
      simp only [Function.comp_apply, List.foldl_cons, linkStep, if_neg hid]

/-- Linking the copy of a token changes the copy of another one if the one is its parent, and its own
form. -/
theorem linkStep_eq (hlinked : source.Linked) {names : List (Nat × Nat)} {x y : Nat}
    (hself : newName names x = newName names y → x = y)
    (hchild : ∀ c ∈ source.children x, newName names c = newName names y → c = y) (t : Token) :
    (source.linkStep names (newName names y) t x).body =
        (if y = x then
          t.mapForm fun _ => (source.form y).map fun entry => (entry.1, newName names entry.2)
        else t).body ∧
      (source.linkStep names (newName names y) t x).parent =
        (if source.parent? y = some x then (source.parent? y).map (newName names)
        else t.parent) ∧
      (source.linkStep names (newName names y) t x).extent = t.extent := by
  have hname : newName names y = newName names x ↔ y = x :=
    ⟨fun heq => (hself heq.symm).symm, fun heq => by rw [heq]⟩
  have hmem : newName names y ∈ ((source.form x).map fun entry =>
      (entry.1, newName names entry.2)).map Prod.snd ↔ source.parent? y = some x := by
    rw [hlinked.parent_iff, List.map_map]
    refine ⟨fun hmem => ?_, fun hmem => ?_⟩
    · obtain ⟨entry, hentry, heq⟩ := List.mem_map.1 hmem
      have hc : entry.2 ∈ source.children x := List.mem_map_of_mem hentry
      exact hchild entry.2 hc heq ▸ hc
    · obtain ⟨entry, hentry, rfl⟩ := List.mem_map.1 hmem
      exact List.mem_map_of_mem hentry
  simp only [linkStep, hmem, hname]
  by_cases hp : source.parent? y = some x
  · by_cases hx : y = x
    · cases hbody : t.body <;> simp_all [Token.mapForm]
    · simp [hp, hx]
  · by_cases hx : y = x
    · cases hbody : t.body <;> simp_all [Token.mapForm]
    · simp [hp, hx]

/-- Linking copies gives one of them its form if it is among them, and its parent if that is. -/
theorem foldl_linkStep (hlinked : source.Linked) {names : List (Nat × Nat)} {ids : List Nat} {y : Nat}
    (hself : ∀ x ∈ ids, newName names x = newName names y → x = y)
    (hchild : ∀ x ∈ ids, ∀ c ∈ source.children x, newName names c = newName names y → c = y)
    (t : Token) :
    ids.foldl (source.linkStep names (newName names y)) t =
      { body := (if y ∈ ids then
          t.mapForm fun _ => (source.form y).map fun entry => (entry.1, newName names entry.2)
        else t).body
        parent := if source.parent? y ∈ ids.map some then (source.parent? y).map (newName names)
          else t.parent
        extent := t.extent } := by
  induction ids generalizing t with
  | nil => simp
  | cons x rest ih =>
    obtain ⟨hbody, hparent, hextent⟩ := linkStep_eq hlinked (hself x List.mem_cons_self)
      (hchild x List.mem_cons_self) t
    rw [List.foldl_cons, ih (fun z hz => hself z (List.mem_cons_of_mem x hz))
      (fun z hz => hchild z (List.mem_cons_of_mem x hz)), hparent, hextent]
    congr 1
    · by_cases hx : y = x
      · have hmem : y ∈ x :: rest := hx ▸ List.mem_cons_self
        rw [if_pos hx] at hbody
        rw [if_pos hmem]
        split
        · exact Token.body_mapForm_const hbody
        · exact hbody
      · rw [if_neg hx] at hbody
        simp only [List.mem_cons, hx, false_or]
        split
        · exact Token.body_mapForm_congr hbody _
        · exact hbody
    · by_cases hp : source.parent? y = some x <;> simp [hp]

/-- Of a token below another one, the parent stands below that one as well, unless they are the
same. -/
theorem parent?_mem_preorder (hlinked : source.Linked) (hacyclic : source.Acyclic)
    (htop : top < source.size) {y : Nat} (hy : y ∈ source.preorder top) :
    source.parent? y ∈ (source.preorder top).map some ↔ y ≠ top := by
  have hbelow {x : Nat} : x ∈ source.preorder top ↔ ReflTransGen source.IsParent top x :=
    mem_preorder_iff hlinked hacyclic htop
  constructor
  · rintro hmem rfl
    obtain ⟨p, hp, hparent⟩ := List.mem_map.1 hmem
    exact hacyclic y (TransGen.tail' (hbelow.1 hp) hparent.symm)
  · intro hne
    rcases ReflTransGen.cases_tail (hbelow.1 hy) with heq | ⟨p, hp, hparent⟩
    · exact absurd heq hne
    · exact List.mem_map.2 ⟨p, hbelow.2 hp, hparent.symm⟩

/-- Linking copies leaves a token of another name. -/
theorem foldl_linkStep_of_ne {names : List (Nat × Nat)} {ids : List Nat} {id : Nat}
    (hself : ∀ x ∈ ids, id ≠ newName names x)
    (hchild : ∀ x ∈ ids, ∀ c ∈ source.children x, id ≠ newName names c) (t : Token) :
    ids.foldl (source.linkStep names id) t = t := by
  induction ids with
  | nil => rfl
  | cons x rest ih =>
    have hnot : id ∉ ((source.form x).map fun entry =>
        (entry.1, newName names entry.2)).map Prod.snd := by
      rw [List.map_map]
      intro hmem
      obtain ⟨entry, hentry, heq⟩ := List.mem_map.1 hmem
      exact hchild x List.mem_cons_self entry.2 (List.mem_map_of_mem hentry) heq.symm
    have hstep : source.linkStep names id t x = t := by
      simp only [linkStep, if_neg hnot, if_neg (hself x List.mem_cons_self)]
    rw [List.foldl_cons, hstep, ih (fun z hz => hself z (List.mem_cons_of_mem x hz))
      fun z hz => hchild z (List.mem_cons_of_mem x hz)]

/-- Linking copies allocates no token. -/
theorem size_linkCopies (source : Arena) (names : List (Nat × Nat)) (a : Arena) (ids : List Nat) :
    (linkCopies source names a ids).size = a.size := by
  have hfold (form : List (Role × Nat)) (node : Nat) (a : Arena) :
      (form.foldl (fun a entry => a.setParent entry.2 (some node)) a).size = a.size := by
    induction form generalizing a with
    | nil => rfl
    | cons entry rest ih => rw [List.foldl_cons, ih, size_setParent]
  induction ids generalizing a with
  | nil => rfl
  | cons old rest ih => rw [linkCopies, ih, size_updateForm, hfold]

/-- The second pass makes of the tokens that the first pass put in the tokens of the source with the
names in them changed. -/
theorem Appended.linkCopies (hlinked : source.Linked) (hacyclic : source.Acyclic)
    (htop : top < source.size) {names : List (Nat × Nat)}
    (hnames : ∀ i x, (source.preorder top)[i]? = some x → newName names x = a.size + i)
    (h : Appended source.blankOf (source.preorder top) a a') :
    Appended (source.copyOf top (newName names)) (source.preorder top) a
      (linkCopies source names a' (source.preorder top)) := by
  have hchildren {x c : Nat} (hx : x ∈ source.preorder top) (hc : c ∈ source.children x) :
      c ∈ source.preorder top := by
    rw [mem_preorder_iff hlinked hacyclic htop] at hx ⊢
    exact hx.tail ((hlinked.parent_iff c x).2 hc)
  have hge {x : Nat} (hx : x ∈ source.preorder top) : a.size ≤ newName names x := by
    obtain ⟨i, hi⟩ := List.mem_iff_getElem?.1 hx
    rw [hnames i x hi]
    exact Nat.le_add_right _ _
  have hinj {x y : Nat} (hx : x ∈ source.preorder top) (hy : y ∈ source.preorder top)
      (heq : newName names x = newName names y) : x = y := by
    obtain ⟨i, hi⟩ := List.mem_iff_getElem?.1 hx
    obtain ⟨j, hj⟩ := List.mem_iff_getElem?.1 hy
    rw [hnames i x hi, hnames j y hj, Nat.add_left_cancel_iff] at heq
    rw [heq, hj] at hi
    exact (Option.some.inj hi).symm
  refine ⟨by rw [size_linkCopies, h.size_eq], fun id hid => ?_, fun i y hi => ?_⟩
  · rw [get?_linkCopies, h.get?_old id hid]
    have hne {x : Nat} (hx : x ∈ source.preorder top) : id ≠ newName names x :=
      Nat.ne_of_lt (Nat.lt_of_lt_of_le hid (hge hx))
    have hfold (t : Token) : (source.preorder top).foldl (source.linkStep names id) t = t :=
      foldl_linkStep_of_ne (fun x hx => hne hx) (fun x hx c hc => hne (hchildren hx hc)) t
    simp [hfold]
  · have hy := List.mem_of_getElem? hi
    have hparent := parent?_mem_preorder hlinked hacyclic htop hy
    obtain ⟨t, ht⟩ : ∃ t, source.get? y = some t :=
      ⟨_, Array.getElem?_eq_getElem (lt_of_mem_preorder hlinked hacyclic htop hy)⟩
    rw [get?_linkCopies, h.get?_new i y hi, ← hnames i y hi, blankOf, copyOf, ht]
    simp only [Option.map_some, foldl_linkStep hlinked (fun x hx => hinj hx hy)
      (fun x hx c hc => hinj (hchildren hx hc) hy), if_pos hy, hparent]
    have hform : source.form y = t.form := by simp [form, ht]
    have hlink : source.parent? y = t.parent := by simp [parent?, ht]
    rw [hform, hlink]
    cases hbody : t.body <;> by_cases hyt : y = top <;>
      simp [Token.renamed, Token.mapForm, Token.form, hbody, hyt]

/-- Copying a tree is putting it in. -/
theorem importTree_eq_insertTree (hlinked : source.Linked) (hacyclic : source.Acyclic)
    (htop : top < source.size) (a : Arena) :
    a.importTree source top = a.insertTree none (source.tree top) := by
  obtain ⟨hblank, hzip⟩ := appended_allocCopies
    (fun _ hx => lt_of_mem_preorder hlinked hacyclic htop hx) a
  have hnames (i x : Nat) (hi : (source.preorder top)[i]? = some x) :
      newName (allocCopies source a (source.preorder top)).2 x = a.size + i := by
    rw [hzip]
    exact newName_zip (nodup_preorder hlinked hacyclic htop) hi
  have hcopy := hblank.linkCopies hlinked hacyclic htop hnames
  have htree := appended_insertTree hlinked hacyclic htop .refl a hnames
  rw [if_pos rfl] at htree
  rw [importTree, stackWalk_children hlinked hacyclic htop]
  refine Prod.ext (hcopy.unique htree) ?_
  have hfirst : (source.preorder top)[0]? = some top := by
    rw [preorder_eq hlinked hacyclic htop]
    rfl
  rw [snd_insertTree]
  exact hnames 0 top hfirst

end Arena

end ScriptTree
