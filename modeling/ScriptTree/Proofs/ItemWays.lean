import Mathlib.Algebra.GroupWithZero.Nat
import Mathlib.Data.List.Nodup
import ScriptTree.Proofs.Plans

/-!
# The ways to items

Every item of a line-oriented list is found at the end of one way into the tree. There are as many
ways as the tree counts items, those held by a run are as many as the items of the run, and no way
is held by two runs of which one comes before the other.
-/

namespace ScriptTree

namespace Tree

mutual

/-- The ways to the items of line-oriented lists inside a tree, by the place of each child. -/
def itemWays : Tree → List (List Nat)
  | .leaf _ _ _ => []
  | .node kind form _ => itemWaysOfForm kind.isBlockList 0 form

/-- The ways to the items of line-oriented lists among and inside children, which stand at a place
and behind it. -/
def itemWaysOfForm (inBlock : Bool) (index : Nat) : List Entry → List (List Nat)
  | [] => []
  | (role, t) :: rest =>
    (if inBlock && role == .item then [[index]] else []) ++ t.itemWays.map (index :: ·)
      ++ itemWaysOfForm inBlock (index + 1) rest

end

variable {inBlock : Bool} {index : Nat} {form : List Entry} {way : List Nat}

mutual

/-- There are as many ways as items. -/
theorem length_itemWays (t : Tree) : t.itemWays.length = t.blockItems := by
  match t with
  | .leaf kind s extent => simp [itemWays, blockItems]
  | .node kind form extent =>
    rw [itemWays, blockItems, length_itemWaysOfForm kind.isBlockList 0 form]

/-- There are as many ways as items. -/
theorem length_itemWaysOfForm (inBlock : Bool) (index : Nat) (form : List Entry) :
    (itemWaysOfForm inBlock index form).length = blockItemsOfForm inBlock form := by
  match form with
  | [] => simp [itemWaysOfForm, blockItemsOfForm]
  | (role, t) :: rest =>
    have hown : (if (inBlock && role == .item) = true then [[index]] else []).length =
        if (inBlock && role == .item) = true then 1 else 0 := by
      split <;> rfl
    rw [itemWaysOfForm, blockItemsOfForm, List.length_append, List.length_append, List.length_map,
      hown, length_itemWays t, length_itemWaysOfForm inBlock (index + 1) rest]

end

/-- The ways to the items of the first children come first. -/
theorem itemWaysOfForm_append (xs ys : List Entry) :
    itemWaysOfForm inBlock index (xs ++ ys) =
      itemWaysOfForm inBlock index xs ++ itemWaysOfForm inBlock (index + xs.length) ys := by
  induction xs generalizing index with
  | nil => simp [itemWaysOfForm]
  | cons entry rest ih =>
    obtain ⟨role, t⟩ := entry
    rw [List.cons_append, itemWaysOfForm, itemWaysOfForm, ih, List.append_assoc _ _ (_ ++ _),
      List.length_cons, show index + 1 + rest.length = index + (rest.length + 1) by omega]
    simp only [List.append_assoc]

/-- A way to an item among children begins with the place of one of them. -/
theorem exists_of_mem_itemWaysOfForm (h : way ∈ itemWaysOfForm inBlock index form) :
    ∃ step rest, way = step :: rest ∧ index ≤ step ∧ step < index + form.length := by
  induction form generalizing index with
  | nil => simp [itemWaysOfForm] at h
  | cons entry more ih =>
    obtain ⟨role, t⟩ := entry
    rw [itemWaysOfForm, List.mem_append, List.mem_append] at h
    rw [List.length_cons]
    rcases h with (hown | hinner) | hrest
    · split at hown
      · exact ⟨index, [], List.mem_singleton.1 hown, by omega, by omega⟩
      · simp at hown
    · obtain ⟨rest, _, rfl⟩ := List.mem_map.1 hinner
      exact ⟨index, rest, rfl, by omega, by omega⟩
    · obtain ⟨step, rest, rfl, hle, hlt⟩ := ih hrest
      exact ⟨step, rest, rfl, by omega, by omega⟩

/-- A way to an item among children leads to the item at its first place, or on from what is
there. -/
theorem cons_mem_itemWaysOfForm_iff {place : Nat} :
    (index + place) :: way ∈ itemWaysOfForm inBlock index form ↔ ∃ role t,
      form[place]? = some (role, t) ∧
        ((way = [] ∧ inBlock = true ∧ role = .item) ∨ way ∈ t.itemWays) := by
  induction form generalizing index place with
  | nil => simp [itemWaysOfForm]
  | cons entry rest ih =>
    obtain ⟨role, t⟩ := entry
    rw [itemWaysOfForm, List.mem_append, List.mem_append]
    cases place with
    | zero =>
      have hrest : index :: way ∉ itemWaysOfForm inBlock (index + 1) rest := fun hmem => by
        obtain ⟨step, more, heq, hle, _⟩ := exists_of_mem_itemWaysOfForm hmem
        have hstep := (List.cons.inj heq).1
        omega
      rw [Nat.add_zero, or_iff_left hrest]
      simp [and_comm]
    | succ place =>
      have hown : (index + (place + 1)) :: way ∉
          if (inBlock && role == .item) = true then [[index]] else [] := by
        split <;> simp
      have hinner : (index + (place + 1)) :: way ∉ t.itemWays.map (index :: ·) := fun hmem => by
        obtain ⟨more, _, heq⟩ := List.mem_map.1 hmem
        have hstep := (List.cons.inj heq).1
        omega
      rw [or_iff_right hown, or_iff_right hinner, List.getElem?_cons_succ, ← ih,
        show index + (place + 1) = index + 1 + place by omega]

/-- The ways are those to the items of line-oriented lists. -/
theorem mem_itemWays_iff {t : Tree} : way ∈ t.itemWays ↔
    ∃ path place kind form extent item, way = path ++ [place] ∧
      t.descend? path = some (.node kind form extent) ∧ kind.isBlockList = true ∧
        form[place]? = some (.item, item) := by
  constructor
  · intro hway
    induction way generalizing t with
    | nil =>
      cases t with
      | leaf kind s extent => simp [itemWays] at hway
      | node kind form extent =>
        rw [itemWays] at hway
        obtain ⟨_, _, hnil, _⟩ := exists_of_mem_itemWaysOfForm hway
        cases hnil
    | cons step way ih =>
      cases t with
      | leaf kind s extent => simp [itemWays] at hway
      | node kind form extent =>
        rw [itemWays, ← Nat.zero_add step, cons_mem_itemWaysOfForm_iff] at hway
        obtain ⟨role, t, hget, ⟨rfl, hblock, rfl⟩ | hinner⟩ := hway
        · exact ⟨[], step, kind, form, extent, t, rfl, rfl, hblock, hget⟩
        · obtain ⟨path, place, kind', form', extent', item, rfl, hlist, hitem⟩ := ih hinner
          exact ⟨step :: path, place, kind', form', extent', item, rfl,
            by simp [descend?, Tree.form, hget, hlist], hitem⟩
  · rintro ⟨path, place, kind, form, extent, item, rfl, hlist, hblock, hitem⟩
    induction path generalizing t with
    | nil =>
      obtain rfl : t = .node kind form extent := Option.some.inj hlist
      rw [List.nil_append, itemWays, ← Nat.zero_add place, cons_mem_itemWaysOfForm_iff]
      exact ⟨.item, item, hitem, .inl ⟨rfl, hblock, rfl⟩⟩
    | cons step path ih =>
      rw [descend?, Option.bind_eq_some_iff] at hlist
      obtain ⟨⟨role, t'⟩, hget, hlist⟩ := hlist
      cases t with
      | leaf kind s extent => simp [Tree.form] at hget
      | node outer whole range =>
        rw [List.cons_append, itemWays, ← Nat.zero_add step, cons_mem_itemWaysOfForm_iff]
        exact ⟨role, t', hget, .inr (ih hlist)⟩

mutual

/-- No way leads to two items. -/
theorem nodup_itemWays (t : Tree) : t.itemWays.Nodup := by
  match t with
  | .leaf kind s extent => simp [itemWays]
  | .node kind form extent =>
    rw [itemWays]
    exact nodup_itemWaysOfForm kind.isBlockList 0 form

/-- No way leads to two items. -/
theorem nodup_itemWaysOfForm (inBlock : Bool) (index : Nat) (form : List Entry) :
    (itemWaysOfForm inBlock index form).Nodup := by
  match form with
  | [] => simp [itemWaysOfForm]
  | (role, t) :: rest =>
    have hinner : (t.itemWays.map (index :: ·)).Nodup :=
      (nodup_itemWays t).map fun _ _ heq => (List.cons.inj heq).2
    have hrest := nodup_itemWaysOfForm inBlock (index + 1) rest
    have hapart : ∀ way ∈ itemWaysOfForm inBlock (index + 1) rest, way.head? ≠ some index := by
      intro way hway
      obtain ⟨step, way, rfl, hle, _⟩ := exists_of_mem_itemWaysOfForm hway
      simp only [List.head?_cons, ne_eq, Option.some.injEq]
      omega
    rw [itemWaysOfForm, List.append_assoc]
    refine List.Nodup.append (by split <;> simp) (List.Nodup.append hinner hrest ?_) ?_
    · intro way hway hway'
      obtain ⟨_, _, rfl⟩ := List.mem_map.1 hway
      exact hapart _ hway' rfl
    · intro way hway hway'
      split at hway
      · obtain rfl := List.mem_singleton.1 hway
        rcases List.mem_append.1 hway' with hway' | hway'
        · obtain ⟨way, hway, hcons⟩ := List.mem_map.1 hway'
          obtain rfl := (List.cons.inj hcons).2
          obtain ⟨kind, form, extent, rfl⟩ : ∃ kind form extent, t = .node kind form extent := by
            cases t with
            | leaf kind s extent => simp [itemWays] at hway
            | node kind form extent => exact ⟨kind, form, extent, rfl⟩
          rw [itemWays] at hway
          obtain ⟨_, _, hnil, _⟩ := exists_of_mem_itemWaysOfForm hway
          cases hnil
        · exact hapart _ hway' rfl
      · cases hway

end

mutual

/-- Moving a tree keeps its items. -/
@[simp]
theorem blockItems_shift (old new : Position) (t : Tree) :
    (t.shift old new).blockItems = t.blockItems := by
  match t with
  | .leaf kind s extent => simp [shift, blockItems]
  | .node kind form extent =>
    rw [shift, blockItems, blockItems, blockItemsOfForm_shiftForm old new kind.isBlockList form]

/-- Moving children keeps their items. -/
@[simp]
theorem blockItemsOfForm_shiftForm (old new : Position) (inBlock : Bool) (form : List Entry) :
    blockItemsOfForm inBlock (shiftForm old new form) = blockItemsOfForm inBlock form := by
  match form with
  | [] => simp [shiftForm]
  | (role, t) :: rest =>
    rw [shiftForm, blockItemsOfForm, blockItemsOfForm, blockItems_shift old new t,
      blockItemsOfForm_shiftForm old new inBlock rest]

end

end Tree

namespace Reparse

open ScriptTree.Tree

variable {first count first' count' : Nat} {path path' way : List Nat} {t : Tree}
  {front back : String} {run : List Entry}

/-- Whether a way leads to an entry of a run, or through one. -/
def holdsWay (first count : Nat) : List Nat → List Nat → Bool
  | [], step :: _ => first ≤ step && step < first + count
  | index :: path, step :: way => step == index && holdsWay first count path way
  | _, [] => false

/-- Whether a way leads to an entry of the run of a candidate, or through one. -/
def Candidate.holds (c : Candidate) (way : List Nat) : Bool :=
  holdsWay c.first (c.last + 1 - c.first) c.path way

/-- No way is held by two runs of which one comes before the other. -/
theorem Precedes.apart (h : Precedes first' count' path' first path)
    (hway : holdsWay first count path way = true) :
    holdsWay first' count' path' way = false := by
  induction path generalizing path' way with
  | nil =>
    cases way with
    | nil => simp [holdsWay] at hway
    | cons step way =>
      simp only [holdsWay, Bool.and_eq_true, decide_eq_true_eq] at hway
      cases path' with
      | nil =>
        simp only [Precedes, reach] at h
        simp only [holdsWay, Bool.and_eq_false_iff, decide_eq_false_iff_not]
        omega
      | cons index' path' =>
        simp only [Precedes, reach] at h
        simp only [holdsWay, Bool.and_eq_false_iff, beq_eq_false_iff_ne]
        omega
  | cons index path ih =>
    cases way with
    | nil => simp [holdsWay] at hway
    | cons step way =>
      simp only [holdsWay, Bool.and_eq_true, beq_iff_eq] at hway
      obtain ⟨rfl, hway⟩ := hway
      rcases h with hreach | ⟨rest, rfl, hprecedes⟩
      · cases path' with
        | nil =>
          simp only [reach] at hreach
          simp only [holdsWay, Bool.and_eq_false_iff, decide_eq_false_iff_not]
          omega
        | cons index' path' =>
          simp only [reach] at hreach
          simp only [holdsWay, Bool.and_eq_false_iff, beq_eq_false_iff_ne]
          omega
      · rw [holdsWay, ih hprecedes hway, Bool.and_false]

/-- The ways that a run holds are as many as its items. -/
theorem RunAt.length_filter_itemWays (h : RunAt first count path t front run back) :
    (t.itemWays.filter (holdsWay first count path)).length = blockItemsOfForm true run := by
  have hnone {inBlock : Bool} {index : Nat} {form : List Entry} {p : List Nat → Bool}
      (hout : ∀ step way, index ≤ step → step < index + form.length → p (step :: way) = false) :
      (itemWaysOfForm inBlock index form).filter p = [] := by
    refine List.filter_eq_nil_iff.2 fun way hway => ?_
    obtain ⟨step, rest, rfl, hle, hlt⟩ := exists_of_mem_itemWaysOfForm hway
    simp [hout step rest hle hlt]
  induction path generalizing t front back with
  | nil =>
    obtain ⟨block, extent, before, after, rfl, rfl, rfl, rfl, rfl⟩ := h
    have hblock : block.nodeKind.isBlockList = true := by cases block <;> rfl
    have hall : (itemWaysOfForm true before.length run).filter
        (holdsWay before.length run.length []) = itemWaysOfForm true before.length run := by
      refine List.filter_eq_self.2 fun way hway => ?_
      obtain ⟨step, rest, rfl, hle, hlt⟩ := exists_of_mem_itemWaysOfForm hway
      simp [holdsWay, hle, hlt]
    rw [itemWays, hblock, itemWaysOfForm_append, itemWaysOfForm_append, List.filter_append,
      List.filter_append, Nat.zero_add, hall, hnone, hnone, List.nil_append, List.append_nil,
      length_itemWaysOfForm]
    · intro step way hle hlt
      simp only [holdsWay, Bool.and_eq_false_iff, decide_eq_false_iff_not]
      rw [List.length_append] at hle
      omega
    · intro step way hle hlt
      simp only [holdsWay, Bool.and_eq_false_iff, decide_eq_false_iff_not]
      omega
  | cons index path ih =>
    obtain ⟨kind, extent, before, role, child, after, innerFront, innerBack, rfl, rfl, hchild,
      rfl, rfl⟩ := h
    have hinner : (child.itemWays.map (before.length :: ·)).filter
        (holdsWay first count (before.length :: path)) =
          (child.itemWays.filter (holdsWay first count path)).map (before.length :: ·) := by
      rw [List.filter_map]
      refine congrArg _ (List.filter_congr fun way _ => ?_)
      simp [holdsWay]
    have hown : (if (kind.isBlockList && role == .item) = true then [[before.length]]
        else []).filter (holdsWay first count (before.length :: path)) = [] := by
      split
      · cases path <;> simp [holdsWay]
      · rfl
    rw [itemWays, itemWaysOfForm_append, itemWaysOfForm, Nat.zero_add, List.filter_append,
      List.filter_append, List.filter_append, hown, hinner, hnone, hnone, List.nil_append,
      List.nil_append, List.append_nil, List.length_map, ih hchild]
    · intro step way hle hlt
      simp only [holdsWay, Bool.and_eq_false_iff, beq_eq_false_iff_ne]
      omega
    · intro step way hle hlt
      simp only [holdsWay, Bool.and_eq_false_iff, beq_eq_false_iff_ne]
      omega

/-- Of ways that no two of some candidates hold, those that none of them holds and those that each
of them holds make up all. -/
theorem length_filter_of_pairwise {ways : List (List Nat)} {held : List Candidate}
    (h : held.Pairwise fun c c' => ∀ way ∈ ways, c.holds way = true → c'.holds way = false) :
    (ways.filter fun way => held.all fun c => !c.holds way).length
      + (held.map fun c => (ways.filter c.holds).length).sum = ways.length := by
  induction held with
  | nil => simp
  | cons c rest ih =>
    obtain ⟨hapart, hrest⟩ := List.pairwise_cons.1 h
    have hsplit := List.length_eq_length_filter_add
      (l := ways.filter fun way => rest.all fun c' => !c'.holds way) c.holds
    have hheld : (ways.filter fun way => rest.all fun c' => !c'.holds way).filter c.holds =
        ways.filter c.holds := by
      rw [List.filter_filter]
      refine List.filter_congr fun way hway => ?_
      cases hholds : c.holds way with
      | false => rfl
      | true => simpa using fun c' hc' => hapart c' hc' way hway hholds
    have hfree : (ways.filter fun way => rest.all fun c' => !c'.holds way).filter
        (fun way => !c.holds way) =
          ways.filter fun way => (c :: rest).all fun c' => !c'.holds way := by
      rw [List.filter_filter]
      rfl
    rw [hheld, hfree] at hsplit
    rw [List.map_cons, List.sum_cons, ← ih hrest, hsplit]
    omega

end Reparse

end ScriptTree
